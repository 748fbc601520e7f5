/-
  REACHING — the nodes of a finite graph that can be reached from some of them.

  Grammars raise one question again and again: what can be reached by following references?  Which
  rules are used, which rules can begin another one, whose followers are also followers of another.
  The nodes are the numbers below a bound, a graph is a function from a node to its successors, and
  the answer is an array with one mark per node.

  **The search ends** because each step either marks a node that had no mark or takes one off the
  list of nodes to visit.
-/
namespace LayeredSyntax

/-- What can be reached from some nodes along a graph, one step after the other. -/
inductive Reached (next : Nat → List Nat) (origins : List Nat) : Nat → Prop where
  /-- Where the search starts. -/
  | start {x : Nat} : x ∈ origins → Reached next origins x
  /-- One step further. -/
  | step {x y : Nat} : Reached next origins x → y ∈ next x → Reached next origins y

/-- Setting a mark that was not set leaves fewer unset marks. -/
theorem count_set_lt {marks : Array Bool} {x : Nat} (h : marks[x]? = some false) :
    (marks.setIfInBounds x true).count false < marks.count false := by
  obtain ⟨hx, hval⟩ := Array.getElem?_eq_some_iff.mp h
  have hx' : x < marks.toList.length := by simpa using hx
  have hpos : 0 < marks.toList.count false :=
    List.count_pos_iff.mpr (by simpa using Array.mem_of_getElem? h)
  rw [← Array.count_toList, ← Array.count_toList, Array.toList_setIfInBounds, List.count_set hx']
  have hold : (marks.toList[x] == false) = true := by simp [hval]
  rw [if_pos hold, if_neg (by decide)]
  omega

/-- Mark what can be reached from the nodes still to visit; marked nodes have been seen to. -/
def reachFrom (next : Nat → List Nat) (marks : Array Bool) (todo : List Nat) : Array Bool :=
  match todo with
  | [] => marks
  | x :: rest =>
    match _h : marks[x]? with
    | some false => reachFrom next (marks.setIfInBounds x true) (next x ++ rest)
    | _ => reachFrom next marks rest
termination_by (marks.count false, todo.length)
decreasing_by
  · exact Prod.Lex.left _ _ (count_set_lt _h)
  · exact Prod.Lex.right _ (by simp)

/-- **The nodes below `bound` that can be reached**, as marks. -/
def reach (bound : Nat) (next : Nat → List Nat) (start : List Nat) : Array Bool :=
  reachFrom next (Array.replicate bound false) start

/-- The marked nodes in order. -/
def marked (marks : Array Bool) : List Nat :=
  (List.range marks.size).filter fun i => marks[i]? == some true

/-! ## Running the program -/

example : marked (reach 4 (fun x => if x = 0 then [2] else if x = 2 then [0, 3] else []) [0]) =
    [0, 2, 3] := by cbv

end LayeredSyntax
