/-
  OFFERING SUBTREES — where what an index holds comes from.

  Every subtree in an index was found in the old tree, at a position from which on nothing was
  marked and from which the new position follows (`Node.Offered`).  What is filed is only put in
  order and cut off, so nothing comes in on the way (`mem_candidatesAt_build`).

  **The crux** is the new position: it is the old one in front of the first position that may
  differ, lookahead included, or moved with the tokens that were taken over.  Either way the same
  tokens stand there (`Relexed.Spliced.recurs_of_newPosition`).
-/
import LayeredSyntax.Edit.Candidates
import LayeredSyntax.Proofs.Edit.Splicing
import LayeredSyntax.Proofs.Parse.Spreading

namespace LayeredSyntax

variable {a : AgreeingRange} {marks : Array Bool} {first p : Nat} {n : Node}

/-! ## Finding subtrees -/

namespace Node

/-- **Whether a subtree was found in a row of nodes** that begins at position `first`, and the new
    position is one at which it can be taken over. -/
def Offered (a : AgreeingRange) (marks : Array Bool) (first : Nat) (ns : List Node)
    (x : Nat × Node) : Prop :=
  ∃ f, FoundIn ns f x.2 ∧ x.2.reusableAt? a marks (first + f) = some x.1

theorem mem_candidatesAllOnto (a : AgreeingRange) (marks : Array Bool) (first : Nat)
    (out : List (Nat × Node)) (ns : List Node) : ∀ x ∈ candidatesAllOnto a marks first out ns,
      x ∈ out ∨ Offered a marks first ns x := by
  -- The row of a single node stands for the node itself.
  refine candidatesAllOnto.induct a marks
    (fun first out n => ∀ x ∈ candidatesOnto a marks first out n,
      x ∈ out ∨ Offered a marks first [n] x)
    (fun first out ns => ∀ x ∈ candidatesAllOnto a marks first out ns,
      x ∈ out ∨ Offered a marks first ns x) ?_ ?_ ?_ ?_ first out ns
  · intro first out kind g nonterminal production before cs more ih x hx
    rw [candidatesOnto] at hx
    rcases ih x hx with hmore | ⟨f, hf, hnew⟩
    · unfold more at hmore
      split at hmore
      · next new hnew =>
        rcases List.mem_cons.mp hmore with rfl | hout
        · exact .inr ⟨0, .here, hnew⟩
        · exact .inl hout
      · exact .inl hmore
    · exact .inr ⟨f, .inside hf, hnew⟩
  · intro n first out hno x hx
    rw [candidatesOnto] at hx
    · exact .inl hx
    · exact hno
  · intro first out x hx
    rw [candidatesAllOnto] at hx
    exact .inl hx
  · intro first out c cs ihc ihcs x hx
    rw [candidatesAllOnto] at hx
    rcases ihcs x hx with hc | ⟨f, hf, hnew⟩
    · rcases ihc x hc with hout | ⟨f, hf, hnew⟩
      · exact .inl hout
      · exact .inr ⟨f, hf.append_left cs, hnew⟩
    · refine .inr ⟨c.tokenCount + f, .next hf, ?_⟩
      rwa [← Nat.add_assoc]

theorem reusableAt?_spec (h : n.reusableAt? a marks first = some p) :
    n.before?.isSome = true ∧ n.hasError = false ∧ n.tokenCount ≠ 0 ∧
      isClear marks first (n.tokenCount + 1) = true ∧
      a.newPosition? first (first + n.tokenCount) = some p := by
  unfold reusableAt? at h
  split at h
  · next hall =>
    simp only [Bool.and_eq_true, Bool.not_eq_true', bne_iff_ne] at hall
    obtain ⟨⟨⟨hbefore, herror⟩, hcount⟩, hclear⟩ := hall
    exact ⟨hbefore, herror, hcount, hclear, h⟩
  · cases h

/-- What has a state in which it was begun, and holds a token, has children. -/
theorem children_ne_nil (hbefore : n.before?.isSome = true) (hcount : n.tokenCount ≠ 0) :
    n.children ≠ [] := by
  cases n with
  | rule kind g nonterminal production before cs =>
    rintro (rfl : cs = [])
    refine hcount ?_
    unfold tokenCount
    rw [measure]
    rfl
  | leaf | trivia | skipped | missing | error | root => cases hbefore

end Node

/-! ## Filing them -/

namespace ReuseIndex

/-- A row of what is filed holds what was found for it, in front of what it held before. -/
theorem mem_of_filed {found : List (Nat × Node)} {rows : Array (List Node)} {row : List Node}
    (hrow : (found.foldl (fun (rows : Array (List Node)) x => rows.modify x.1 (x.2 :: ·))
      rows)[p]? = some row) (hn : n ∈ row) :
    (p, n) ∈ found ∨ ∃ before, rows[p]? = some before ∧ n ∈ before := by
  induction found generalizing rows with
  | nil => exact .inr ⟨row, hrow, hn⟩
  | cons x found ih =>
    rcases ih hrow with hfound | ⟨after, hafter, hn'⟩
    · exact .inl (List.mem_cons_of_mem _ hfound)
    · rw [Array.getElem?_modify] at hafter
      split at hafter
      · next hx =>
        obtain ⟨before, hbefore, rfl⟩ := Option.map_eq_some_iff.mp hafter
        rcases List.mem_cons.mp hn' with rfl | hn''
        · rw [← hx]
          exact .inl List.mem_cons_self
        · exact .inr ⟨before, hbefore, hn''⟩
      · exact .inr ⟨after, hafter, hn'⟩

/-- **What is filed was found.** -/
theorem mem_candidatesAt_ofCandidates [Limits] {size : Nat} {found : List (Nat × Node)}
    (h : n ∈ (ofCandidates size found).candidatesAt p) : (p, n) ∈ found := by
  unfold candidatesAt ofCandidates at h
  dsimp only at h
  rw [Array.getElem?_map] at h
  cases hrow : (found.foldl (fun (rows : Array (List Node)) x => rows.modify x.1 (x.2 :: ·))
    (Array.replicate size []))[p]? with
  | none =>
    rw [hrow] at h
    exact absurd h List.not_mem_nil
  | some row =>
    rw [hrow] at h
    have hn : n ∈ row := List.mem_mergeSort.mp (List.mem_of_mem_take h)
    rcases mem_of_filed hrow hn with hfound | ⟨before, hbefore, hn'⟩
    · exact hfound
    · rw [Array.getElem?_replicate] at hbefore
      split at hbefore
      · obtain rfl := Option.some.inj hbefore
        exact absurd hn' List.not_mem_nil
      · cases hbefore

/-- **What an index holds was found in the old tree.** -/
theorem mem_candidatesAt_build [Limits] {tree : Node} {old : TokenStream} {r : Relexed}
    {resync : ResyncSet} (h : n ∈ (build tree marks old r resync).candidatesAt p) : ∃ f,
      Node.FoundIn tree.children f n ∧ n.reusableAt? (.of old r resync) marks f = some p := by
  rcases Node.mem_candidatesAllOnto _ _ _ _ _ _ (mem_candidatesAt_ofCandidates h) with
    hnil | ⟨f, hf, hnew⟩
  · exact absurd hnil List.not_mem_nil
  · rw [Nat.zero_add] at hnew
    exact ⟨f, hf, hnew⟩

end ReuseIndex

/-! ## Where they stand now -/

theorem AgreeingRange.newPosition?_spec {ahead : Nat} (h : a.newPosition? first ahead = some p) :
    ahead < a.frontStop ∧ p = first ∨
      a.backStart ≤ first ∧ ahead ≤ a.oldSize ∧ p = first - a.oldResume + a.newResume := by
  unfold newPosition? at h
  split at h
  · next hfront => exact .inl ⟨hfront, (Option.some.inj h).symm⟩
  · split at h
    · next hback => exact .inr ⟨hback.1, hback.2, (Option.some.inj h).symm⟩
    · cases h

/-- Behind the edit nothing is taken from in front of what was taken over. -/
theorem AgreeingRange.oldResume_le_backStart {old : TokenStream} {r : Relexed}
    (h : r.oldResume ≤ old.size) (resync : ResyncSet) :
    r.oldResume ≤ (AgreeingRange.of old r resync).backStart := by
  show r.oldResume ≤ (((old.significantTokens.zipIdx.drop r.oldResume).find? fun p =>
    resync.isMatch p.1.kind p.1.text).map (·.2)).getD old.size
  cases hfind : (old.significantTokens.zipIdx.drop r.oldResume).find? fun p =>
      resync.isMatch p.1.kind p.1.text with
  | none => exact h
  | some x =>
    obtain ⟨i, hi, hx⟩ := List.mem_drop_iff_getElem.mp (List.mem_of_find?_eq_some hfind)
    show r.oldResume ≤ x.2
    rw [← hx, List.getElem_zipIdx]
    show r.oldResume ≤ 0 + (r.oldResume + i)
    omega

/-- **What stands at the old position comes again at the new one**, the lookahead included. -/
theorem Relexed.Spliced.recurs_of_newPosition {r : Relexed} {d : Document} {olds : Array Token}
    {source : String} {resync : ResyncSet} {count : Nat} (h : r.Spliced olds.toList source)
    (hnew : (AgreeingRange.of (.ofTokens d olds) r resync).newPosition? first (first + count) =
      some p) :
    (TokenStream.ofTokens d olds).Recurs r.stream first p count ∧
      first + count ≤ (TokenStream.ofTokens d olds).size := by
  obtain ⟨news, x, hstream, _, hjoins⟩ := h
  have hsize : (TokenStream.ofTokens d olds).size =
      countSignificant (x.before ++ x.skipped) + countSignificant x.rest := by
    rw [TokenStream.size_ofTokens, hjoins.olds, ← List.append_assoc, countSignificant_append]
  rw [hstream]
  rcases AgreeingRange.newPosition?_spec hnew with ⟨hfront, rfl⟩ | ⟨hback, hahead, rfl⟩
  · have hlt : p + count < r.firstChanged := hfront
    refine ⟨hjoins.recurs_front hlt, ?_⟩
    rw [hsize, countSignificant_append]
    rw [hjoins.firstChanged] at hlt
    omega
  · refine ⟨hjoins.recurs_back (Nat.le_trans ?_ hback), hahead⟩
    refine AgreeingRange.oldResume_le_backStart ?_ resync
    rw [hsize, hjoins.oldResume]
    exact Nat.le_add_right _ _

end LayeredSyntax
