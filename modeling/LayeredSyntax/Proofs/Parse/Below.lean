/-
  BELOW THE HEADS — what of a stack still counts.

  Nodes are never taken away from a stack, but a parse looks only at those that it can reach: the
  heads, and what lies below them (`Stack.Live`).  Where a repair went on from a node further down,
  the nodes above that node are still there and count no more.

  1. A kind of nodes `G` that leads to nothing but itself, with all edges of the nodes from a number
     on leading into it, holds everything that can be reached (`Within`, `Within.live`).
  2. Finishing productions and reading a token keep the stack within a kind (`reduceAll_within`,
     `shift_within`): **a subtree is only ever put on a node that could be reached before**, at the
     end of a way down from a head.

  So with the kind of all nodes that were live, nothing that was given up comes back.
-/
import LayeredSyntax.Proofs.Parse.Placing
import LayeredSyntax.Proofs.Parse.Repairing

namespace LayeredSyntax

namespace Stack

variable {s s' : Stack} {base p c i bottom target : Nat} {label : Label} {G : Nat → Prop}

/-- **Whether a node is a head or lies below one.** -/
def Live (s : Stack) (i : Nat) : Prop := ∃ head ∈ s.heads, ∃ n, s.Path head n i

theorem live_of_mem_heads (h : i ∈ s.heads) : s.Live i := ⟨i, h, 0, rfl⟩

theorem Live.path (h : s.Live i) {n k : Nat} (hpath : s.Path i n k) : s.Live k := by
  obtain ⟨head, hhead, m, hhpath⟩ := h
  exact ⟨head, hhead, m + n, hhpath.trans hpath⟩

theorem Live.below (h : s.Live i) {e : Edge} (he : e ∈ s.edges i) : s.Live e.below :=
  h.path (n := 1) ⟨e, he, rfl⟩

/-- The nodes on the first way down from a node lie below it. -/
theorem path_of_mem_chainFrom : ∀ {fuel i k : Nat}, k ∈ s.chainFrom i fuel → ∃ n, s.Path i n k := by
  intro fuel
  induction fuel with
  | zero => exact fun h => absurd h List.not_mem_nil
  | succ fuel ih =>
    intro i k h
    unfold chainFrom at h
    split at h
    · next e hedge =>
      rcases List.mem_cons.mp h with rfl | h
      · exact ⟨0, rfl⟩
      · obtain ⟨n, hpath⟩ := ih h
        exact ⟨n + 1, e, List.mem_of_head? hedge, hpath⟩
    · obtain rfl := List.mem_singleton.mp h
      exact ⟨0, rfl⟩

theorem live_of_mem_chain (h : i ∈ s.chain) : s.Live i := by
  unfold chain at h
  split at h
  · exact absurd h List.not_mem_nil
  · next head rest hheads =>
    obtain ⟨n, hpath⟩ := path_of_mem_chainFrom h
    exact ⟨head, by rw [hheads]; exact List.mem_cons_self, n, hpath⟩

/-! ## Staying within a kind -/

/-- **Whether everything below the nodes from a number on is of a kind.** -/
structure Within (base : Nat) (G : Nat → Prop) (s : Stack) : Prop where
  edges : ∀ i e, base ≤ i → e ∈ s.edges i → G e.below
  closed : ∀ i e, i < base → G i → e ∈ s.edges i → G e.below

/-- A live node is a head, or of the kind. -/
theorem Within.live (h : s.Within base G) (hs : s.Fresh base p c) (hi : s.Live i) :
    (base ≤ i ∧ i < s.nodes.size) ∨ (i < base ∧ G i) := by
  have hbelow : ∀ {n i k : Nat}, i < base → G i → s.Path i n k → k < base ∧ G k := by
    intro n
    induction n with
    | zero =>
      rintro i k hi hG rfl
      exact ⟨hi, hG⟩
    | succ n ih =>
      rintro i k hi hG ⟨e, he, hpath⟩
      exact ih (Nat.lt_trans (hs.down i e he).1 hi) (h.closed i e hi hG he) hpath
  obtain ⟨head, hhead, n, hpath⟩ := hi
  obtain ⟨hbase, hlt⟩ := hs.mem_heads.mp hhead
  cases n with
  | zero =>
    obtain rfl : head = i := hpath
    exact .inl ⟨hbase, hlt⟩
  | succ n =>
    obtain ⟨e, he, hpath⟩ := hpath
    exact .inr (hbelow ((hs.down head e he).2 hbase) (h.edges head e hbase he) hpath)

/-- Before anything new is put on, the nodes below the heads are live. -/
theorem Fresh.within_live (hs : s.Fresh base p c) : s.Within base s.Live :=
  ⟨fun _ _ hi he => (live_of_mem_heads (hs.mem_heads.mpr ⟨hi, lt_of_mem_edges he⟩)).below he,
    fun _ _ _ hi he => hi.below he⟩

theorem Within.placed (h : s.Within base G) (hs : s.Fresh base p c) (hbottom : G bottom)
    (hstop : label.stop = c) : (s.placed p bottom target label).Within base G := by
  refine ⟨fun i e hi he => ?_, fun i e hi hG he => ?_⟩
  · rcases hs.mem_edges_placed hstop he with he | ⟨rfl, _, _⟩
    · exact h.edges i e hi he
    · exact hbottom
  · unfold Stack.edges at he
    rw [hs.node_placed_of_lt hi] at he
    exact h.closed i e hi hG he

/-- A new head alone on top, whose edges lead to nodes of a kind. -/
theorem within_pushOnly {n : StackNode} (hn : ∀ e ∈ n.edges, G e.below)
    (hG : ∀ i e, G i → e ∈ s.edges i → G e.below) : (s.pushOnly n).Within s.nodes.size G := by
  refine ⟨fun i e hi he => ?_, fun i e hi hlive he => ?_⟩
  · obtain rfl : i = s.nodes.size := by
      have hlt := lt_of_mem_edges he
      have hsize : (s.pushOnly n).nodes.size = s.nodes.size + 1 := Array.size_push _
      omega
    have hself : (s.pushOnly n).node s.nodes.size = n := node_push_self s n
    unfold Stack.edges at he
    rw [hself] at he
    exact hn e he
  · have hold : (s.pushOnly n).node i = s.node i := node_push_of_ne (Nat.ne_of_lt hi)
    unfold Stack.edges at he
    rw [hold] at he
    exact hG i e hlive he

end Stack

namespace ParseJob

variable {j : ParseJob} {p base c : Nat} {E : Face → Face → Label → Prop} {regions : Regions}
  {G : Nat → Prop}

/-- **A subtree is only put on a node of the kind**: the ways from the heads leave them at one. -/
theorem keptByPlacing_within (hE : j.ClosedUnder regions p c E) :
    j.KeptByPlacing regions p base c E (Stack.Within base G) fun way => G way.1 where
  ways hr h hhead hway hlt := by
    have hlive : Stack.Live _ _ := ⟨_, hhead, _, Stack.path_of_mem_ways hway⟩
    rcases h.live hr.fresh hlive with ⟨hge, _⟩ | ⟨_, hG⟩
    · exact absurd hlt (Nat.not_lt.mpr hge)
    · exact hG
  place hr h hway hG hgoto := by
    obtain ⟨top, htrail, hp, hc, hq⟩ := hway.trail
    exact h.placed hr.fresh hG (hE htrail hp hc hq hway.length hgoto).1

/-- **Finishing everything stays within what was live.** -/
theorem reduceAll_within (ht : j.table.Canonical) {s : Progress}
    (hE : j.ClosedUnder s.regions s.position c E) (hs : s.stack.Fresh base s.position c)
    (hedges : s.stack.Edges E) : (s.reduceAll j).stack.Within base s.stack.Live :=
  reduceAll_rule (keptByPlacing_within hE) ht hE hs hedges hs.within_live

/-- **Reading a token stays within what was live.** -/
theorem shift_within {s : Progress} (hE : j.ClosedUnderShift s.position c E)
    (hs : s.stack.Fresh base s.position c) (hedges : s.stack.Edges E)
    (hreads : (s.shift j).1 = true) :
    (s.shift j).2.stack.Within s.stack.nodes.size s.stack.Live := by
  refine shift_rule hE hs hedges (fun hr h hhead => ?_) ?_ hreads
  · exact h.placed hr.fresh (Stack.live_of_mem_heads hhead) rfl
  · exact ⟨fun i e hi he => absurd (Stack.lt_of_mem_edges he) (Nat.not_lt.mpr hi),
      fun i e _ hlive he => hlive.below he⟩

end ParseJob

end LayeredSyntax
