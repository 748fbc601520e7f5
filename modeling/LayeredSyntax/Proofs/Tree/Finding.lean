/-
  FINDING A RANGE — the search comes to the innermost node.

  A range that is not empty lies in a node or not (`Place.Holds`).  The search goes down greedily:
  into the first child that is no trivia and holds the range, as long as there is one, and it never
  goes back.  What it comes to is nevertheless the innermost node that holds the range
  (`Place.innermost?_holds`):

  1. the children of a node stand one behind the other within it (`Place.within_of_mem_children`,
     `Place.stop_le_start`), and so does everything below them;
  2. so at most one child holds a range that is not empty, and whatever holds the range further
     below is below that child (`Place.Holds.unique`).

  Trivia have no children, so where a range lies in a blank the node around the blank is found.
-/
import LayeredSyntax.Proofs.Tree.Walking

namespace LayeredSyntax

namespace Node

theorem sizeOfAll_append (ns ms : List Node) :
    sizeOfAll (ns ++ ms) = sizeOfAll ns + sizeOfAll ms := by
  rw [sizeOfAll_eq, sizeOfAll_eq, sizeOfAll_eq, List.map_append, List.sum_append]

/-- The nodes in front cover no more than all of them. -/
theorem sizeOfAll_take_le (ns : List Node) (i : Nat) : sizeOfAll (ns.take i) ≤ sizeOfAll ns := by
  conv_rhs => rw [← List.take_append_drop i ns, sizeOfAll_append]
  omega

end Node

namespace Place

variable {p q c d : Place} {i j start stop : Nat}

/-! ## Children within their parent -/

theorem start_of_child? (h : p.child? i = some c) :
    c.start = p.start + Node.sizeOfAll (p.node.children.take i) := by
  obtain ⟨n, _, rfl⟩ := Option.map_eq_some_iff.mp h
  rfl

theorem stop_of_child? (h : p.child? i = some c) :
    c.stop = p.start + Node.sizeOfAll (p.node.children.take (i + 1)) := by
  obtain ⟨n, hn, rfl⟩ := Option.map_eq_some_iff.mp h
  show p.start + Node.sizeOfAll (p.node.children.take i) + n.size = _
  rw [List.take_add_one, hn, Node.sizeOfAll_append, Option.toList_some, Node.sizeOfAll_cons,
    Node.sizeOfAll_nil, Nat.add_zero, Nat.add_assoc]

/-- A node with children is as long as they are. -/
theorem stop_of_children (h : p.node.children ≠ []) :
    p.stop = p.start + Node.sizeOfAll p.node.children := by
  unfold stop Node.size
  rw [(Node.measure_of_children h).1, Node.sizeOfAll_eq, List.map_map]
  rfl

/-- **A child stands within its parent.** -/
theorem within_of_mem_children (h : c ∈ p.children) : p.start ≤ c.start ∧ c.stop ≤ p.stop := by
  obtain ⟨i, hi⟩ := exists_child?_of_mem h
  have hne : p.node.children ≠ [] := List.ne_nil_of_mem (node_mem_of_mem_children h)
  have hlast := Node.sizeOfAll_take_le p.node.children (i + 1)
  rw [start_of_child? hi, stop_of_child? hi, stop_of_children hne]
  omega

/-- **Children stand one behind the other.** -/
theorem stop_le_start (hc : p.child? i = some c) (hd : p.child? j = some d) (h : i < j) :
    c.stop ≤ d.start := by
  have htake := Node.sizeOfAll_take_le (p.node.children.take j) (i + 1)
  rw [List.take_take, Nat.min_eq_left (show i + 1 ≤ j from h)] at htake
  rw [stop_of_child? hc, start_of_child? hd]
  omega

/-- Everything below a node stands within it. -/
theorem within_of_mem_descendants (h : d ∈ p.descendants) :
    p.start ≤ d.start ∧ d.stop ≤ p.stop := by
  induction h using descendantInduction with
  | self => exact ⟨Nat.le_refl _, Nat.le_refl _⟩
  | up hc hd ih =>
    have hchild := within_of_mem_children hc
    omega

/-! ## Ranges that are not empty -/

/-- **Whether a range lies in a node.** -/
def Holds (p : Place) (start stop : Nat) : Prop := p.start ≤ start ∧ stop ≤ p.stop

/-- What holds a range further below holds it as a whole. -/
theorem Holds.of_mem_descendants (h : d.Holds start stop) (hd : d ∈ p.descendants) :
    p.Holds start stop := by
  have hwithin := within_of_mem_descendants hd
  unfold Holds at h ⊢
  omega

/-- A range that is not empty needs a node that has a width. -/
theorem covers_iff (hrange : start < stop) : p.covers start stop = true ↔ p.Holds start stop := by
  unfold covers Holds
  simp only [Bool.and_eq_true, Bool.or_eq_true, decide_eq_true_eq, beq_iff_eq]
  omega

/-- **At most one child holds a range** that is not empty. -/
theorem Holds.unique (hrange : start < stop) (hc : c ∈ p.children) (hd : d ∈ p.children)
    (h : c.Holds start stop) (h' : d.Holds start stop) : c = d := by
  obtain ⟨i, hi⟩ := exists_child?_of_mem hc
  obtain ⟨j, hj⟩ := exists_child?_of_mem hd
  unfold Holds at h h'
  rcases Nat.lt_trichotomy i j with hlt | rfl | hgt
  · have := stop_le_start hi hj hlt
    omega
  · exact Option.some.inj (hi.symm.trans hj)
  · have := stop_le_start hj hi hgt
    omega

/-- There is nothing below trivia. -/
theorem eq_of_mem_descendants_trivia (htrivia : p.node.isTrivia = true) (h : d ∈ p.descendants) :
    d = p := by
  have hchildren : p.children = [] := by
    unfold children
    cases hnode : p.node with
    | trivia => rfl
    | leaf | skipped | missing | rule | error | root =>
      rw [hnode] at htrivia
      cases htrivia
  rw [descendants_eq, hchildren] at h
  exact List.mem_singleton.mp h

/-! ## The search -/

/-- **The node that a search should come to**: it holds the range, and of what is no trivia only
    nodes above it do so, too. -/
structure Innermost (p : Place) (start stop : Nat) (q : Place) : Prop where
  below : q ∈ p.descendants
  /-- The search starts with any node, but goes into no trivia. -/
  plain : q = p ∨ q.node.isTrivia = false
  holds : q.Holds start stop
  least : ∀ d ∈ p.descendants, d.node.isTrivia = false → d.Holds start stop →
    d = q ∨ d ∈ q.ancestors

/-- Where no child is gone into the node itself is the innermost one. -/
theorem Innermost.here (hrange : start < stop) (hholds : p.Holds start stop)
    (h : p.childCovering? start stop = none) : p.Innermost start stop p := by
  refine ⟨p.self_mem_descendants, .inl rfl, hholds, fun d hd hplain hdholds => ?_⟩
  left
  rcases mem_descendants.mp hd with rfl | ⟨c, hc, hd⟩
  · rfl
  · exfalso
    have hskipped := List.find?_eq_none.mp h c hc
    rw [Bool.and_eq_true, Bool.not_eq_true', covers_iff hrange] at hskipped
    apply hskipped
    refine ⟨?_, hdholds.of_mem_descendants hd⟩
    -- The child is no trivia, or there would be nothing but itself below it.
    by_contra htrivia
    rw [Bool.not_eq_false] at htrivia
    rw [eq_of_mem_descendants_trivia htrivia hd, htrivia] at hplain
    cases hplain

/-- **Going down loses nothing**: the innermost node of the child is that of its parent. -/
theorem Innermost.up (hrange : start < stop) (h : p.childCovering? start stop = some c)
    (hq : c.Innermost start stop q) : p.Innermost start stop q := by
  have hc : c ∈ p.children := List.mem_of_find?_eq_some h
  have hcovering := List.find?_some h
  rw [Bool.and_eq_true, Bool.not_eq_true', covers_iff hrange] at hcovering
  obtain ⟨hplain, hcholds⟩ := hcovering
  have hbelow : q ∈ p.descendants := mem_descendants.mpr (.inr ⟨c, hc, hq.below⟩)
  refine ⟨hbelow, .inr ?_, hq.holds, fun d hd hdplain hdholds => ?_⟩
  · rcases hq.plain with rfl | hplain'
    · exact hplain
    · exact hplain'
  · rcases mem_descendants.mp hd with rfl | ⟨c', hc', hd⟩
    · exact (eq_or_mem_ancestors hbelow).imp Eq.symm id
    · obtain rfl := hcholds.unique hrange hc hc' (hdholds.of_mem_descendants hd)
      exact hq.least d hd hdplain hdholds

theorem innermost_of_none (h : p.childCovering? start stop = none) :
    p.innermost start stop = p := by
  rw [innermost]
  split
  · rfl
  · next hsome => exact absurd (h.symm.trans hsome) (Option.some_ne_none _).symm

theorem innermost_of_some (h : p.childCovering? start stop = some c) :
    p.innermost start stop = c.innermost start stop := by
  rw [innermost]
  split
  · next hnone => exact absurd (hnone.symm.trans h) (Option.some_ne_none _).symm
  · next hsome => rw [Option.some.inj (hsome.symm.trans h)]

/-- **The search comes to the innermost node.** -/
theorem innermost_spec (hrange : start < stop) (p : Place) (hholds : p.Holds start stop) :
    p.Innermost start stop (p.innermost start stop) := by
  induction p using inductionOn with
  | step p ih =>
    cases h : p.childCovering? start stop with
    | none =>
      rw [innermost_of_none h]
      exact .here hrange hholds h
    | some c =>
      have hcovering := List.find?_some h
      rw [Bool.and_eq_true, covers_iff hrange] at hcovering
      rw [innermost_of_some h]
      apply Innermost.up hrange h
      exact ih c (List.mem_of_find?_eq_some h) hcovering.2

/-- **A range is found in the innermost node that holds it.**  Nothing is found exactly if the
    range does not lie in the node that the search starts with.  What is found is that node or a
    descendant of it that is no trivia, it holds the range, and every descendant that is no trivia
    and holds the range is what is found or above it. -/
theorem innermost?_holds (p : Place) (start stop : Nat) (hrange : start < stop) :
    (p.innermost? start stop = none ↔ ¬ (p.start ≤ start ∧ stop ≤ p.stop)) ∧
    ∀ q, p.innermost? start stop = some q →
      (q = p ∨ q ∈ p.descendants ∧ q.node.isTrivia = false) ∧
      (q.start ≤ start ∧ stop ≤ q.stop) ∧
      ∀ d ∈ p.descendants, d.node.isTrivia = false → d.start ≤ start ∧ stop ≤ d.stop →
        d = q ∨ d ∈ q.ancestors := by
  unfold innermost?
  split
  · next hout =>
    rw [Bool.or_eq_true, decide_eq_true_eq, decide_eq_true_eq] at hout
    refine ⟨⟨fun _ hheld => ?_, fun _ => rfl⟩, fun q hq => absurd hq.symm (Option.some_ne_none q)⟩
    omega
  · next hin =>
    rw [Bool.or_eq_true, decide_eq_true_eq, decide_eq_true_eq, not_or, Nat.not_lt,
      Nat.not_lt] at hin
    refine ⟨⟨fun hnone => absurd hnone (Option.some_ne_none _), fun hout => absurd hin hout⟩,
      fun q hq => ?_⟩
    obtain rfl := Option.some.inj hq
    have h := innermost_spec hrange p hin
    exact ⟨h.plain.imp_right fun hplain => ⟨h.below, hplain⟩, h.holds, h.least⟩

/-- **A range in a number** that is two nodes below the start, beside a symbol of no width. -/
theorem innermost?_holds_number : 3 < 4 ∧
    ∃ q, Cursor.belowRoot.innermost? 3 4 = some q ∧ q.node.kind = "number" ∧
      (q.start ≤ 3 ∧ 4 ≤ q.stop) ∧
      ∀ d ∈ Cursor.belowRoot.descendants, d.node.isTrivia = false → d.start ≤ 3 ∧ 4 ≤ d.stop →
        d = q ∨ d ∈ q.ancestors := by
  -- Down from the sum to the term, and from the term to the number.
  have hterm : ∃ c, Cursor.belowRoot.childCovering? 3 4 = some c ∧
      ∃ q, c.childCovering? 3 4 = some q ∧ q.childCovering? 3 4 = none ∧ q.node.kind = "number" :=
    ⟨_, by cbv, _, by cbv, by cbv, by cbv⟩
  obtain ⟨c, hc, q, hq, hnone, hnumber⟩ := hterm
  have hfound : Cursor.belowRoot.innermost? 3 4 = some q := by
    have hin : (3 < Cursor.belowRoot.start || Cursor.belowRoot.stop < 4) = false := by cbv
    unfold innermost?
    rw [hin, innermost_of_some hc, innermost_of_some hq, innermost_of_none hnone]
    rfl
  obtain ⟨-, hholds, hleast⟩ :=
    (innermost?_holds Cursor.belowRoot 3 4 (by decide)).2 q hfound
  exact ⟨by decide, q, hfound, hnumber, hholds, hleast⟩

end Place

end LayeredSyntax
