/-
  TRAILS — the ways down a stack, and the subtrees on them.

  A `Trail` is what can be read off a way: the faces at its two ends and the subtrees in between,
  each fitting the faces next to it.  A `Path` is what can be read off without the subtrees.

  1. Every way that is found is a trail and a path (`trail_of_mem_ways`, `path_of_mem_ways`), and
     every path is found (`exists_way`).
  2. **Putting a subtree on makes only those paths new that begin with the new edge**
     (`path_of_placed`), which is why it is enough to go along those again.
-/
import LayeredSyntax.Proofs.Parse.Stacks

namespace LayeredSyntax

variable {E E' : Face → Face → Label → Prop}

/-- **Subtrees between two faces**, in the order of the text. -/
inductive Trail (E : Face → Face → Label → Prop) : Face → List Label → Face → Prop where
  | nil (f : Face) : Trail E f [] f
  | snoc {bottom below top : Face} {pieces : List Label} {label : Label}
      (h : Trail E bottom pieces below) (hlabel : E top below label) :
      Trail E bottom (pieces ++ [label]) top

theorem Trail.mono (hE : ∀ {above below : Face} {label : Label}, E above below label →
    E' above below label) {bottom top : Face} {pieces : List Label}
    (h : Trail E bottom pieces top) : Trail E' bottom pieces top := by
  induction h with
  | nil => exact .nil _
  | snoc _ hlabel ih => exact ih.snoc (hE hlabel)

/-- The uppermost subtree of a trail. -/
theorem Trail.last {bottom top : Face} {pieces : List Label} {label : Label}
    (h : Trail E bottom (pieces ++ [label]) top) :
    ∃ below, Trail E bottom pieces below ∧ E top below label := by
  generalize hp : pieces ++ [label] = all at h
  cases h with
  | nil => exact absurd hp (List.append_ne_nil_of_right_ne_nil _ (List.cons_ne_nil _ _))
  | @snoc below _ pieces' label' h hlabel =>
    obtain ⟨rfl, heq⟩ := List.append_inj' hp rfl
    cases heq
    exact ⟨below, h, hlabel⟩

/-- Without subtrees there is only one face. -/
theorem Trail.eq_of_nil {bottom top : Face} (h : Trail E bottom [] top) : bottom = top := by
  generalize hnil : ([] : List Label) = pieces at h
  cases h with
  | nil => rfl
  | snoc => exact absurd hnil.symm (List.append_ne_nil_of_right_ne_nil _ (List.cons_ne_nil _ _))

/-- The lowermost subtree of a trail. -/
theorem Trail.first {bottom top : Face} {piece : Label} {rest : List Label}
    (h : Trail E bottom (piece :: rest) top) : ∃ above, E above bottom piece := by
  generalize hall : piece :: rest = all at h
  induction h generalizing rest with
  | nil => cases hall
  | @snoc below top pieces label htrail hlabel ih =>
    cases pieces with
    | nil =>
      obtain ⟨rfl, _⟩ := List.cons.inj hall
      obtain rfl := htrail.eq_of_nil
      exact ⟨top, hlabel⟩
    | cons a pieces =>
      obtain ⟨rfl, _⟩ := List.cons.inj hall
      exact ih rfl

theorem Trail.of_one {bottom top : Face} {label : Label} (h : Trail E bottom [label] top) :
    E top bottom label := by
  have h : Trail E bottom ([] ++ [label]) top := h
  obtain ⟨below, hnil, hlabel⟩ := h.last
  exact hnil.eq_of_nil ▸ hlabel

theorem Trail.of_three {bottom top : Face} {first second third : Label}
    (h : Trail E bottom [first, second, third] top) :
    ∃ low high, E low bottom first ∧ E high low second ∧ E top high third := by
  have h : Trail E bottom ([first, second] ++ [third]) top := h
  obtain ⟨high, h, hthird⟩ := h.last
  have h : Trail E bottom ([first] ++ [second]) high := h
  obtain ⟨low, h, hsecond⟩ := h.last
  exact ⟨low, high, h.of_one, hsecond, hthird⟩

namespace Stack

/-- Whether edges lead down from a node to another one in a number of steps. -/
def Path (s : Stack) (i : Nat) : Nat → Nat → Prop
  | 0, b => i = b
  | n + 1, b => ∃ e ∈ s.edges i, s.Path e.below n b

variable {s : Stack} {base p c i b n bottom target : Nat} {label : Label}

/-! ## Ways -/

theorem mem_ways_succ {above pieces : List Label} : (b, pieces) ∈ s.ways above i (n + 1) ↔
    ∃ e ∈ s.edges i, (b, pieces) ∈ s.ways (e.label :: above) e.below n :=
  List.mem_flatMap

/-- **The subtrees of a way make a trail.** -/
theorem trail_of_mem_ways (hE : s.Edges E) {above pieces : List Label}
    (h : (b, pieces) ∈ s.ways above i n) : ∃ front, pieces = front ++ above ∧ front.length = n ∧
      Trail E (s.face b) front (s.face i) := by
  induction n generalizing above i with
  | zero =>
    cases List.mem_singleton.mp h
    exact ⟨[], rfl, rfl, .nil _⟩
  | succ n ih =>
    obtain ⟨e, he, hmem⟩ := mem_ways_succ.mp h
    obtain ⟨front, rfl, hlen, htrail⟩ := ih hmem
    refine ⟨front ++ [e.label], by simp, by simp [hlen], htrail.snoc (hE i e he)⟩

theorem path_of_mem_ways {above pieces : List Label} (h : (b, pieces) ∈ s.ways above i n) :
    s.Path i n b := by
  induction n generalizing above i with
  | zero =>
    cases List.mem_singleton.mp h
    rfl
  | succ n ih =>
    obtain ⟨e, he, hmem⟩ := mem_ways_succ.mp h
    exact ⟨e, he, ih hmem⟩

/-- Every path is found. -/
theorem exists_way (h : s.Path i n b) (above : List Label) :
    ∃ pieces, (b, pieces) ∈ s.ways above i n := by
  induction n generalizing above i with
  | zero =>
    obtain rfl : i = b := h
    exact ⟨above, List.mem_singleton.mpr rfl⟩
  | succ n ih =>
    obtain ⟨e, he, hpath⟩ := h
    obtain ⟨pieces, hmem⟩ := ih hpath (e.label :: above)
    exact ⟨pieces, mem_ways_succ.mpr ⟨e, he, hmem⟩⟩

/-- The ways through an edge are among all ways. -/
theorem mem_ways_of_mem_waysVia {below : Nat} {pieces : List Label}
    (h : (b, pieces) ∈ s.waysVia i below n) : (b, pieces) ∈ s.ways [] i n := by
  cases n with
  | zero => exact h
  | succ n =>
    unfold waysVia at h
    cases hedge : s.edge? i below with
    | none =>
      rw [hedge] at h
      cases h
    | some e =>
      rw [hedge] at h
      exact mem_ways_succ.mpr ⟨e, (mem_of_edge? hedge).1, h⟩

/-- Every path through an edge is found among the ways through it. -/
theorem exists_wayVia {e : Edge} (he : e ∈ s.edges i) (h : s.Path e.below n b) :
    ∃ pieces, (b, pieces) ∈ s.waysVia i e.below (n + 1) := by
  unfold waysVia
  cases hedge : s.edge? i e.below with
  | none => exact absurd rfl (below_ne_of_edge? hedge he)
  | some e' =>
    dsimp only
    rw [(mem_of_edge? hedge).2]
    exact exists_way h _

/-! ## Where paths lead -/

theorem Fresh.path_le (hs : s.Fresh base p c) (h : s.Path i n b) : b ≤ i := by
  induction n generalizing i with
  | zero => exact Nat.le_of_eq (Eq.symm h)
  | succ n ih =>
    obtain ⟨e, he, hpath⟩ := h
    exact Nat.le_of_lt (Nat.lt_of_le_of_lt (ih hpath) (hs.down i e he).1)

/-- A way down from a head leaves the heads. -/
theorem Fresh.path_lt_base (hs : s.Fresh base p c) (hi : base ≤ i) (h : s.Path i (n + 1) b) :
    b < base := by
  obtain ⟨e, he, hpath⟩ := h
  exact Nat.lt_of_le_of_lt (hs.path_le hpath) ((hs.down i e he).2 hi)

/-- No path is lost. -/
theorem Path.kept {s' : Stack} (hkept : Kept base s s') (h : s.Path i n b) : s'.Path i n b := by
  induction n generalizing i with
  | zero => exact h
  | succ n ih =>
    obtain ⟨e, he, hpath⟩ := h
    obtain ⟨e', he', hbelow⟩ := hkept.edges i e he
    exact ⟨e', he', hbelow ▸ ih hpath⟩

/-- Among nodes that stay the same no path is new. -/
theorem path_of_node_eq {s' : Stack} {bound : Nat} (hnode : ∀ i < bound, s'.node i = s.node i)
    (hdown : ∀ i e, e ∈ s.edges i → e.below < i) (hi : i < bound) (h : s'.Path i n b) :
    s.Path i n b := by
  induction n generalizing i with
  | zero => exact h
  | succ n ih =>
    obtain ⟨e, he, hpath⟩ := h
    have he' : e ∈ s.edges i := by
      unfold edges at he ⊢
      rwa [hnode i hi] at he
    exact ⟨e, he', ih (Nat.lt_trans (hdown i e he') hi) hpath⟩

/-- Below the heads no path is new. -/
theorem Fresh.path_of_kept {s' : Stack} (hs : s.Fresh base p c) (hkept : Kept base s s')
    (hi : i < base) (h : s'.Path i n b) : s.Path i n b :=
  path_of_node_eq hkept.node (fun i e he => (hs.down i e he).1) hi h

/-- Paths one behind the other. -/
theorem Path.trans {m k : Nat} (h : s.Path i n k) (h' : s.Path k m b) : s.Path i (n + m) b := by
  induction n generalizing i with
  | zero =>
    obtain rfl : i = k := h
    rwa [Nat.zero_add]
  | succ n ih =>
    obtain ⟨e, he, hpath⟩ := h
    rw [Nat.succ_add]
    exact ⟨e, he, ih hpath⟩

/-- **A new path from a head begins with the new edge.** -/
theorem Fresh.path_of_placed (hs : s.Fresh base p c) (hbottom : bottom < base)
    (hstop : label.stop = c) (hi : base ≤ i)
    (h : (s.placed p bottom target label).Path i (n + 1) b) :
    s.Path i (n + 1) b ∨
      ((s.placed p bottom target label).face i = ⟨target, p, c⟩ ∧ s.Path bottom n b) := by
  obtain ⟨e, he, hpath⟩ := h
  have hkept := hs.kept_placed bottom target label
  rcases hs.mem_edges_placed hstop he with he' | ⟨rfl, _, hface⟩
  · exact .inl ⟨e, he', hs.path_of_kept hkept ((hs.down i e he').2 hi) hpath⟩
  · exact .inr ⟨hface, hs.path_of_kept hkept hbottom hpath⟩

end Stack

end LayeredSyntax
