/-
  SHARED STACKS — what a parse may change of them, and what it never changes.

  State, position and cover of a node are its FACE, and a face never changes.  Nodes are only put on
  top, and only the nodes on top get new edges.  A stack is `Fresh` over a number when the nodes
  from that number on are just the heads: at one position, covered equally far, in different states,
  with all their edges to older nodes.

  The one change that a parse makes, over and over, is to put a subtree between a node and the head
  in a state (`Stack.placed`): on a new head, on a new edge, or in the place of another subtree.

  **The crux**: a subtree is always put on a node below the fresh ones.  So a new edge leads out of
  the fresh part at once, and whatever lies below it stays as it was (`node_placed_of_lt`).
-/
import LayeredSyntax.Parse.Reduce

namespace LayeredSyntax

/-- What never changes of a stack node. -/
structure Face where
  state : Nat
  position : Nat
  covered : Nat
deriving DecidableEq

/-- The face of a stack node. -/
def StackNode.face (n : StackNode) : Face := ⟨n.state, n.position, n.covered⟩

namespace Stack

/-- The face of the node of a number. -/
def face (s : Stack) (i : Nat) : Face := (s.node i).face

/-- The edges of the node of a number. -/
def edges (s : Stack) (i : Nat) : List Edge := (s.node i).edges

/-- Put a subtree between a node and the head in a state. -/
def placed (s : Stack) (p bottom target : Nat) (label : Label) : Stack :=
  match s.headIn? target with
  | none => s.push ⟨target, p, label.stop, [⟨bottom, label⟩]⟩
  | some head =>
    match s.edge? head bottom with
    | some e => if ParseJob.winsOver label e.label then s.relabel head bottom label else s
    | none => s.addEdge head ⟨bottom, label⟩

/-- **The nodes from a number on are the heads**, and no others. -/
structure Fresh (base p c : Nat) (s : Stack) : Prop where
  base_le : base ≤ s.nodes.size
  heads : s.heads = List.range' base (s.nodes.size - base)
  top : ∀ i, base ≤ i → i < s.nodes.size → (s.face i).position = p ∧ (s.face i).covered = c
  inj : ∀ i k, base ≤ i → i < s.nodes.size → base ≤ k → k < s.nodes.size →
    (s.face i).state = (s.face k).state → i = k
  /-- Edges lead down, and from the heads to older nodes. -/
  down : ∀ i e, e ∈ s.edges i → e.below < i ∧ (base ≤ i → e.below < base)
  /-- The heads are found by their states. -/
  index : ∀ state i, s.headIn? state = some i ↔
    base ≤ i ∧ i < s.nodes.size ∧ (s.face i).state = state

/-- **Heads at one position, covered equally far**, and edges that lead down: what is left of a
    fresh stack when other nodes have been put beside its heads. -/
structure Standing (p c : Nat) (s : Stack) : Prop where
  heads : ∀ i ∈ s.heads, i < s.nodes.size ∧ (s.face i).position = p ∧ (s.face i).covered = c
  down : ∀ i e, e ∈ s.edges i → e.below < i

/-- What holds of the subtree of every edge, by the faces of its two ends. -/
def Edges (E : Face → Face → Label → Prop) (s : Stack) : Prop :=
  ∀ i e, e ∈ s.edges i → E (s.face i) (s.face e.below) e.label

/-- Whether a head with a face has an edge to a node. -/
def Joined (s : Stack) (base : Nat) (f : Face) (b : Nat) : Prop :=
  ∃ i, base ≤ i ∧ i < s.nodes.size ∧ s.face i = f ∧ ∃ e ∈ s.edges i, e.below = b

/-- Whether a head with a face has an edge to a node, with a subtree that no subtree of a production
    wins over. -/
def Decided (s : Stack) (base : Nat) (f : Face) (b q : Nat) : Prop :=
  ∃ i, base ≤ i ∧ i < s.nodes.size ∧ s.face i = f ∧ ∃ e, s.edge? i b = some e ∧
    ∀ a, e.label.node.production? = some a → a ≤ q

/-- **What a stack keeps when its heads are worked on**: all nodes below them, and of the heads
    their faces and where their edges lead.  New nodes have edges. -/
structure Kept (base : Nat) (s s' : Stack) : Prop where
  size_le : s.nodes.size ≤ s'.nodes.size
  node : ∀ i < base, s'.node i = s.node i
  face : ∀ i < s.nodes.size, s'.face i = s.face i
  edges : ∀ i e, e ∈ s.edges i → ∃ e' ∈ s'.edges i, e'.below = e.below
  new : ∀ i, s.nodes.size ≤ i → i < s'.nodes.size → s'.edges i ≠ []

theorem Kept.refl (base : Nat) (s : Stack) : Kept base s s :=
  ⟨Nat.le_refl _, fun _ _ => rfl, fun _ _ => rfl, fun _ e he => ⟨e, he, rfl⟩,
    fun _ hi hlt => absurd hlt (Nat.not_lt.mpr hi)⟩

/-- A node that has edges goes on having some. -/
theorem Kept.edges_ne_nil {base i : Nat} {s s' : Stack} (h : Kept base s s')
    (hne : s.edges i ≠ []) : s'.edges i ≠ [] := by
  obtain ⟨e, rest, hedges⟩ := List.exists_cons_of_ne_nil hne
  obtain ⟨e', he', _⟩ := h.edges i e (by rw [hedges]; exact List.mem_cons_self)
  exact List.ne_nil_of_mem he'

theorem Kept.trans {base : Nat} {s s' s'' : Stack} (h : Kept base s s') (h' : Kept base s' s'') :
    Kept base s s'' := by
  refine ⟨Nat.le_trans h.size_le h'.size_le, fun i hi => (h'.node i hi).trans (h.node i hi),
    fun i hi => (h'.face i (Nat.lt_of_lt_of_le hi h.size_le)).trans (h.face i hi),
    fun i e he => ?_, fun i hi hlt => ?_⟩
  · obtain ⟨e', he', hbelow⟩ := h.edges i e he
    obtain ⟨e'', he'', hbelow'⟩ := h'.edges i e' he'
    exact ⟨e'', he'', hbelow'.trans hbelow⟩
  · rcases Nat.lt_or_ge i s'.nodes.size with hlt' | hge
    · exact h'.edges_ne_nil (h.new i hi hlt')
    · exact h'.new i hge hlt

/-- A head that has an edge to a node goes on having one. -/
theorem Joined.kept {base first b : Nat} {f : Face} {s s' : Stack} (h : s.Joined base f b)
    (hkept : Kept first s s') : s'.Joined base f b := by
  obtain ⟨i, hi, hlt, hface, e, he, hbelow⟩ := h
  obtain ⟨e', he', hbelow'⟩ := hkept.edges i e he
  exact ⟨i, hi, Nat.lt_of_lt_of_le hlt hkept.size_le, (hkept.face i hlt).trans hface, e', he',
    hbelow'.trans hbelow⟩

variable {s : Stack} {i k : Nat} {e : Edge}

/-! ## Nodes -/

theorem node_of_size_le (h : s.nodes.size ≤ i) : s.node i = default := by
  unfold node
  rw [Array.getElem?_eq_none h]
  rfl

/-- A node that has edges is there. -/
theorem lt_of_mem_edges (h : e ∈ s.edges i) : i < s.nodes.size := by
  rcases Nat.lt_or_ge i s.nodes.size with hi | hi
  · exact hi
  · unfold edges at h
    rw [node_of_size_le hi] at h
    cases h

theorem node_push_of_ne {n : StackNode} (h : i ≠ s.nodes.size) : (s.push n).node i = s.node i := by
  show ((s.nodes.push n)[i]?).getD default = _
  rw [Array.getElem?_push, if_neg h]
  rfl

theorem node_push_self (s : Stack) (n : StackNode) : (s.push n).node s.nodes.size = n := by
  show ((s.nodes.push n)[s.nodes.size]?).getD default = _
  rw [Array.getElem?_push_size]
  rfl

theorem size_push (s : Stack) (n : StackNode) : (s.push n).nodes.size = s.nodes.size + 1 :=
  Array.size_push _

theorem state_push_self (s : Stack) (n : StackNode) :
    (s.push n).state s.nodes.size = n.state := congrArg StackNode.state (s.node_push_self n)

theorem edges_push_self (s : Stack) (n : StackNode) :
    (s.push n).edges s.nodes.size = n.edges := congrArg StackNode.edges (s.node_push_self n)

theorem face_push_self (s : Stack) (n : StackNode) :
    (s.push n).face s.nodes.size = n.face := congrArg StackNode.face (s.node_push_self n)

theorem edges_push (s : Stack) (n : StackNode) (i : Nat) :
    (s.push n).edges i = if i = s.nodes.size then n.edges else s.edges i := by
  split
  · next h => rw [h, edges_push_self]
  · next h => exact congrArg StackNode.edges (node_push_of_ne h)

theorem face_push_of_lt {n : StackNode} (h : i < s.nodes.size) : (s.push n).face i = s.face i :=
  congrArg StackNode.face (node_push_of_ne (Nat.ne_of_lt h))

theorem face_pushOnly_of_lt {n : StackNode} (h : i < s.nodes.size) :
    (s.pushOnly n).face i = s.face i := face_push_of_lt (n := n) h

/-- Changing one node. -/
theorem node_modify (s : Stack) (i k : Nat) (f : StackNode → StackNode) :
    ({ s with nodes := s.nodes.modify i f } : Stack).node k =
      if k = i ∧ i < s.nodes.size then f (s.node k) else s.node k := by
  show ((s.nodes.modify i f)[k]?).getD default = _
  unfold node
  rw [Array.getElem?_modify]
  by_cases hki : i = k
  · subst hki
    rw [if_pos rfl]
    rcases Nat.lt_or_ge i s.nodes.size with hi | hi
    · rw [if_pos ⟨rfl, hi⟩, Array.getElem?_eq_getElem hi]
      rfl
    · rw [if_neg (fun h => Nat.not_lt.mpr hi h.2), Array.getElem?_eq_none hi]
      rfl
  · rw [if_neg hki, if_neg (fun h => hki h.1.symm)]

theorem face_addEdge (s : Stack) (i k : Nat) (e : Edge) : (s.addEdge i e).face k = s.face k := by
  unfold face addEdge
  rw [node_modify]
  split <;> rfl

theorem face_relabel (s : Stack) (i k below : Nat) (label : Label) :
    (s.relabel i below label).face k = s.face k := by
  unfold face relabel
  rw [node_modify]
  split <;> rfl

theorem edges_addEdge (s : Stack) (i k : Nat) (e : Edge) : (s.addEdge i e).edges k =
    if k = i ∧ i < s.nodes.size then s.edges k ++ [e] else s.edges k := by
  unfold edges addEdge
  rw [node_modify]
  split <;> rfl

theorem edges_relabel (s : Stack) (i k below : Nat) (label : Label) :
    (s.relabel i below label).edges k = if k = i ∧ i < s.nodes.size then
      (s.edges k).map fun e => if e.below = below then { e with label } else e
    else s.edges k := by
  unfold edges relabel
  rw [node_modify]
  split <;> rfl

theorem size_addEdge (s : Stack) (i : Nat) (e : Edge) :
    (s.addEdge i e).nodes.size = s.nodes.size := Array.size_modify

theorem size_relabel (s : Stack) (i below : Nat) (label : Label) :
    (s.relabel i below label).nodes.size = s.nodes.size := Array.size_modify

/-! ## Heads -/

theorem lookup_cons_eq (state target i : Nat) (rest : List (Nat × Nat)) :
    ((target, i) :: rest).lookup state = if state = target then some i else rest.lookup state := by
  rw [List.lookup_cons]
  split
  · next h => rw [if_pos (eq_of_beq h)]
  · next h => rw [if_neg (ne_of_beq_false h)]

/-- The new head is found in its state, and in the other states what was found there before. -/
theorem headIn?_push (s : Stack) (n : StackNode) (x : Nat) : (s.push n).headIn? x =
    if x = n.state then some s.nodes.size else s.headIn? x := lookup_cons_eq ..

variable {base p c bottom target : Nat} {label : Label}

theorem Fresh.mem_heads (h : s.Fresh base p c) : i ∈ s.heads ↔ base ≤ i ∧ i < s.nodes.size := by
  rw [h.heads, List.mem_range'_1]
  have := h.base_le
  omega

theorem Fresh.standing (h : s.Fresh base p c) : s.Standing p c := by
  refine ⟨fun i hi => ?_, fun i e he => (h.down i e he).1⟩
  obtain ⟨hbase, hlt⟩ := h.mem_heads.mp hi
  exact ⟨hlt, h.top i hbase hlt⟩

/-- The head that is found in a state is a head in that state. -/
theorem Fresh.of_headIn? (h : s.Fresh base p c) (hi : s.headIn? target = some i) :
    base ≤ i ∧ i < s.nodes.size ∧ s.face i = ⟨target, p, c⟩ := by
  obtain ⟨hbase, hlt, hstate⟩ := (h.index target i).mp hi
  obtain ⟨hp, hc⟩ := h.top i hbase hlt
  refine ⟨hbase, hlt, ?_⟩
  rw [← hstate, ← hp, ← hc]

/-- Where no head is found in a state, none is in it. -/
theorem Fresh.state_ne (h : s.Fresh base p c) (hnone : s.headIn? target = none)
    (hbase : base ≤ i) (hlt : i < s.nodes.size) : (s.face i).state ≠ target := by
  intro heq
  have hsome := (h.index target i).mpr ⟨hbase, hlt, heq⟩
  rw [hnone] at hsome
  cases hsome

theorem mem_of_edge? (h : s.edge? i k = some e) : e ∈ s.edges i ∧ e.below = k := by
  have hfound : (e.below == k) = true := by simpa using List.find?_some h
  exact ⟨List.mem_of_find?_eq_some h, eq_of_beq hfound⟩

theorem below_ne_of_edge? (h : s.edge? i k = none) (he : e ∈ s.edges i) : e.below ≠ k := by
  have hno := List.find?_eq_none.mp h e he
  intro heq
  exact hno (beq_iff_eq.mpr heq)

/-- Where there is an edge, its head has been joined to the node. -/
theorem Decided.joined {base b q : Nat} {f : Face} (h : s.Decided base f b q) :
    s.Joined base f b := by
  obtain ⟨i, hi, hlt, hface, e, he, _⟩ := h
  exact ⟨i, hi, hlt, hface, e, mem_of_edge? he⟩

/-! ## Putting a subtree on -/

/-- A subtree wins over another one if its production was declared in front of the other's. -/
theorem winsOver_iff {new old : Label} : ParseJob.winsOver new old = true ↔
    ∃ a b, new.node.production? = some a ∧ old.node.production? = some b ∧ a < b := by
  unfold ParseJob.winsOver
  cases new.node.production? with
  | none => simp
  | some a =>
    cases old.node.production? with
    | none => simp
    | some b => simp

/-- **The three ways of putting a subtree on.** -/
theorem placed_cases (s : Stack) (p bottom target : Nat) (label : Label) :
    (s.headIn? target = none ∧
      s.placed p bottom target label = s.push ⟨target, p, label.stop, [⟨bottom, label⟩]⟩) ∨
    (∃ head, s.headIn? target = some head ∧ s.edge? head bottom = none ∧
      s.placed p bottom target label = s.addEdge head ⟨bottom, label⟩) ∨
    (∃ head e, s.headIn? target = some head ∧ s.edge? head bottom = some e ∧
      (s.placed p bottom target label = s ∨
        s.placed p bottom target label = s.relabel head bottom label)) := by
  unfold placed
  split
  · next h => exact .inl ⟨h, rfl⟩
  · next head h =>
    split
    · next e he =>
      refine .inr (.inr ⟨head, e, h, he, ?_⟩)
      split
      · exact .inr rfl
      · exact .inl rfl
    · next he => exact .inr (.inl ⟨head, h, he, rfl⟩)

/-- Where no head is in the state, there is a new one. -/
theorem placed_eq_push (p : Nat) (label : Label) (hhead : s.headIn? target = none) :
    s.placed p bottom target label = s.push ⟨target, p, label.stop, [⟨bottom, label⟩]⟩ := by
  unfold placed
  rw [hhead]

/-- Where there is no edge, there is a new one. -/
theorem placed_eq_addEdge (p : Nat) (label : Label) {head : Nat}
    (hhead : s.headIn? target = some head) (hedge : s.edge? head bottom = none) :
    s.placed p bottom target label = s.addEdge head ⟨bottom, label⟩ := by
  unfold placed
  rw [hhead]
  dsimp only
  rw [hedge]

/-- Where there is an edge, the subtree that wins is on it. -/
theorem placed_of_edge? (p : Nat) (label : Label) {head : Nat}
    (hhead : s.headIn? target = some head) (hedge : s.edge? head bottom = some e) :
    s.placed p bottom target label =
      if ParseJob.winsOver label e.label then s.relabel head bottom label else s := by
  unfold placed
  rw [hhead]
  dsimp only
  rw [hedge]

theorem size_le_placed (s : Stack) (p bottom target : Nat) (label : Label) :
    s.nodes.size ≤ (s.placed p bottom target label).nodes.size := by
  rcases placed_cases s p bottom target label with ⟨_, h⟩ | ⟨head, _, _, h⟩ | ⟨head, e, _, _, h | h⟩
  · rw [h, size_push]
    exact Nat.le_succ _
  · exact Nat.le_of_eq (by rw [h, size_addEdge])
  · exact Nat.le_of_eq (by rw [h])
  · exact Nat.le_of_eq (by rw [h, size_relabel])

/-- **Faces never change.** -/
theorem face_placed (hi : i < s.nodes.size) :
    (s.placed p bottom target label).face i = s.face i := by
  rcases placed_cases s p bottom target label with ⟨_, h⟩ | ⟨head, _, _, h⟩ | ⟨head, e, _, _, h | h⟩
  · rw [h, face_push_of_lt hi]
  · rw [h, face_addEdge]
  · rw [h]
  · rw [h, face_relabel]

/-- Below the heads nothing changes. -/
theorem Fresh.node_placed_of_lt (hs : s.Fresh base p c) (hi : i < base) :
    (s.placed p bottom target label).node i = s.node i := by
  rcases placed_cases s p bottom target label with
    ⟨_, h⟩ | ⟨head, hhead, _, h⟩ | ⟨head, e, hhead, _, h | h⟩
  · rw [h]
    exact node_push_of_ne (by have := hs.base_le; omega)
  · rw [h]
    refine (node_modify s head i _).trans (if_neg fun hk => ?_)
    have := (hs.of_headIn? hhead).1
    omega
  · rw [h]
  · rw [h]
    refine (node_modify s head i _).trans (if_neg fun hk => ?_)
    have := (hs.of_headIn? hhead).1
    omega

/-- An edge was there before, or it is the one that was put on. -/
theorem Fresh.mem_edges_placed (hs : s.Fresh base p c) (hstop : label.stop = c)
    (he : e ∈ (s.placed p bottom target label).edges i) :
    e ∈ s.edges i ∨ (e = ⟨bottom, label⟩ ∧ base ≤ i ∧
      (s.placed p bottom target label).face i = ⟨target, p, c⟩) := by
  rcases placed_cases s p bottom target label with
    ⟨_, h⟩ | ⟨head, hhead, _, h⟩ | ⟨head, e', hhead, _, h | h⟩
  · -- A new head has the one edge.
    rw [h] at he ⊢
    rw [edges_push] at he
    split at he
    · next hi =>
      refine .inr ⟨List.mem_singleton.mp he, hi ▸ hs.base_le, ?_⟩
      rw [hi, face_push_self, ← hstop]
      rfl
    · exact .inl he
  · -- A new edge comes behind the others of its head.
    rw [h] at he ⊢
    rw [edges_addEdge] at he
    split at he
    · next hi =>
      obtain ⟨rfl, _⟩ := hi
      rcases List.mem_append.mp he with he | he
      · exact .inl he
      · obtain ⟨hbase, _, hface⟩ := hs.of_headIn? hhead
        exact .inr ⟨List.mem_singleton.mp he, hbase, (face_addEdge _ _ _ _).trans hface⟩
    · exact .inl he
  · rw [h] at he
    exact .inl he
  · -- The subtree of an edge was replaced.
    rw [h] at he ⊢
    rw [edges_relabel] at he
    split at he
    · next hi =>
      obtain ⟨rfl, _⟩ := hi
      obtain ⟨e₀, he₀, rfl⟩ := List.mem_map.mp he
      split
      · next hbelow =>
        obtain ⟨hbase, _, hface⟩ := hs.of_headIn? hhead
        refine .inr ⟨?_, hbase, (face_relabel _ _ _ _ _).trans hface⟩
        rw [hbelow]
      · exact .inl he₀
    · exact .inl he

/-- No edge is lost. -/
theorem exists_edge_placed (p bottom target : Nat) (label : Label) (he : e ∈ s.edges i) :
    ∃ e' ∈ (s.placed p bottom target label).edges i, e'.below = e.below := by
  have hi := lt_of_mem_edges he
  rcases placed_cases s p bottom target label with
    ⟨_, h⟩ | ⟨head, _, _, h⟩ | ⟨head, e', _, _, h | h⟩
  · refine ⟨e, ?_, rfl⟩
    rw [h, edges_push, if_neg (Nat.ne_of_lt hi)]
    exact he
  · refine ⟨e, ?_, rfl⟩
    rw [h, edges_addEdge]
    split
    · exact List.mem_append_left _ he
    · exact he
  · rw [h]
    exact ⟨e, he, rfl⟩
  · rw [h, edges_relabel]
    split
    · refine ⟨_, List.mem_map_of_mem he, ?_⟩
      split <;> rfl
    · exact ⟨e, he, rfl⟩

/-- **Then the head in the state has an edge to the node.** -/
theorem Fresh.joined_placed (hs : s.Fresh base p c) (hstop : label.stop = c) :
    (s.placed p bottom target label).Joined base ⟨target, p, c⟩ bottom := by
  rcases placed_cases s p bottom target label with
    ⟨_, h⟩ | ⟨head, hhead, _, h⟩ | ⟨head, e, hhead, he, h | h⟩
  · rw [h]
    refine ⟨s.nodes.size, hs.base_le, by rw [size_push]; exact Nat.lt_succ_self _, ?_,
      ⟨bottom, label⟩, ?_, rfl⟩
    · rw [face_push_self, ← hstop]
      rfl
    · rw [edges_push_self]
      exact List.mem_cons_self
  · obtain ⟨hbase, hlt, hface⟩ := hs.of_headIn? hhead
    rw [h]
    refine ⟨head, hbase, by rwa [size_addEdge], (face_addEdge _ _ _ _).trans hface,
      ⟨bottom, label⟩, ?_, rfl⟩
    rw [edges_addEdge, if_pos ⟨rfl, hlt⟩]
    exact List.mem_append_right _ List.mem_cons_self
  · obtain ⟨hbase, hlt, hface⟩ := hs.of_headIn? hhead
    rw [h]
    exact ⟨head, hbase, hlt, hface, e, mem_of_edge? he⟩
  · obtain ⟨hbase, hlt, hface⟩ := hs.of_headIn? hhead
    obtain ⟨he, hbelow⟩ := mem_of_edge? he
    rw [h]
    refine ⟨head, hbase, by rwa [size_relabel], (face_relabel _ _ _ _ _).trans hface, ?_⟩
    rw [edges_relabel, if_pos ⟨rfl, hlt⟩]
    refine ⟨_, List.mem_map_of_mem he, ?_⟩
    rw [if_pos hbelow]
    exact hbelow

theorem edge?_addEdge_of_none (hlt : i < s.nodes.size) (hnone : s.edge? i k = none)
    (label : Label) : (s.addEdge i ⟨k, label⟩).edge? i k = some ⟨k, label⟩ := by
  show ((s.addEdge i ⟨k, label⟩).edges i).find? _ = _
  have hold : (s.edges i).find? (·.below == k) = none := hnone
  rw [edges_addEdge, if_pos ⟨rfl, hlt⟩, List.find?_append, hold, Option.none_or]
  exact List.find?_cons_of_pos (beq_self_eq_true k)

theorem edge?_relabel (i k m below : Nat) (label : Label) : (s.relabel i below label).edge? k m =
    if k = i ∧ i < s.nodes.size then
      (s.edge? k m).map fun e => if e.below = below then { e with label } else e
    else s.edge? k m := by
  show ((s.relabel i below label).edges k).find? _ = _
  rw [edges_relabel]
  split
  · rw [List.find?_map]
    congr 2
    funext e
    show ((if e.below = below then { e with label } else e).below == m) = _
    split <;> rfl
  · rfl

/-- **An edge that is found goes on being found**, with its subtree or with one that wins over
    it. -/
theorem exists_edge?_placed (p bottom target : Nat) (label : Label) (h : s.edge? i k = some e) :
    ∃ e', (s.placed p bottom target label).edge? i k = some e' ∧
      (e'.label = e.label ∨ e'.label = label ∧ ParseJob.winsOver label e.label = true) := by
  obtain ⟨he, hbelow⟩ := mem_of_edge? h
  rcases placed_cases s p bottom target label with
    ⟨_, hplaced⟩ | ⟨head, _, _, hplaced⟩ | ⟨head, e₁, hhead, hedge, _⟩
  · refine ⟨e, ?_, .inl rfl⟩
    rw [hplaced]
    unfold edge?
    rw [node_push_of_ne (Nat.ne_of_lt (lt_of_mem_edges he))]
    exact h
  · refine ⟨e, ?_, .inl rfl⟩
    rw [hplaced]
    show ((s.addEdge head _).edges i).find? _ = _
    have hold : (s.edges i).find? (·.below == k) = some e := h
    rw [edges_addEdge]
    split
    · rw [List.find?_append, hold, Option.some_or]
    · exact hold
  · rw [placed_of_edge? p label hhead hedge]
    by_cases hwins : ParseJob.winsOver label e₁.label = true
    · rw [if_pos hwins, edge?_relabel, h]
      split
      · next hi =>
        refine ⟨_, rfl, ?_⟩
        dsimp only
        split
        · -- It is the edge whose subtree is replaced.
          next hbottom =>
          obtain rfl : e = e₁ := by
            refine Option.some.inj (h.symm.trans ?_)
            rw [← hbelow, hbottom, hi.1]
            exact hedge
          exact .inr ⟨rfl, hwins⟩
        · exact .inl rfl
      · exact ⟨e, rfl, .inl rfl⟩
    · rw [if_neg hwins]
      exact ⟨e, h, .inl rfl⟩

/-- What has been decided stays decided. -/
theorem Decided.placed {b q : Nat} {f : Face} (h : s.Decided base f b q) (p bottom target : Nat)
    (label : Label) : (s.placed p bottom target label).Decided base f b q := by
  obtain ⟨i, hi, hlt, hface, e, he, hle⟩ := h
  obtain ⟨e', he', hlabel⟩ := exists_edge?_placed p bottom target label he
  refine ⟨i, hi, Nat.lt_of_lt_of_le hlt (size_le_placed _ _ _ _ _), (face_placed hlt).trans hface,
    e', he', fun a ha => ?_⟩
  rcases hlabel with hsame | ⟨hnew, hwins⟩
  · exact hle a (hsame ▸ ha)
  · obtain ⟨a', b, ha', hb, hlt⟩ := winsOver_iff.mp hwins
    rw [hnew, ha'] at ha
    obtain rfl := Option.some.inj ha
    exact Nat.le_of_lt (Nat.lt_of_lt_of_le hlt (hle b hb))

/-- **Putting the subtree of a production on decides between it and what was there.** -/
theorem Fresh.decided_placed (hs : s.Fresh base p c) (hstop : label.stop = c) {q : Nat}
    (hq : label.node.production? = some q) :
    (s.placed p bottom target label).Decided base ⟨target, p, c⟩ bottom q := by
  have hle : ∀ a, label.node.production? = some a → a ≤ q := by
    intro a ha
    exact Nat.le_of_eq (Option.some.inj (ha.symm.trans hq))
  rcases placed_cases s p bottom target label with
    ⟨_, h⟩ | ⟨head, hhead, hnone, h⟩ | ⟨head, e, hhead, he, _⟩
  · rw [h]
    refine ⟨s.nodes.size, hs.base_le, by rw [size_push]; exact Nat.lt_succ_self _, ?_,
      ⟨bottom, label⟩, ?_, hle⟩
    · rw [face_push_self, ← hstop]
      rfl
    · unfold edge?
      rw [node_push_self]
      exact List.find?_cons_of_pos (beq_self_eq_true bottom)
  · obtain ⟨hbase, hlt, hface⟩ := hs.of_headIn? hhead
    rw [h]
    exact ⟨head, hbase, by rwa [size_addEdge], (face_addEdge _ _ _ _).trans hface, _,
      edge?_addEdge_of_none hlt hnone label, hle⟩
  · obtain ⟨hbase, hlt, hface⟩ := hs.of_headIn? hhead
    rw [placed_of_edge? p label hhead he]
    by_cases hwins : ParseJob.winsOver label e.label = true
    · rw [if_pos hwins]
      refine ⟨head, hbase, by rwa [size_relabel], (face_relabel _ _ _ _ _).trans hface,
        ⟨e.below, label⟩, ?_, hle⟩
      rw [edge?_relabel, if_pos ⟨rfl, hlt⟩, he, Option.map_some, if_pos (mem_of_edge? he).2]
    · rw [if_neg hwins]
      refine ⟨head, hbase, hlt, hface, e, he, fun a ha => ?_⟩
      -- The subtree that is there was not won over.
      refine Nat.le_of_not_lt fun hlt => hwins ?_
      exact winsOver_iff.mpr ⟨q, a, hq, ha, hlt⟩

/-- A new node has an edge. -/
theorem edges_ne_nil_placed (hi : s.nodes.size ≤ i)
    (hlt : i < (s.placed p bottom target label).nodes.size) :
    (s.placed p bottom target label).edges i ≠ [] := by
  rcases placed_cases s p bottom target label with ⟨_, h⟩ | ⟨head, _, _, h⟩ | ⟨head, e, _, _, h | h⟩
  · rw [h] at hlt ⊢
    rw [size_push] at hlt
    obtain rfl : i = s.nodes.size := by omega
    rw [edges_push_self]
    exact List.cons_ne_nil _ _
  · rw [h, size_addEdge] at hlt
    exact absurd hlt (Nat.not_lt.mpr hi)
  · rw [h] at hlt
    exact absurd hlt (Nat.not_lt.mpr hi)
  · rw [h, size_relabel] at hlt
    exact absurd hlt (Nat.not_lt.mpr hi)

theorem Fresh.kept_placed (hs : s.Fresh base p c) (bottom target : Nat) (label : Label) :
    Kept base s (s.placed p bottom target label) :=
  ⟨size_le_placed _ _ _ _ _, fun _ hi => hs.node_placed_of_lt hi, fun _ hi => face_placed hi,
    fun _ _ he => exists_edge_placed p bottom target label he, fun _ => edges_ne_nil_placed⟩

/-- Where no head is in the state, a new one is put on top. -/
theorem placed_of_none (hnone : s.headIn? target = none) (hstop : label.stop = c) :
    (s.placed p bottom target label).nodes.size = s.nodes.size + 1 ∧
      ((s.placed p bottom target label).heads = s.heads ++ [s.nodes.size] ∧
        (s.placed p bottom target label).byState = (target, s.nodes.size) :: s.byState) ∧
      (s.placed p bottom target label).face s.nodes.size = ⟨target, p, c⟩ := by
  rw [placed_eq_push p label hnone]
  refine ⟨size_push _ _, ⟨rfl, rfl⟩, ?_⟩
  rw [face_push_self, ← hstop]
  rfl

/-- Where a head is in the state, there are no new nodes. -/
theorem placed_of_some {head : Nat} (hhead : s.headIn? target = some head) :
    (s.placed p bottom target label).nodes.size = s.nodes.size ∧
      (s.placed p bottom target label).heads = s.heads ∧
      (s.placed p bottom target label).byState = s.byState := by
  rcases placed_cases s p bottom target label with
    ⟨hnone, _⟩ | ⟨_, _, _, h⟩ | ⟨_, _, _, _, h | h⟩
  · rw [hnone] at hhead
    cases hhead
  · rw [h]
    exact ⟨size_addEdge _ _ _, rfl, rfl⟩
  · rw [h]
    exact ⟨rfl, rfl, rfl⟩
  · rw [h]
    exact ⟨size_relabel _ _ _ _, rfl, rfl⟩

/-- A stack stays fresh when edges to older nodes come and go. -/
theorem Fresh.of_faces {s' : Stack} (hs : s.Fresh base p c) (hsize : s'.nodes.size = s.nodes.size)
    (hheads : s'.heads = s.heads) (hindex : s'.byState = s.byState)
    (hface : ∀ i < s.nodes.size, s'.face i = s.face i)
    (hdown : ∀ i e, e ∈ s'.edges i → e.below < i ∧ (base ≤ i → e.below < base)) :
    s'.Fresh base p c := by
  refine ⟨hsize ▸ hs.base_le, by rw [hheads, hsize]; exact hs.heads, fun i hi hlt => ?_,
    fun i k hi hilt hk hklt => ?_, hdown, fun state i => ?_⟩
  · rw [hsize] at hlt
    rw [hface i hlt]
    exact hs.top i hi hlt
  · rw [hsize] at hilt hklt
    rw [hface i hilt, hface k hklt]
    exact hs.inj i k hi hilt hk hklt
  · have hold := hs.index state i
    unfold headIn? at hold ⊢
    rw [hindex, hsize, hold]
    refine and_congr_right fun _ => and_congr_right fun hlt => ?_
    rw [hface i hlt]

/-- **A new head in a state in which no other head is** keeps the stack fresh. -/
theorem Fresh.push {n : StackNode} (hs : s.Fresh base p c) (hnone : s.headIn? n.state = none)
    (hposition : n.position = p) (hcovered : n.covered = c)
    (hn : ∀ e ∈ n.edges, e.below < base) : (s.push n).Fresh base p c := by
  have hbase := hs.base_le
  have hstate := fun i => hs.state_ne (i := i) hnone
  -- A node is an old one or the new head.
  have hcases : ∀ {i}, i < (s.push n).nodes.size →
      (i < s.nodes.size ∧ (s.push n).face i = s.face i) ∨
        (i = s.nodes.size ∧ (s.push n).face i = n.face) := by
    intro i hi
    rw [size_push] at hi
    rcases Nat.lt_succ_iff_lt_or_eq.mp hi with hi | rfl
    · exact .inl ⟨hi, face_push_of_lt hi⟩
    · exact .inr ⟨rfl, s.face_push_self n⟩
  refine ⟨by rw [size_push]; omega, ?_, fun i hi hlt => ?_, fun i k hi hilt hk hklt heq => ?_,
    fun i e he => ?_, fun state i => ?_⟩
  · show s.heads ++ [s.nodes.size] = _
    rw [hs.heads, size_push, Nat.succ_sub hbase, List.range'_1_concat, Nat.add_sub_cancel' hbase]
  · rcases hcases hlt with ⟨hlt, hface⟩ | ⟨_, hface⟩ <;> rw [hface]
    · exact hs.top i hi hlt
    · exact ⟨hposition, hcovered⟩
  · rcases hcases hilt with ⟨hilt, hface⟩ | ⟨rfl, hface⟩ <;>
      rcases hcases hklt with ⟨hklt, hface'⟩ | ⟨rfl, hface'⟩
    · rw [hface, hface'] at heq
      exact hs.inj i k hi hilt hk hklt heq
    · rw [hface, hface'] at heq
      exact absurd heq (hstate i hi hilt)
    · rw [hface, hface'] at heq
      exact absurd heq.symm (hstate k hk hklt)
    · rfl
  · rw [edges_push] at he
    split at he
    · next hi => exact ⟨Nat.lt_of_lt_of_le (hn e he) (hi ▸ hbase), fun _ => hn e he⟩
    · exact hs.down i e he
  · rw [headIn?_push]
    split
    · next hst =>
      rw [Option.some.injEq]
      constructor
      · rintro rfl
        exact ⟨hbase, by rw [size_push]; omega, by rw [face_push_self, hst]; rfl⟩
      · rintro ⟨hi, hlt, hface⟩
        rcases hcases hlt with ⟨hlt, hold⟩ | ⟨rfl, _⟩
        · exact absurd ((congrArg Face.state hold).symm.trans (hface.trans hst)) (hstate i hi hlt)
        · rfl
    · next hst =>
      rw [hs.index state i]
      constructor
      · rintro ⟨hi, hlt, hface⟩
        exact ⟨hi, by rw [size_push]; omega, by rw [face_push_of_lt hlt]; exact hface⟩
      · rintro ⟨hi, hlt, hface⟩
        rcases hcases hlt with ⟨hlt, hold⟩ | ⟨_, hnew⟩
        · exact ⟨hi, hlt, (congrArg Face.state hold).symm.trans hface⟩
        · exact absurd (hface.symm.trans (congrArg Face.state hnew)) hst

/-- **Putting a subtree on an older node keeps the stack fresh.** -/
theorem Fresh.placed (hs : s.Fresh base p c) (hbottom : bottom < base) (hstop : label.stop = c) :
    (s.placed p bottom target label).Fresh base p c := by
  cases hhead : s.headIn? target with
  | some head =>
    obtain ⟨hsize, hheads, hindex⟩ := @placed_of_some s p bottom target label head hhead
    refine hs.of_faces hsize hheads hindex (fun i hi => face_placed hi) fun i e he => ?_
    rcases hs.mem_edges_placed hstop he with he | ⟨rfl, hi, _⟩
    · exact hs.down i e he
    · exact ⟨Nat.lt_of_lt_of_le hbottom hi, fun _ => hbottom⟩
  | none =>
    rw [placed_eq_push p label hhead]
    refine hs.push hhead rfl hstop fun e he => ?_
    obtain rfl := List.mem_singleton.mp he
    exact hbottom

/-- What holds of all edges goes on holding if it holds of the new one. -/
theorem Edges.placed {E : Face → Face → Label → Prop} (hs : s.Fresh base p c) (hE : s.Edges E)
    (hbottom : bottom < base) (hstop : label.stop = c)
    (hnew : E ⟨target, p, c⟩ (s.face bottom) label) :
    (s.placed p bottom target label).Edges E := by
  intro i e he
  rcases hs.mem_edges_placed hstop he with he | ⟨rfl, _, hface⟩
  · have hi := lt_of_mem_edges he
    rw [face_placed hi, face_placed (Nat.lt_trans (hs.down i e he).1 hi)]
    exact hE i e he
  · rw [hface, face_placed (Nat.lt_of_lt_of_le hbottom hs.base_le)]
    exact hnew

/-! ## A new head alone on top -/

/-- Putting a node on top of older ones as the only head leaves a fresh stack. -/
theorem Standing.pushOnly (hs : s.Standing p c) {n : StackNode}
    (hn : ∀ e ∈ n.edges, e.below < s.nodes.size) :
    (s.pushOnly n).Fresh s.nodes.size n.position n.covered := by
  have hsize : (s.pushOnly n).nodes.size = s.nodes.size + 1 := Array.size_push _
  have hold : ∀ i, i ≠ s.nodes.size → (s.pushOnly n).node i = s.node i := fun i hi =>
    node_push_of_ne hi
  have hself : (s.pushOnly n).node s.nodes.size = n := node_push_self s n
  refine ⟨by omega, ?_, fun i hi hlt => ?_, fun i k hi hilt hk hklt _ => by omega,
    fun i e he => ?_, fun state i => ?_⟩
  · rw [hsize, Nat.add_sub_cancel_left]
    rfl
  · obtain rfl : i = s.nodes.size := by omega
    unfold face
    rw [hself]
    exact ⟨rfl, rfl⟩
  · by_cases hi : i = s.nodes.size
    · subst hi
      unfold edges at he
      rw [hself] at he
      exact ⟨hn e he, fun _ => hn e he⟩
    · unfold edges at he
      rw [hold i hi] at he
      have hlt := lt_of_mem_edges (show e ∈ s.edges i from he)
      exact ⟨hs.down i e he, fun hle => absurd hlt (Nat.not_lt.mpr hle)⟩
  · have hnew : ((s.pushOnly n).face s.nodes.size).state = n.state :=
      congrArg StackNode.state hself
    show [(n.state, s.nodes.size)].lookup state = some i ↔ _
    rw [hsize, lookup_cons_eq]
    constructor
    · intro h
      split at h
      · next hst =>
        cases h
        exact ⟨Nat.le_refl _, Nat.lt_succ_self _, hnew.trans hst.symm⟩
      · cases h
    · rintro ⟨hi, hlt, hface⟩
      obtain rfl : i = s.nodes.size := by omega
      exact if_pos (hface.symm.trans hnew)

theorem Edges.pushOnly {E : Face → Face → Label → Prop} (hs : s.Standing p c) (hE : s.Edges E)
    {n : StackNode}
    (hn : ∀ e ∈ n.edges, e.below < s.nodes.size ∧ E n.face (s.face e.below) e.label) :
    (s.pushOnly n).Edges E := by
  have hold : ∀ i, i ≠ s.nodes.size → (s.pushOnly n).node i = s.node i := fun i hi =>
    node_push_of_ne hi
  have hself : (s.pushOnly n).node s.nodes.size = n := node_push_self s n
  intro i e he
  by_cases hi : i = s.nodes.size
  · subst hi
    unfold edges at he
    unfold face
    rw [hself] at he ⊢
    obtain ⟨hlt, hE'⟩ := hn e he
    rw [hold _ (Nat.ne_of_lt hlt)]
    exact hE'
  · unfold edges at he
    rw [hold i hi] at he
    have hlt := lt_of_mem_edges (show e ∈ s.edges i from he)
    have hbelow := hs.down i e he
    unfold face
    rw [hold i hi, hold _ (by omega)]
    exact hE i e he

end Stack

end LayeredSyntax
