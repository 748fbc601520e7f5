/-
  WALKS OVER A TREE — the cursor and the descendants are the same walk.

  There are three ways to come to every node below a place:

  1. the DESCENDANTS are put together from those of the children (`Place.descendants`);
  2. a STACK gives up its top node and takes the children of that node instead, until it is empty
     (`Place.Unstacks`);
  3. a CURSOR keeps nothing but the place it has come to: it goes down, else to the side, else up
     until there is something at the side (`Cursor.next`).

  All of them come to the same places in the same order, each place once, and the cursor ends where
  it started (`Cursor.walks_descendants`).

  **The crux** is what the cursor does when it is done with a row of children: it leaves the last of
  them in the way in which it would have left their parent (`Cursor.walks_row`).  So a walk through
  the nodes below a place goes on as the walk that leaves the place, whatever that one comes to.
-/
import Mathlib.Data.List.Nodup
import LayeredSyntax.Proofs.Tree.Reading
import LayeredSyntax.Tree.Cursor

namespace LayeredSyntax

namespace Node

theorem foldl_size (ns : List Node) :
    ∀ n : Nat, ns.foldl (fun n c => n + c.size) n = n + (ns.map size).sum := by
  induction ns with
  | nil => exact fun n => rfl
  | cons c ns ih =>
    intro n
    rw [List.foldl_cons, ih, List.map_cons, List.sum_cons, Nat.add_assoc]

/-- Several nodes cover the bytes of each of them. -/
theorem sizeOfAll_eq (ns : List Node) : sizeOfAll ns = (ns.map size).sum :=
  (foldl_size ns 0).trans (Nat.zero_add _)

@[simp] theorem sizeOfAll_nil : sizeOfAll [] = 0 := rfl

@[simp] theorem sizeOfAll_cons (n : Node) (ns : List Node) :
    sizeOfAll (n :: ns) = n.size + sizeOfAll ns := by
  rw [sizeOfAll_eq, sizeOfAll_eq, List.map_cons, List.sum_cons]

end Node

namespace Place

variable {p q c : Place} {i j : Nat}

/-! ## Children by their numbers -/

theorem getElem?_childrenFrom (p : Place) (ns : List Node) :
    ∀ start index i : Nat, (p.childrenFrom start index ns)[i]? = ns[i]?.map fun c =>
      ⟨c, start + Node.sizeOfAll (ns.take i), ⟨p.node, p.start, index + i⟩ :: p.path⟩ := by
  induction ns with
  | nil =>
    intro start index i
    rfl
  | cons n ns ih =>
    intro start index i
    cases i with
    | zero => rfl
    | succ i =>
      show (p.childrenFrom (start + n.size) (index + 1) ns)[i]? = _
      rw [ih, List.getElem?_cons_succ, List.take_succ_cons, Node.sizeOfAll_cons,
        Nat.add_assoc start, Nat.add_assoc index, Nat.add_comm 1 i]

/-- **A child by its number is the child of that number.** -/
theorem child?_eq (p : Place) (i : Nat) : p.child? i = p.children[i]? := by
  unfold child? children
  rw [getElem?_childrenFrom, Nat.zero_add]

theorem child?_zero (p : Place) : p.child? 0 = p.children.head? := by
  rw [child?_eq, List.head?_eq_getElem?]

/-- A child keeps the number under which it is found. -/
theorem path_of_child? (h : p.child? i = some c) :
    c.path = ⟨p.node, p.start, i⟩ :: p.path := by
  obtain ⟨n, _, rfl⟩ := Option.map_eq_some_iff.mp h
  rfl

/-- What stands at a number of the row of children is the child of that number, and what stands
    behind it is the next one. -/
theorem child?_of_drop {row : List Place} (h : p.children.drop i = c :: row) :
    p.child? i = some c ∧ p.child? (i + 1) = row.head? := by
  have hget : ∀ j, p.child? (i + j) = (c :: row)[j]? := by
    intro j
    rw [child?_eq, ← h, List.getElem?_drop]
  exact ⟨hget 0, (hget 1).trans List.head?_eq_getElem?.symm⟩

theorem exists_child?_of_mem (h : c ∈ p.children) : ∃ i, p.child? i = some c := by
  obtain ⟨i, hi⟩ := List.mem_iff_getElem?.mp h
  exact ⟨i, (p.child?_eq i).trans hi⟩

/-! ## The nodes above -/

/-- The places that a way from the root leads through, the last one first. -/
def along : List Step → List Place
  | [] => []
  | s :: rest => ⟨s.node, s.start, rest⟩ :: along rest

/-- **The nodes above a node**, its parent first and the root last. -/
def ancestors (p : Place) : List Place := along p.path

theorem ancestors_of_parent? (h : c.parent? = some p) : c.ancestors = p :: p.ancestors := by
  unfold parent? at h
  unfold ancestors
  split at h
  · cases h
  · next s rest heq =>
    obtain rfl := Option.some.inj h
    rw [heq]
    rfl

theorem length_ancestors (p : Place) : p.ancestors.length = p.path.length := by
  unfold ancestors
  induction p.path with
  | nil => rfl
  | cons s rest ih =>
    show (along rest).length + 1 = rest.length + 1
    rw [ih]

/-- **From a descendant the way up leads to where one started**: past one place for each node that
    the descendant is deeper. -/
theorem exists_between (h : q ∈ p.descendants) :
    ∃ between, q :: q.ancestors = between ++ p :: p.ancestors := by
  induction h using descendantInduction with
  | self => exact ⟨[], rfl⟩
  | @up p c hc _ ih =>
    obtain ⟨between, hbetween⟩ := ih
    obtain ⟨i, hi⟩ := exists_child?_of_mem hc
    refine ⟨between ++ [c], ?_⟩
    rw [hbetween, ancestors_of_parent? (parent?_child? hi), List.append_assoc]
    rfl

/-- Where one started is above every other descendant. -/
theorem eq_or_mem_ancestors (h : q ∈ p.descendants) : q = p ∨ p ∈ q.ancestors := by
  obtain ⟨between, hbetween⟩ := exists_between h
  cases between with
  | nil => exact .inl (List.cons.inj hbetween).1
  | cons b between =>
    right
    rw [(List.cons.inj hbetween).2]
    exact List.mem_append_right _ List.mem_cons_self

/-- The way to a descendant begins with the way to where one started. -/
theorem path_suffix (h : q ∈ p.descendants) : p.path <:+ q.path := by
  induction h using descendantInduction with
  | self => exact List.suffix_refl _
  | up hc _ ih =>
    obtain ⟨i, hi⟩ := exists_child?_of_mem hc
    rw [path_of_child? hi] at ih
    exact (List.suffix_cons _ _).trans ih

/-- **No place is come to twice**: the way to it tells which child it is below. -/
theorem nodup_descendants (p : Place) : p.descendants.Nodup := by
  induction p using inductionOn with
  | step p ih =>
    rw [descendants_eq, List.nodup_cons, List.nodup_flatMap]
    refine ⟨fun hp => ?_, ih, ?_⟩
    · -- The way to what is below a child is longer than the way to its parent.
      obtain ⟨c, hc, hp⟩ := List.mem_flatMap.mp hp
      obtain ⟨i, hi⟩ := exists_child?_of_mem hc
      have hlength := (path_suffix hp).length_le
      rw [path_of_child? hi, List.length_cons] at hlength
      omega
    · rw [List.pairwise_iff_getElem]
      intro i j hi hj hlt q hqi hqj
      have hci := path_of_child? ((p.child?_eq i).trans (List.getElem?_eq_getElem hi))
      have hcj := path_of_child? ((p.child?_eq j).trans (List.getElem?_eq_getElem hj))
      have hsi := path_suffix hqi
      have hsj := path_suffix hqj
      rw [hci] at hsi
      rw [hcj] at hsj
      have hsame := (List.suffix_of_suffix_length_le hsi hsj (by simp)).eq_of_length (by simp)
      have hindex : i = j := congrArg Step.index (List.cons.inj hsame).1
      omega

/-! ## The stack -/

/-- **What a stack of nodes gives up until it is empty**: its top, for which it takes the children
    of the top, the first of them on top. -/
inductive Unstacks : List Place → List Place → Prop where
  | nil : Unstacks [] []
  | cons {p : Place} {stack out : List Place} (h : Unstacks (p.children ++ stack) out) :
      Unstacks (p :: stack) (p :: out)

theorem unstacks_flatMap (stack : List Place) : Unstacks stack (stack.flatMap descendants) := by
  generalize hlength : (stack.flatMap descendants).length = n
  induction n generalizing stack with
  | zero =>
    cases stack with
    | nil => exact .nil
    | cons p stack =>
      rw [List.flatMap_cons, descendants_eq] at hlength
      cases hlength
  | succ n ih =>
    cases stack with
    | nil => cases hlength
    | cons p stack =>
      -- One node is given up, and all that is below it is still to come.
      have hstep : (p :: stack).flatMap descendants =
          p :: (p.children ++ stack).flatMap descendants := by
        rw [List.flatMap_cons, descendants_eq, List.flatMap_append]
        rfl
      rw [hstep] at hlength ⊢
      exact .cons (ih _ (Nat.succ.inj hlength))

theorem Unstacks.unique {stack out out' : List Place} (h : Unstacks stack out)
    (h' : Unstacks stack out') : out = out' := by
  induction h generalizing out' with
  | nil =>
    cases h'
    rfl
  | cons _ ih =>
    cases h' with
    | cons h' => rw [ih h']

/-- **The stack gives up the descendants.** -/
theorem unstacks_iff {out : List Place} : Unstacks [p] out ↔ out = p.descendants := by
  have hself : Unstacks [p] p.descendants := by
    have h := unstacks_flatMap [p]
    rwa [List.flatMap_cons, List.flatMap_nil, List.append_nil] at h
  constructor
  · exact fun h => h.unique hself
  · rintro rfl
    exact hself

end Place

/-! ## The cursor -/

namespace Cursor

/-- **A walk from what a move has come to**: the cursors it comes to while there is a next node, and
    the cursor with which it ends. -/
inductive Walks : Bool × Cursor → List Cursor → Cursor → Prop where
  | ended (c : Cursor) : Walks (false, c) [] c
  | step {c last : Cursor} {rest : List Cursor} (h : Walks c.next rest last) :
      Walks (true, c) (c :: rest) last

theorem Walks.unique {move : Bool × Cursor} {visited visited' : List Cursor} {last last' : Cursor}
    (h : Walks move visited last) (h' : Walks move visited' last') :
    visited = visited' ∧ last = last' := by
  induction h generalizing visited' with
  | ended c =>
    cases h'
    exact ⟨rfl, rfl⟩
  | step _ ih =>
    cases h' with
    | step h' =>
      obtain ⟨rfl, rfl⟩ := ih h'
      exact ⟨rfl, rfl⟩

/-- Where a walk from one place is when it has come to another one. -/
def within (p q : Place) : Cursor := ⟨q, q.path.length - p.path.length⟩

section

variable {p q c d : Place} {i depth : Nat} {visited : List Cursor} {last : Cursor}

/-- Without children there is nothing to do but to leave. -/
theorem next_of_childless (h : q.children = []) : (mk q depth).next = (mk q depth).leave depth := by
  unfold next firstChild?
  rw [Place.child?_zero, h]
  rfl

theorem next_of_children {rest : List Place} (h : q.children = c :: rest) :
    (mk q depth).next = (true, ⟨c, depth + 1⟩) := by
  unfold next firstChild?
  rw [Place.child?_zero, h]
  rfl

theorem nextSibling?_child (h : p.child? i = some c) :
    (mk c (depth + 1)).nextSibling? = (p.child? (i + 1)).map (⟨·, depth + 1⟩) := by
  have hindex : c.index? = some i := by
    unfold Place.index?
    rw [Place.path_of_child? h]
    rfl
  unfold nextSibling?
  rw [if_neg (Nat.succ_ne_zero depth), Place.parent?_child? h, hindex, Option.map_eq_bind]
  rfl

/-- Beside a child that has another one behind it, a walk goes on with that one. -/
theorem leave_of_sibling (h : p.child? i = some c) (hnext : p.child? (i + 1) = some d) :
    (mk c (depth + 1)).leave (depth + 1) = (true, ⟨d, depth + 1⟩) := by
  unfold leave
  rw [nextSibling?_child h, hnext]
  rfl

/-- **The last child is left as its parent is left.** -/
theorem leave_of_last (h : p.child? i = some c) (hnext : p.child? (i + 1) = none) :
    (mk c (depth + 1)).leave (depth + 1) = (mk p depth).leave depth := by
  have hparent : (mk c (depth + 1)).parent? = some ⟨p, depth⟩ := by
    unfold parent?
    rw [if_neg (Nat.succ_ne_zero depth)]
    show c.parent?.map _ = _
    rw [Place.parent?_child? h]
    rfl
  conv_lhs => unfold leave
  rw [nextSibling?_child h, hnext, hparent]
  rfl

/-- **A walk through a row of children** goes on as the walk that leaves their parent, if the walk
    through each child goes on as the walk that leaves that child. -/
theorem walks_row {s : Place}
    (hchild : ∀ c ∈ p.children, ∀ {visited : List Cursor},
      Walks ((mk c (depth + 1)).leave (depth + 1)) visited last →
        Walks (true, mk c (depth + 1)) (c.descendants.map (within s) ++ visited) last)
    (hleave : Walks ((mk p depth).leave depth) visited last) (row : List Place) :
    ∀ (c : Place) (i : Nat), p.children.drop i = c :: row →
      Walks (true, mk c (depth + 1))
        (((c :: row).flatMap Place.descendants).map (within s) ++ visited) last := by
  induction row with
  | nil =>
    intro c i hdrop
    obtain ⟨hc, hnext⟩ := Place.child?_of_drop hdrop
    rw [List.flatMap_cons, List.flatMap_nil, List.append_nil]
    apply hchild c (List.mem_of_mem_drop (hdrop ▸ List.mem_cons_self))
    rw [leave_of_last hc hnext]
    exact hleave
  | cons d row ih =>
    intro c i hdrop
    obtain ⟨hc, hnext⟩ := Place.child?_of_drop hdrop
    rw [List.flatMap_cons, List.map_append, List.append_assoc]
    apply hchild c (List.mem_of_mem_drop (hdrop ▸ List.mem_cons_self))
    rw [leave_of_sibling hc hnext]
    apply ih d (i + 1)
    rw [← List.tail_drop, hdrop]
    rfl

/-- **The walk through a node** comes to its descendants, and goes on as the walk that leaves it. -/
theorem walks_through {s : Place} (hdepth : q.path.length = s.path.length + depth)
    (hleave : Walks ((mk q depth).leave depth) visited last) :
    Walks (true, mk q depth) (q.descendants.map (within s) ++ visited) last := by
  induction q using Place.inductionOn generalizing depth visited with
  | step q ih =>
    have hself : within s q = mk q depth := by
      unfold within
      rw [hdepth, Nat.add_sub_cancel_left]
    rw [Place.descendants_eq, List.map_cons, hself]
    apply Walks.step
    show Walks (mk q depth).next
      ((q.children.flatMap Place.descendants).map (within s) ++ visited) last
    cases hrow : q.children with
    | nil =>
      rw [next_of_childless hrow]
      exact hleave
    | cons c row =>
      rw [next_of_children hrow]
      refine walks_row (fun c hc visited hvisited => ?_) hleave row c 0 hrow
      obtain ⟨i, hi⟩ := Place.exists_child?_of_mem hc
      refine ih c hc ?_ hvisited
      rw [Place.path_of_child? hi, List.length_cons, hdepth, Nat.add_assoc]

/-- **A walk comes to the descendants** and ends where it started. -/
theorem walks_start (p : Place) :
    Walks (true, start p) (p.descendants.map (within p)) (start p) := by
  have h : Walks (true, mk p 0) (p.descendants.map (within p) ++ []) (start p) :=
    walks_through rfl (.ended (start p))
  rwa [List.append_nil] at h

end

/-- **The cursor, the stack and the descendants are the same walk**, for every node of every tree.

    1. A stack that starts with the node gives up its descendants.
    2. A cursor that starts at the node comes to its descendants, in their order, and there is no
       next node but behind the last of them; then the cursor is back at its start, at depth 0.
    3. No descendant is come to twice.
    4. The cursor's depth at a descendant is the number of nodes above the descendant down from the
       start: as many places are passed on the way up to the start.
    5. A child by its number is the child of that number, and its parent is the node itself. -/
theorem walks_descendants (p : Place) :
    (∀ out, Place.Unstacks [p] out ↔ out = p.descendants) ∧
    (∀ visited last, Walks (start p).next visited last ↔
      start p :: visited = p.descendants.map (within p) ∧ last = start p) ∧
    p.descendants.Nodup ∧
    (∀ q ∈ p.descendants, ∃ between, q :: q.ancestors = between ++ p :: p.ancestors ∧
      (within p q).depth = between.length) ∧
    ∀ (q : Place) (i : Nat), q.child? i = q.children[i]? ∧
      ∀ c, q.child? i = some c → c.parent? = some q := by
  refine ⟨fun out => Place.unstacks_iff, fun visited last => ?_, p.nodup_descendants,
    fun q hq => ?_, fun q i => ⟨q.child?_eq i, fun c hc => Place.parent?_child? hc⟩⟩
  · have hwalk := walks_start p
    constructor
    · intro h
      exact (Walks.step h).unique hwalk
    · rintro ⟨hvisited, rfl⟩
      rw [← hvisited] at hwalk
      cases hwalk with
      | step h => exact h
  · obtain ⟨between, hbetween⟩ := Place.exists_between hq
    refine ⟨between, hbetween, ?_⟩
    -- A place has as many places above it as there are steps on the way to it.
    have hlength := congrArg List.length hbetween
    simp only [List.length_cons, List.length_append, Place.length_ancestors] at hlength
    show q.path.length - p.path.length = between.length
    omega

/-- A node below a root, with a token, a symbol of no width and a blank below it. -/
def belowRoot : Place :=
  ⟨.rule "sum" .expr 0 0 0
      [.rule "term" .expr 1 1 0 [.leaf "number" true none 1 2, .missing "+" .expr (.t 2)],
        .trivia .whitespace 1],
    3, [⟨.error [], 0, 1⟩]⟩

/-- **A walk that starts below a root** stays below its start. -/
theorem walks_descendants_belowRoot :
    ∃ visited, Walks (start belowRoot).next visited (start belowRoot) ∧
      visited.map (fun c => (c.place.node.kind, c.place.start, c.depth)) =
        [("term", 3, 1), ("number", 3, 2), ("+", 5, 2), ("whitespace", 5, 1)] ∧
      ∃ q ∈ belowRoot.descendants, q.node.isTrivia = true ∧ ∃ between,
        q :: q.ancestors = between ++ belowRoot :: belowRoot.ancestors ∧ between.length = 1 := by
  obtain ⟨-, hwalk, -, hbetween, -⟩ := walks_descendants belowRoot
  refine ⟨(belowRoot.children.flatMap Place.descendants).map (within belowRoot),
    (hwalk _ _).mpr ⟨?_, rfl⟩, ?_, ?_⟩
  · rw [Place.descendants_eq belowRoot]
    rfl
  · cbv
  · have hblank : ⟨.trivia .whitespace 1, belowRoot.start + belowRoot.children[0].node.size,
        ⟨belowRoot.node, belowRoot.start, 1⟩ :: belowRoot.path⟩ ∈ belowRoot.descendants := by
      exact Place.mem_descendants.mpr (.inr ⟨_, List.mem_cons_of_mem _ List.mem_cons_self,
        Place.self_mem_descendants _⟩)
    obtain ⟨between, h, hdepth⟩ := hbetween _ hblank
    exact ⟨_, hblank, rfl, between, h, hdepth.symm⟩

end Cursor

end LayeredSyntax
