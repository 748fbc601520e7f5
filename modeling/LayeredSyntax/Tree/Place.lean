/-
  PLACES — a node together with where it stands in its tree.

  A node does not know where it begins or what is above it.  A place does: it keeps the way that was
  taken from the root, one step per node above, and the offset at which the node begins.  Going down
  adds a step and **going up takes the last one back**, so the parent of a child is where one came
  from (`Place.parent?_child?`).
-/
import LayeredSyntax.Source.Position
import LayeredSyntax.Tree.Node

namespace LayeredSyntax

/-- One step of the way from the root. -/
structure Step where
  /-- The node that the step was made from. -/
  node : Node
  /-- Where that node begins. -/
  start : Nat
  /-- Which child the step was made to. -/
  index : Nat

instance : Inhabited Step := ⟨⟨default, 0, 0⟩⟩

/-- **A node in its tree.** -/
structure Place where
  node : Node
  /-- Where the node begins, in bytes. -/
  start : Nat
  /-- The way from the root, the last step first. -/
  path : List Step

instance : Inhabited Place := ⟨⟨default, 0, []⟩⟩

namespace Place

/-- The root of a tree. -/
def ofRoot (n : Node) : Place := ⟨n, 0, []⟩

/-- Where the node ends, in bytes. -/
def stop (p : Place) : Nat := p.start + p.node.size

/-- The text of the node. -/
def text (p : Place) (source : String) : String := (Span.ofOffsets p.start p.stop).slice source

/-- Which child of its parent the node is. -/
def index? (p : Place) : Option Nat := p.path.head?.map (·.index)

/-! ## Going down and up -/

/-- The places of some children, which begin at `start` with the child of number `index`. -/
def childrenFrom (p : Place) (start index : Nat) : List Node → List Place
  | [] => []
  | c :: cs => ⟨c, start, ⟨p.node, p.start, index⟩ :: p.path⟩ ::
      p.childrenFrom (start + c.size) (index + 1) cs

/-- The places of the nodes directly below. -/
def children (p : Place) : List Place := p.childrenFrom p.start 0 p.node.children

/-- The place of one node directly below. -/
def child? (p : Place) (index : Nat) : Option Place :=
  p.node.children[index]?.map fun c =>
    ⟨c, p.start + Node.sizeOfAll (p.node.children.take index),
      ⟨p.node, p.start, index⟩ :: p.path⟩

/-- The nodes directly below that are of interest by themselves. -/
def namedChildren (p : Place) : List Place := p.children.filter (·.node.isNamed)

/-- The first node of a kind directly below. -/
def childOfKind? (p : Place) (kind : String) : Option Place :=
  p.children.find? (·.node.kind == kind)

/-- The node directly above. -/
def parent? (p : Place) : Option Place :=
  match p.path with
  | [] => none
  | s :: rest => some ⟨s.node, s.start, rest⟩

/-- The parent of a child is where one came from. -/
theorem parent?_child? {p c : Place} {i : Nat} (h : p.child? i = some c) : c.parent? = some p := by
  obtain ⟨n, _, rfl⟩ := Option.map_eq_some_iff.mp h
  rfl

/-- The places of some children hold these children. -/
theorem node_mem_of_mem_childrenFrom {p c : Place} {start index : Nat} {ns : List Node}
    (h : c ∈ p.childrenFrom start index ns) : c.node ∈ ns := by
  induction ns generalizing start index with
  | nil => simp [childrenFrom] at h
  | cons n ns ih =>
    rcases List.mem_cons.mp h with rfl | h
    · exact List.mem_cons_self
    · exact List.mem_cons_of_mem _ (ih h)

/-- A place directly below has a node directly below. -/
theorem node_mem_of_mem_children {p c : Place} (h : c ∈ p.children) : c.node ∈ p.node.children :=
  node_mem_of_mem_childrenFrom h

/-- A child is smaller than its parent, which is why going down ends. -/
theorem sizeOf_lt_of_mem_children {p c : Place} (h : c ∈ p.children) :
    sizeOf c.node < sizeOf p.node :=
  Node.sizeOf_lt_of_mem_children (node_mem_of_mem_children h)

/-! ## Walking over everything -/

/-- **Everything from a node downwards**, each node before its children. -/
def descendants (p : Place) : List Place :=
  p :: p.children.attach.flatMap fun ⟨c, _⟩ => c.descendants
termination_by sizeOf p.node
decreasing_by exact sizeOf_lt_of_mem_children ‹_›

/-- The walk begins with the node itself and goes on with each child in turn. -/
theorem descendants_eq (p : Place) : p.descendants = p :: p.children.flatMap descendants := by
  rw [descendants]
  simp [List.flatMap]

/-- A descendant is the node itself, or it is below a child. -/
theorem mem_descendants {p d : Place} :
    d ∈ p.descendants ↔ d = p ∨ ∃ c ∈ p.children, d ∈ c.descendants := by
  rw [descendants_eq, List.mem_cons, List.mem_flatMap]

theorem self_mem_descendants (p : Place) : p ∈ p.descendants := mem_descendants.mpr (.inl rfl)

/-- **Induction over a tree**: what holds of a node when it holds of its children holds of every
    node. -/
@[elab_as_elim]
theorem inductionOn {motive : Place → Prop} (p : Place)
    (step : ∀ p : Place, (∀ c ∈ p.children, motive c) → motive p) : motive p := by
  generalize hsize : sizeOf p.node = m
  induction m using Nat.strongRecOn generalizing p with
  | ind m ih => exact step p fun c hc => ih _ (hsize ▸ sizeOf_lt_of_mem_children hc) c rfl

/-- **Induction on the way up** from a descendant. -/
@[elab_as_elim]
theorem descendantInduction {d : Place} {motive : (p : Place) → d ∈ p.descendants → Prop}
    {p : Place} (h : d ∈ p.descendants) (self : motive d d.self_mem_descendants)
    (up : ∀ {p c : Place} (hc : c ∈ p.children) (hd : d ∈ c.descendants), motive c hd →
      motive p (mem_descendants.mpr (.inr ⟨c, hc, hd⟩))) : motive p h := by
  induction p using inductionOn with
  | step p ih =>
    rcases mem_descendants.mp h with rfl | ⟨c, hc, hd⟩
    · exact self
    · exact up hc hd (ih c hc hd)

/-! ## Finding a range -/

/-- Whether a range lies in a node.  A node of no width holds only ranges of no width. -/
def covers (p : Place) (start stop : Nat) : Bool :=
  p.start ≤ start && stop ≤ p.stop && (p.start < p.stop || start == stop)

/-- The first child that is no trivia and in which a range lies. -/
def childCovering? (p : Place) (start stop : Nat) : Option Place :=
  p.children.find? fun c => !c.node.isTrivia && c.covers start stop

/-- Go down as long as the range lies in a child. -/
def innermost (p : Place) (start stop : Nat) : Place :=
  match _h : p.childCovering? start stop with
  | none => p
  | some c => c.innermost start stop
termination_by sizeOf p.node
decreasing_by exact sizeOf_lt_of_mem_children (List.mem_of_find?_eq_some ‹_›)

/-- **The innermost node in which a range lies**, trivia left aside. -/
def innermost? (p : Place) (start stop : Nat) : Option Place :=
  if start < p.start || p.stop < stop then none else some (p.innermost start stop)

end Place

end LayeredSyntax
