/-
  OPENING AT ONCE — a second way of finishing productions, and why it makes no difference.

  `eagerLabel` puts what is in the hidden rules among the children of every production that is
  finished in their place, one level deep, and of hidden rules too, where `reduceLabel` leaves them
  whole.  The rest of finishing productions is the same for both (`eagerReduceAll`).

  1. A stack is OPENED label by label (`Stack.opened`).  This changes nothing of where its ways lead
     (`ways_opened`), and goes along with every change of a stack (`push_opened`, `addEdge_opened`,
     `relabel_opened`).
  2. Pieces that were opened are assembled to the same children as before (`assemble_opened`), and
     **assembling with opening shows what assembling without it holds**
     (`children_assemble_of_opens`).
  3. Over shallow pieces one level of opening is as good as opening as deep as one looks
     (`flatMap_spliced_assemble`).  So the subtree of a production over opened pieces is the subtree
     over the pieces as they were, opened afterwards (`eagerLabel_opened`).
  4. The two ways of finishing productions go side by side (`Reducing.OpensTo`), and what has been
     opened is shallow: hidden rules are never nested (`Stack.Shallow`).
-/
import LayeredSyntax.Proofs.Parse.Assembling
import LayeredSyntax.Proofs.Parse.Reducing
import LayeredSyntax.Proofs.Tree.Opening

namespace LayeredSyntax

/-! ## Opening everything at once -/

namespace ParseJob

/-- The subtree of a production over some pieces, on top of a state, with what is in the hidden rules
    among its children in their place. -/
def eagerLabel (j : ParseJob) (regions : Regions) (production before : Nat)
    (pieces : List Label) : Label × Nat :=
  let lhs := (j.table.production production).lhs
  let n := j.table.nonterminal lhs
  let first := (pieces.head?.map (·.first)).getD 0
  let stop := (pieces.getLast?.map (·.stop)).getD first
  let a := j.assemble regions false first stop pieces
  let children := a.children.flatMap j.table.spliced
  (⟨.rule n.name n.grammar lhs production before children, first, stop⟩, a.work)

/-- Finish a production along one way. -/
def eagerAlong (j : ParseJob) (regions : Regions) (p production : Nat) (r : Reducing)
    (way : Nat × List Label) : Reducing :=
  let below := r.stack.state way.1
  match j.table.goto? below (j.table.production production).lhs with
  | none => r
  | some target =>
    let (label, work) := j.eagerLabel regions production below way.2
    j.place p { r with assembled := r.assembled + work } way.1 target label

/-- See to a task. -/
def eagerPerform (j : ParseJob) (regions : Regions) (p : Nat) (r : Reducing) (t : ReduceTask) :
    Reducing :=
  (j.waysOf r t).foldl (j.eagerAlong regions p t.production)
    { r with done := if t.via.isNone then (t.head, t.production) :: r.done else r.done }

/-- See to the tasks one after the other until there are none left. -/
def eagerPerformAll (j : ParseJob) (regions : Regions) (p : Nat) (r : Reducing) : Nat → Reducing
  | 0 => r
  | fuel + 1 =>
    match r.tasks[r.begun]? with
    | none => r
    | some t =>
      j.eagerPerformAll regions p (j.eagerPerform regions p { r with begun := r.begun + 1 } t) fuel

end ParseJob

/-- Finish everything that can be finished at the position. -/
def Progress.eagerReduceAll (j : ParseJob) (s : Progress) : Progress :=
  let r := j.eagerPerformAll s.regions s.position (j.begin s) (j.taskBound s.stack)
  { s with
    stack := r.stack
    settled := true
    assembled := r.assembled
    marks := if r.met then s.marks.setIfInBounds s.position true else s.marks
    mostHeads := max s.mostHeads r.stack.heads.length }

/-! ## Opened stacks -/

/-- The same subtree, opened. -/
def Label.opened (c : Composite) (l : Label) : Label := { l with node := c.opened l.node }

/-- The same edge with its subtree opened. -/
def Edge.opened (c : Composite) (e : Edge) : Edge := { e with label := e.label.opened c }

/-- The same node of the stack with all subtrees opened. -/
def StackNode.opened (c : Composite) (n : StackNode) : StackNode :=
  { n with edges := n.edges.map (Edge.opened c) }

/-- **The same stack with all subtrees opened.** -/
def Stack.opened (c : Composite) (s : Stack) : Stack :=
  { s with nodes := s.nodes.map (StackNode.opened c) }

namespace Stack

variable {c : Composite}

theorem size_opened (c : Composite) (s : Stack) : (s.opened c).nodes.size = s.nodes.size :=
  Array.size_map

theorem node_opened (c : Composite) (s : Stack) (i : Nat) :
    (s.opened c).node i = (s.node i).opened c := by
  unfold node opened
  rw [Array.getElem?_map]
  cases s.nodes[i]? <;> rfl

theorem edges_opened (c : Composite) (s : Stack) (i : Nat) :
    (s.opened c).edges i = (s.edges i).map (Edge.opened c) :=
  congrArg StackNode.edges (node_opened c s i)

theorem face_opened (c : Composite) (s : Stack) (i : Nat) : (s.opened c).face i = s.face i := by
  unfold face
  rw [node_opened]
  rfl

theorem state_opened (c : Composite) (s : Stack) (i : Nat) : (s.opened c).state i = s.state i :=
  congrArg Face.state (face_opened c s i)

theorem edge?_opened (c : Composite) (s : Stack) (i below : Nat) :
    (s.opened c).edge? i below = (s.edge? i below).map (Edge.opened c) := by
  show ((s.opened c).edges i).find? _ = _
  rw [edges_opened, List.find?_map]
  rfl

theorem push_opened (c : Composite) (s : Stack) (n : StackNode) :
    (s.push n).opened c = (s.opened c).push (n.opened c) := by
  unfold push opened
  rw [Array.map_push, Array.size_map]
  rfl

theorem pushOnly_opened (c : Composite) (s : Stack) (n : StackNode) :
    (s.pushOnly n).opened c = (s.opened c).pushOnly (n.opened c) := by
  unfold pushOnly opened
  rw [Array.map_push, Array.size_map]
  rfl

/-- Changes of one node that go along with opening it. -/
theorem modify_opened (s : Stack) (i : Nat) {f g : StackNode → StackNode}
    (h : ∀ n, (f n).opened c = g (n.opened c)) :
    Stack.opened c { s with nodes := s.nodes.modify i f } =
      { s.opened c with nodes := (s.opened c).nodes.modify i g } := by
  have hnodes : (s.nodes.modify i f).map (StackNode.opened c) =
      (s.nodes.map (StackNode.opened c)).modify i g := by
    refine Array.ext_getElem? fun k => ?_
    rw [Array.getElem?_map, Array.getElem?_modify, Array.getElem?_modify, Array.getElem?_map]
    split
    · cases s.nodes[k]? with
      | none => rfl
      | some n => exact congrArg some (h n)
    · rfl
  unfold opened
  rw [hnodes]

theorem addEdge_opened (c : Composite) (s : Stack) (i : Nat) (e : Edge) :
    (s.addEdge i e).opened c = (s.opened c).addEdge i (e.opened c) :=
  modify_opened s i fun n => by
    unfold StackNode.opened
    rw [List.map_append]
    rfl

theorem relabel_opened (c : Composite) (s : Stack) (i below : Nat) (label : Label) :
    (s.relabel i below label).opened c = (s.opened c).relabel i below (label.opened c) :=
  modify_opened s i fun n => by
    unfold StackNode.opened
    dsimp only
    rw [List.map_map, List.map_map]
    congr 1
    refine List.map_congr_left fun e _ => ?_
    show Edge.opened c (if e.below = below then _ else e) =
      if e.below = below then _ else e.opened c
    split <;> rfl

/-- **The ways of an opened stack** lead where they led. -/
theorem ways_opened (c : Composite) (s : Stack) (length : Nat) : ∀ (above : List Label) (i : Nat),
    (s.opened c).ways (above.map (Label.opened c)) i length =
      (s.ways above i length).map fun way => (way.1, way.2.map (Label.opened c)) := by
  induction length with
  | zero => exact fun above i => rfl
  | succ length ih =>
    intro above i
    show ((s.opened c).edges i).flatMap _ = ((s.edges i).flatMap _).map _
    rw [edges_opened, List.flatMap_map, List.map_flatMap]
    refine List.flatMap_congr fun e _ => ?_
    exact ih (e.label :: above) e.below

theorem waysVia_opened (c : Composite) (s : Stack) (i below length : Nat) :
    (s.opened c).waysVia i below length =
      (s.waysVia i below length).map fun way => (way.1, way.2.map (Label.opened c)) := by
  cases length with
  | zero => rfl
  | succ length =>
    unfold waysVia
    rw [edge?_opened]
    cases s.edge? i below with
    | none => rfl
    | some e => exact ways_opened c s length [e.label] e.below

/-! ## Shallow stacks -/

/-- **Whether all subtrees on a stack are shallow.** -/
def Shallow (c : Composite) (s : Stack) : Prop := ∀ i, ∀ e ∈ s.edges i, c.Shallow e.label.node

variable {s : Stack}

theorem Shallow.push (h : s.Shallow c) {n : StackNode}
    (hn : ∀ e ∈ n.edges, c.Shallow e.label.node) : (s.push n).Shallow c := by
  intro i e he
  rw [edges_push] at he
  split at he
  · exact hn e he
  · exact h i e he

theorem Shallow.pushOnly (h : s.Shallow c) {n : StackNode}
    (hn : ∀ e ∈ n.edges, c.Shallow e.label.node) : (s.pushOnly n).Shallow c := h.push hn

theorem Shallow.addEdge (h : s.Shallow c) (i : Nat) {e : Edge} (hnew : c.Shallow e.label.node) :
    (s.addEdge i e).Shallow c := by
  intro k f hf
  rw [edges_addEdge] at hf
  split at hf
  · rcases List.mem_append.mp hf with hf | hf
    · exact h k f hf
    · obtain rfl := List.mem_singleton.mp hf
      exact hnew
  · exact h k f hf

theorem Shallow.relabel (h : s.Shallow c) (i below : Nat) {label : Label}
    (hnew : c.Shallow label.node) : (s.relabel i below label).Shallow c := by
  intro k f hf
  rw [edges_relabel] at hf
  split at hf
  · obtain ⟨e, he, rfl⟩ := List.mem_map.mp hf
    split
    · exact hnew
    · exact h k e he
  · exact h k f hf

end Stack

/-! ## Assembling -/

/-- Whether everything in the regions that were left behind is visible. -/
def Regions.Visible (c : Composite) (regions : Regions) : Prop :=
  ∀ r ∈ regions, c.Visible r.node

namespace ParseJob

variable {j : ParseJob} {regions : Regions} {low high first stop p : Nat} {pieces : List Label}
  {out : List Node}

theorem visible_skippedNode (c : Composite) (j : ParseJob) (p : Nat) :
    c.Visible (j.skippedNode p) := by
  unfold skippedNode
  split <;> exact .of_childless rfl rfl

/-- What is put in front of something at a position. -/
theorem exists_trivia (c : Composite) (j : ParseJob) (p : Nat) : ∃ more : List Node,
    (∀ n ∈ more, c.Visible n) ∧ ∀ out, (j.triviaOnto p out).reverse = out.reverse ++ more := by
  refine ⟨_, fun _ hn => ?_, fun out => reverse_triviaOnto j p out⟩
  obtain ⟨token, _, rfl⟩ := List.mem_map.mp hn
  exact .of_childless rfl rfl

theorem visible_triviaOnto {c : Composite} (h : ∀ n ∈ out, c.Visible n) :
    ∀ n ∈ j.triviaOnto p out, c.Visible n := by
  obtain ⟨more, hmore, heq⟩ := exists_trivia c j p
  intro n hn
  have hmem : n ∈ out.reverse ++ more := heq out ▸ List.mem_reverse.mpr hn
  rcases List.mem_append.mp hmem with hmem | hmem
  · exact h n (List.mem_reverse.mp hmem)
  · exact hmore n hmem

/-- The content of a new region is visible. -/
theorem visible_contentOnto {c : Composite} (hr : regions.Visible c)
    (hout : ∀ n ∈ out, c.Visible n) :
    ∀ n ∈ j.contentOnto regions first stop p out, c.Visible n := by
  have hled : ∀ {p out}, (∀ n ∈ out, c.Visible n) →
      ∀ n ∈ (if first < p then j.triviaOnto p out else out), c.Visible n := by
    intro p out hout
    split
    · exact visible_triviaOnto hout
    · exact hout
  have hcons : ∀ {m : Node} {out : List Node}, c.Visible m → (∀ n ∈ out, c.Visible n) →
      ∀ n ∈ m :: out, c.Visible n := by
    intro m out hm hout n hn
    rcases List.mem_cons.mp hn with rfl | hn
    · exact hm
    · exact hout n hn
  fun_induction contentOnto j regions first stop p out with
  | case1 p out hlt led r hat hfits ih => exact ih (hcons (hr r (mem_of_at? hat).1) (hled hout))
  | case2 p out hlt led r hat hfits ih =>
    exact ih (hcons (visible_skippedNode c j p) (hled hout))
  | case3 p out hlt led hat ih => exact ih (hcons (visible_skippedNode c j p) (hled hout))
  | case4 p out hlt => exact hout

/-- **What fills a gap is visible**, and goes behind whatever was there. -/
theorem exists_gap {c : Composite} (hr : regions.Visible c) (low first stop : Nat) :
    ∃ more : List Node, (∀ n ∈ more, c.Visible n) ∧ ∀ a : Assembled,
      (j.fillGap regions low first stop a).children = a.children ++ more := by
  -- The trivia in front of the gap, and then one region.
  have hled : ∃ more : List Node, (∀ n ∈ more, c.Visible n) ∧ ∀ out,
      (if low < first then j.triviaOnto first out else out).reverse = out.reverse ++ more := by
    split
    · exact exists_trivia c j first
    · exact ⟨[], fun n hn => absurd hn List.not_mem_nil, fun out => (List.append_nil _).symm⟩
  obtain ⟨more, hmore, heq⟩ := hled
  obtain ⟨filling, hfilling, hchildren⟩ := exists_filling j regions low first stop
  have hvisible : c.Visible filling := by
    obtain ⟨r, hmem, _, _, rfl⟩ | rfl := hfilling
    · exact hr r hmem
    · refine .error fun n hn => ?_
      exact visible_contentOnto hr (fun n hn => absurd hn List.not_mem_nil) n
        (List.mem_reverse.mp hn)
  refine ⟨more ++ [filling], fun n hn => ?_, fun a => ?_⟩
  · rcases List.mem_append.mp hn with hn | hn
    · exact hmore n hn
    · obtain rfl := List.mem_singleton.mp hn
      exact hvisible
  · rw [hchildren, heq, List.append_assoc]
    rfl

/-- **What is put in front of a piece is visible**, and goes behind whatever was there. -/
theorem exists_front {c : Composite} (hr : regions.Visible c) (low p : Nat) (piece : Label) :
    ∃ more : List Node, (∀ n ∈ more, c.Visible n) ∧ ∀ a : Assembled,
      (if piece.first < piece.stop && low < piece.first then
        j.triviaOnto piece.first
          (if p < piece.first then j.fillGap regions low p piece.first a else a).reversed
      else (if p < piece.first then j.fillGap regions low p piece.first a
        else a).reversed).reverse = a.children ++ more := by
  obtain ⟨gap, hgap, hgapped⟩ : ∃ gap : List Node, (∀ n ∈ gap, c.Visible n) ∧ ∀ a : Assembled,
      (if p < piece.first then j.fillGap regions low p piece.first a else a).reversed.reverse =
        a.children ++ gap := by
    split
    · exact exists_gap hr low p piece.first
    · exact ⟨[], fun n hn => absurd hn List.not_mem_nil, fun a => (List.append_nil _).symm⟩
  split
  · obtain ⟨more, hmore, heq⟩ := exists_trivia c j piece.first
    refine ⟨gap ++ more, fun n hn => ?_, fun a => ?_⟩
    · rcases List.mem_append.mp hn with hn | hn
      · exact hgap n hn
      · exact hmore n hn
    · rw [heq, hgapped, List.append_assoc]
  · exact ⟨gap, hgap, hgapped⟩

/-- **Opened pieces are assembled to the same children.** -/
theorem assembleFrom_opened (j : ParseJob) (regions : Regions) (low high : Nat)
    (pieces : List Label) : ∀ p a,
      j.assembleFrom regions true low high p a
          (pieces.map (Label.opened j.table.toComposite)) =
        j.assembleFrom regions true low high p a pieces := by
  induction pieces with
  | nil => exact fun p a => rfl
  | cons piece rest ih =>
    intro p a
    rw [List.map_cons]
    unfold assembleFrom
    dsimp only
    rw [if_pos rfl, if_pos rfl, ih]
    show j.assembleFrom regions true low high _ ⟨Composite.showOnto _ _
      [j.table.toComposite.opened piece.node], _⟩ rest = _
    rw [Composite.showOnto_opened]
    rfl

theorem assemble_opened (j : ParseJob) (regions : Regions) (low high : Nat)
    (pieces : List Label) : j.assemble regions true low high
        (pieces.map (Label.opened j.table.toComposite)) =
      j.assemble regions true low high pieces := by
  unfold assemble
  rw [assembleFrom_opened]

/-- **Assembling with opening shows what assembling without it holds.** -/
theorem children_assembleFrom_of_opens (hr : regions.Visible j.table.toComposite) :
    ∀ {p : Nat} {a a' : Assembled}, a'.children = j.table.shown a.children →
      (j.assembleFrom regions true low high p a' pieces).children =
        j.table.shown (j.assembleFrom regions false low high p a pieces).children := by
  have hvisible : ∀ {more : List Node}, (∀ n ∈ more, j.table.Visible n) →
      j.table.shown more = more := fun h => Composite.shown_eq_self fun n hn => (h n hn).hides_eq
  induction pieces with
  | nil =>
    intro p a a' ha
    unfold assembleFrom
    split
    · obtain ⟨more, hmore, heq⟩ := exists_gap (j := j) hr low p high
      rw [heq, heq, Composite.shown_append, ha, hvisible hmore]
    · exact ha
  | cons piece rest ih =>
    intro p a a' ha
    obtain ⟨more, hmore, heq⟩ := exists_front (j := j) hr low p piece
    unfold assembleFrom
    dsimp only
    rw [if_pos rfl, if_neg Bool.false_ne_true]
    refine ih ?_
    unfold Assembled.children
    dsimp only
    rw [Composite.showOnto_eq_shown, List.reverse_append, List.reverse_reverse, heq,
      List.reverse_cons, heq, Composite.shown_append, Composite.shown_append, ha, hvisible hmore]

theorem children_assemble_of_opens (hr : regions.Visible j.table.toComposite) :
    (j.assemble regions true low high pieces).children =
      j.table.shown (j.assemble regions false low high pieces).children :=
  children_assembleFrom_of_opens hr (Composite.shown_nil _).symm

/-- **Whatever is true of visible nodes, and of what is put in for each piece, is true of everything
    that is assembled.** -/
theorem forall_mem_assembleFrom {P : Node → Prop} {opens : Bool}
    (hr : regions.Visible j.table.toComposite) (hvisible : ∀ n, j.table.Visible n → P n) :
    ∀ {p : Nat} {a : Assembled},
      (∀ piece ∈ pieces,
        ∀ n ∈ if opens then j.table.shown [piece.node] else [piece.node], P n) →
      (∀ n ∈ a.children, P n) →
      ∀ n ∈ (j.assembleFrom regions opens low high p a pieces).children, P n := by
  have hjoin : ∀ {ns ms : List Node}, (∀ n ∈ ns, P n) → (∀ n ∈ ms, P n) →
      ∀ n ∈ ns ++ ms, P n := by
    intro ns ms hns hms n hn
    rcases List.mem_append.mp hn with hn | hn
    · exact hns n hn
    · exact hms n hn
  induction pieces with
  | nil =>
    intro p a _ ha
    unfold assembleFrom
    split
    · obtain ⟨more, hmore, heq⟩ := exists_gap (j := j) hr low p high
      rw [heq]
      exact hjoin ha fun n hn => hvisible n (hmore n hn)
    · exact ha
  | cons piece rest ih =>
    intro p a hpieces ha
    obtain ⟨more, hmore, heq⟩ := exists_front (j := j) hr low p piece
    unfold assembleFrom
    dsimp only
    refine ih (fun x hx => hpieces x (List.mem_cons_of_mem _ hx)) ?_
    have hpiece := hpieces piece List.mem_cons_self
    have hfront := hjoin ha fun n hn => hvisible n (hmore n hn)
    unfold Assembled.children
    cases opens with
    | false =>
      dsimp only
      rw [if_neg Bool.false_ne_true, List.reverse_cons, heq]
      exact hjoin hfront hpiece
    | true =>
      dsimp only
      rw [if_pos rfl, Composite.showOnto_eq_shown, List.reverse_append, List.reverse_reverse, heq]
      exact hjoin hfront hpiece

/-- **Everything that is assembled from shallow pieces is visible.** -/
theorem visible_assemble (hr : regions.Visible j.table.toComposite) (low high : Nat)
    (hpieces : ∀ piece ∈ pieces, j.table.Shallow piece.node) :
    ∀ n ∈ (j.assemble regions true low high pieces).children, j.table.Visible n :=
  forall_mem_assembleFrom hr (fun _ h => h)
    (fun piece hpiece _ hn => Composite.visible_of_mem_shown (hpieces piece hpiece) hn)
    fun _ hn => absurd hn List.not_mem_nil

/-- **Over shallow pieces one level of opening is as good as opening as deep as one looks.** -/
theorem flatMap_spliced_assemble (hr : regions.Visible j.table.toComposite) (low high : Nat)
    (hpieces : ∀ piece ∈ pieces, j.table.Shallow piece.node) :
    (j.assemble regions false low high pieces).children.flatMap j.table.spliced =
      (j.assemble regions true low high pieces).children := by
  have hshallow : ∀ n ∈ (j.assemble regions false low high pieces).children, j.table.Shallow n :=
    forall_mem_assembleFrom hr (fun _ h => h.shallow)
      (fun piece hpiece n hn => List.mem_singleton.mp hn ▸ hpieces piece hpiece)
      fun _ hn => absurd hn List.not_mem_nil
  rw [Composite.flatMap_spliced hshallow, children_assemble_of_opens hr]

/-! ## The subtree of a production -/

/-- **Opening at once and opening afterwards come to the same.** -/
theorem eagerLabel_opened (hr : regions.Visible j.table.toComposite) (q before : Nat)
    (hpieces : ∀ piece ∈ pieces.map (Label.opened j.table.toComposite),
      j.table.Shallow piece.node) :
    (j.eagerLabel regions q before (pieces.map (Label.opened j.table.toComposite))).1 =
      (j.reduceLabel regions q before pieces).1.opened j.table.toComposite := by
  have hfirst : (pieces.map (Label.opened j.table.toComposite)).head?.map (·.first) =
      pieces.head?.map (·.first) := by
    rw [List.head?_map, Option.map_map]
    rfl
  have hstop : (pieces.map (Label.opened j.table.toComposite)).getLast?.map (·.stop) =
      pieces.getLast?.map (·.stop) := by
    rw [List.getLast?_map, Option.map_map]
    rfl
  unfold eagerLabel
  dsimp only
  rw [hfirst, hstop, flatMap_spliced_assemble hr _ _ hpieces, assemble_opened]
  unfold reduceLabel Label.opened
  dsimp only
  cases hhidden : (j.table.nonterminal (j.table.production q).lhs).hidden with
  | false =>
    rw [Composite.opened_of_not_hides (show j.table.hides (.rule _ _ _ _ _ _) = false from hhidden)]
    rfl
  | true =>
    rw [Composite.opened_rule hhidden, children_assemble_of_opens hr]
    rfl

/-- Such a subtree is shallow. -/
theorem shallow_eagerLabel (hr : regions.Visible j.table.toComposite) (q before : Nat)
    (hpieces : ∀ piece ∈ pieces, j.table.Shallow piece.node) :
    j.table.Shallow (j.eagerLabel regions q before pieces).1.node := by
  let first := (pieces.head?.map (·.first)).getD 0
  let stop := (pieces.getLast?.map (·.stop)).getD first
  have hvisible := visible_assemble hr first stop hpieces
  rw [← flatMap_spliced_assemble hr first stop hpieces] at hvisible
  exact hvisible

end ParseJob

/-! ## Side by side -/

/-- **Whether the work at one position is the same as another one**, with all subtrees opened. -/
structure Reducing.OpensTo (c : Composite) (r r' : Reducing) : Prop where
  eq : ∃ assembled, r' = { r with stack := r.stack.opened c, assembled }
  shallow : (r.stack.opened c).Shallow c

namespace ParseJob

variable {j : ParseJob} {regions : Regions} {p q : Nat} {r r' : Reducing}

theorem queueAll_opensTo {c : Composite} (h : r.OpensTo c r') (head : Nat) :
    (j.queueAll p r head).OpensTo c (j.queueAll p r' head) := by
  obtain ⟨⟨assembled, rfl⟩, hshallow⟩ := h
  rw [queueAll_eq, queueAll_eq]
  refine ⟨⟨assembled, ?_⟩, hshallow⟩
  rw [Stack.face_opened]

/-- **Putting a subtree into place** and putting it there opened. -/
theorem place_opensTo {c : Composite} (h : r.OpensTo c r') (bottom target : Nat) {label : Label}
    (hlabel : c.Shallow (label.opened c).node) :
    (j.place p r bottom target label).OpensTo c (j.place p r' bottom target (label.opened c)) := by
  obtain ⟨⟨assembled, rfl⟩, hshallow⟩ := h
  have hedge : ∀ e ∈ [Edge.mk bottom (label.opened c)], c.Shallow e.label.node := by
    intro e he
    obtain rfl := List.mem_singleton.mp he
    exact hlabel
  have hhead : (r.stack.opened c).headIn? target = r.stack.headIn? target := rfl
  unfold place
  dsimp only
  rw [hhead]
  cases r.stack.headIn? target with
  | none =>
    dsimp only
    have hpush := Stack.push_opened c r.stack ⟨target, p, label.stop, [⟨bottom, label⟩]⟩
    rw [Stack.size_opened]
    refine queueAll_opensTo ⟨⟨assembled, ?_⟩, ?_⟩ _
    · show Reducing.mk _ _ _ _ _ _ = Reducing.mk (Stack.opened c _) _ _ _ _ _
      rw [hpush]
      rfl
    · show (Stack.opened c (r.stack.push _)).Shallow c
      rw [hpush]
      exact hshallow.push hedge
  | some head =>
    dsimp only
    rw [Stack.edge?_opened]
    cases hfound : r.stack.edge? head bottom with
    | none =>
      rw [Option.map_none]
      dsimp only
      rw [queueVia_eq, queueVia_eq]
      have hadd := Stack.addEdge_opened c r.stack head ⟨bottom, label⟩
      refine ⟨⟨assembled, ?_⟩, ?_⟩
      · show Reducing.mk _ _ _ _ _ _ = Reducing.mk (Stack.opened c _) _ _ _ _ _
        rw [hadd, Stack.face_addEdge, Stack.face_addEdge, Stack.face_opened]
        rfl
      · show (Stack.opened c (r.stack.addEdge _ _)).Shallow c
        rw [hadd]
        exact hshallow.addEdge head hlabel
    | some e =>
      rw [Option.map_some]
      dsimp only
      -- The same subtree wins, as it does by its production.
      have hwins : winsOver (label.opened c) (e.opened c).label = winsOver label e.label := by
        unfold winsOver Edge.opened Label.opened
        dsimp only
        rw [Composite.production?_opened, Composite.production?_opened]
      rw [hwins]
      have hrelabel := Stack.relabel_opened c r.stack head bottom label
      cases winsOver label e.label with
      | false => exact ⟨⟨assembled, rfl⟩, hshallow⟩
      | true =>
        refine ⟨⟨assembled, ?_⟩, ?_⟩
        · show Reducing.mk _ _ _ _ _ _ = Reducing.mk (Stack.opened c _) _ _ _ _ _
          exact congrArg (Reducing.mk · _ _ _ _ _) hrelabel.symm
        · show (Stack.opened c (r.stack.relabel _ _ _)).Shallow c
          rw [hrelabel]
          exact hshallow.relabel head bottom hlabel

/-- All subtrees on a way down are shallow. -/
theorem shallow_of_mem_ways {c : Composite} {s : Stack} (h : s.Shallow c) {length : Nat} :
    ∀ {above : List Label} {i : Nat} {way : Nat × List Label},
      (∀ l ∈ above, c.Shallow l.node) → way ∈ s.ways above i length →
      ∀ l ∈ way.2, c.Shallow l.node := by
  induction length with
  | zero =>
    intro above i way habove hway
    obtain rfl := List.mem_singleton.mp hway
    exact habove
  | succ length ih =>
    intro above i way habove hway
    obtain ⟨e, he, hway⟩ := List.mem_flatMap.mp hway
    refine ih (fun l hl => ?_) hway
    rcases List.mem_cons.mp hl with rfl | hl
    · exact h i e he
    · exact habove l hl

/-- The ways of a task on an opened stack. -/
theorem waysOf_opened {c : Composite} {assembled : Nat} (t : ReduceTask) :
    j.waysOf { r with stack := r.stack.opened c, assembled } t =
      (j.waysOf r t).map fun way => (way.1, way.2.map (Label.opened c)) := by
  unfold waysOf
  cases t.via with
  | none => exact Stack.ways_opened c r.stack _ [] t.head
  | some below => exact Stack.waysVia_opened c r.stack t.head below _

/-- **Finishing a production along a way** and along the way with its subtrees opened. -/
theorem eagerAlong_opensTo (hr : regions.Visible j.table.toComposite)
    (h : r.OpensTo j.table.toComposite r') {way : Nat × List Label}
    (hway : ∀ l ∈ way.2.map (Label.opened j.table.toComposite), j.table.Shallow l.node) :
    (j.reduceAlong regions p q r way).OpensTo j.table.toComposite
      (j.eagerAlong regions p q r' (way.1, way.2.map (Label.opened j.table.toComposite))) := by
  obtain ⟨⟨assembled, rfl⟩, hshallow⟩ := h
  unfold reduceAlong eagerAlong
  dsimp only
  rw [Stack.state_opened]
  cases j.table.goto? (r.stack.state way.1) (j.table.production q).lhs with
  | none => exact ⟨⟨assembled, rfl⟩, hshallow⟩
  | some target =>
    dsimp only
    have heq := eagerLabel_opened hr q (r.stack.state way.1) hway
    rw [heq]
    let work := (j.reduceLabel regions q (r.stack.state way.1) way.2).2
    refine place_opensTo (r := { r with assembled := r.assembled + work }) ⟨⟨_, rfl⟩, hshallow⟩
      way.1 target ?_
    rw [← heq]
    exact shallow_eagerLabel hr q _ hway

theorem eagerPerform_opensTo (hr : regions.Visible j.table.toComposite)
    (h : r.OpensTo j.table.toComposite r') (t : ReduceTask) :
    (j.perform regions p r t).OpensTo j.table.toComposite (j.eagerPerform regions p r' t) := by
  obtain ⟨⟨assembled, rfl⟩, hshallow⟩ := h
  have hways : ∀ way ∈ j.waysOf r t,
      ∀ l ∈ way.2.map (Label.opened j.table.toComposite), j.table.Shallow l.node := by
    intro way hway
    have hmem : (way.1, way.2.map (Label.opened j.table.toComposite)) ∈
        j.waysOf { r with stack := r.stack.opened j.table.toComposite, assembled } t := by
      rw [waysOf_opened]
      exact List.mem_map.mpr ⟨way, hway, rfl⟩
    exact shallow_of_mem_ways hshallow (fun l hl => absurd hl List.not_mem_nil)
      (mem_ways_of_mem_waysOf hmem)
  rw [perform_eq]
  unfold eagerPerform
  rw [waysOf_opened, List.foldl_map]
  refine List.foldl_rel (r := Reducing.OpensTo j.table.toComposite)
    ⟨⟨assembled, rfl⟩, hshallow⟩ fun way hway r r' h => ?_
  exact eagerAlong_opensTo hr h (hways way hway)

theorem eagerPerformAll_opensTo (hr : regions.Visible j.table.toComposite) (fuel : Nat) :
    ∀ {r r' : Reducing}, r.OpensTo j.table.toComposite r' →
      (j.performAll regions p r fuel).OpensTo j.table.toComposite
        (j.eagerPerformAll regions p r' fuel) := by
  induction fuel with
  | zero => exact fun h => h
  | succ fuel ih =>
    rintro r _ ⟨⟨assembled, rfl⟩, hshallow⟩
    unfold performAll eagerPerformAll
    dsimp only
    cases r.tasks[r.begun]? with
    | none => exact ⟨⟨assembled, rfl⟩, hshallow⟩
    | some t =>
      exact ih (eagerPerform_opensTo (r := { r with begun := r.begun + 1 }) hr
        ⟨⟨assembled, rfl⟩, hshallow⟩ t)

end ParseJob

/-- **Whether a parse has come as far as another one**, with all subtrees opened. -/
structure Progress.OpensTo (c : Composite) (s s' : Progress) : Prop where
  eq : ∃ assembled, s' = { s with stack := s.stack.opened c, assembled }
  shallow : (s.stack.opened c).Shallow c
  regions : s.regions.Visible c

/-- **Finishing everything**, and finishing it with all hidden rules opened. -/
theorem Progress.eagerReduceAll_opensTo {j : ParseJob} {s s' : Progress}
    (h : s.OpensTo j.table.toComposite s') :
    (s.reduceAll j).OpensTo j.table.toComposite (s'.eagerReduceAll j) := by
  obtain ⟨⟨assembled, rfl⟩, hshallow, hregions⟩ := h
  have hbegin : (j.begin s).OpensTo j.table.toComposite
      (j.begin { s with stack := s.stack.opened j.table.toComposite, assembled }) :=
    List.foldl_rel (r := Reducing.OpensTo j.table.toComposite) ⟨⟨assembled, rfl⟩, hshallow⟩
      fun head _ r r' h => ParseJob.queueAll_opensTo h head
  have hbound : j.taskBound (s.stack.opened j.table.toComposite) = j.taskBound s.stack := by
    unfold ParseJob.taskBound
    rw [Stack.size_opened]
    rfl
  obtain ⟨⟨work, heq⟩, hshallow'⟩ := ParseJob.eagerPerformAll_opensTo (p := s.position) hregions
    (j.taskBound s.stack) hbegin
  unfold eagerReduceAll
  dsimp only
  rw [hbound, heq]
  exact ⟨⟨work, rfl⟩, hshallow', hregions⟩

end LayeredSyntax
