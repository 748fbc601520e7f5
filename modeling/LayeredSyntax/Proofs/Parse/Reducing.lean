/-
  FINISHING PRODUCTIONS — what is kept while everything that can be finished is finished.

  `place_cases` says once what putting a finished subtree into place does: the stack changes by
  `Stack.placed`, and new tasks go behind those that wait.  From it everything else follows, subtree
  by subtree, task by task.

  **What is kept** is `Reducing.Ok`: the stack stays fresh, all edges go on satisfying whatever is
  closed under finishing a production (`ParseJob.ClosedUnder`), and all tasks are about productions
  that their heads can finish.  The closure is the only thing that has to be shown of a property of
  edges to know it of every stack that a parse makes here (`reduceAll_fresh`).
-/
import LayeredSyntax.Proofs.Parse.Trails
import LayeredSyntax.Proofs.Table.Cells

namespace LayeredSyntax

namespace ParseJob

variable {j : ParseJob} {state p q : Nat}

theorem mem_actions {a : Action} : a ∈ j.actions state p ↔
    ∃ x ∈ j.terminalsAt p, a ∈ j.table.actionsAt state x := List.mem_flatMap

/-- The productions that a state can finish are those of its cells. -/
theorem mem_reductions : q ∈ j.reductions state p ↔
    ∃ x ∈ j.terminalsAt p, .reduce q ∈ j.table.actionsAt state x := by
  unfold reductions
  rw [mem_foldl_addNew, List.mem_filterMap]
  constructor
  · rintro (h | ⟨a, ha, h⟩)
    · cases h
    · obtain ⟨x, hx, ha⟩ := mem_actions.mp ha
      cases a with
      | reduce q' =>
        cases h
        exact ⟨x, hx, ha⟩
      | shift m => cases h
      | accept => cases h
  · rintro ⟨x, hx, ha⟩
    exact .inr ⟨.reduce q, mem_actions.mpr ⟨x, hx, ha⟩, rfl⟩

theorem nodup_reductions (j : ParseJob) (state p : Nat) : (j.reductions state p).Nodup :=
  nodup_foldl_addNew List.nodup_nil

/-- What a production that can be finished is. -/
theorem exists_of_mem_reductions (ht : j.table.Canonical) (h : q ∈ j.reductions state p) :
    ∃ kernel production, j.table.kernel? state = some kernel ∧
      j.table.productions[q]? = some production ∧ production.Short ∧
      .behind q production.rhs.length ∈ kernel ∧ production.rhs ≠ [] := by
  obtain ⟨x, _, hx⟩ := mem_reductions.mp h
  obtain ⟨kernel, production, hkernel, hq, hshort, hitem, _⟩ := ht.reduce hx
  exact ⟨kernel, production, hkernel, hq, hshort, hitem,
    (ht.wellFormed.productions production (Array.mem_of_getElem? hq)).rhs_ne_nil⟩

theorem rhs_length_pos (ht : j.table.Canonical) (h : q ∈ j.reductions state p) :
    0 < (j.table.production q).rhs.length := by
  obtain ⟨_, production, _, hq, _, _, hne⟩ := exists_of_mem_reductions ht h
  rw [Composite.production_eq hq]
  exact List.length_pos_iff.mpr hne

/-! ## Tasks -/

/-- The tasks of a head along all ways. -/
def tasksOf (j : ParseJob) (p head state : Nat) : List ReduceTask :=
  (j.reductions state p).map (ReduceTask.mk head · none)

/-- The tasks of a head through a new edge. -/
def tasksVia (j : ParseJob) (p head state below : Nat) (done : List (Nat × Nat)) :
    List ReduceTask :=
  ((j.reductions state p).filter fun production => done.contains (head, production)).map
    (ReduceTask.mk head · (some below))

theorem foldl_push_tasks (f : Nat → ReduceTask) (ps : List Nat) :
    ∀ r : Reducing,
      ps.foldl (fun r production => { r with tasks := r.tasks.push (f production) }) r =
        { r with tasks := r.tasks ++ ps.map f } := by
  induction ps with
  | nil => intro r; simp
  | cons a ps ih =>
    intro r
    rw [List.foldl_cons, ih]
    simp

theorem queueAll_eq (j : ParseJob) (p : Nat) (r : Reducing) (head : Nat) :
    j.queueAll p r head =
      { r with tasks := r.tasks ++ j.tasksOf p head (r.stack.face head).state } :=
  foldl_push_tasks _ _ r

theorem queueVia_eq (j : ParseJob) (p : Nat) (r : Reducing) (head below : Nat) :
    j.queueVia p r head below =
      { r with tasks := r.tasks ++ j.tasksVia p head (r.stack.face head).state below r.done } :=
  foldl_push_tasks _ _ r

/-! ## Putting a subtree into place -/

variable {base c bottom target : Nat} {label : Label} {r : Reducing}

/-- **What putting a subtree into place does**: there is a new head, whose productions are queued; or
    the edge was there, and nothing is queued; or the edge is new, and what was finished at the head
    is queued through it. -/
theorem place_cases (j : ParseJob) (p : Nat) (r : Reducing) (bottom target : Nat) (label : Label) :
    (r.stack.headIn? target = none ∧ j.place p r bottom target label = { r with
      stack := r.stack.placed p bottom target label
      tasks := r.tasks ++ j.tasksOf p r.stack.nodes.size target }) ∨
    (∃ head e, r.stack.headIn? target = some head ∧ r.stack.edge? head bottom = some e ∧
      j.place p r bottom target label = { r with
        stack := r.stack.placed p bottom target label
        met := true }) ∨
    (∃ head, r.stack.headIn? target = some head ∧ r.stack.edge? head bottom = none ∧
      j.place p r bottom target label = { r with
        stack := r.stack.placed p bottom target label
        tasks := r.tasks ++ j.tasksVia p head (r.stack.face head).state bottom r.done
        met := true }) := by
  cases hhead : r.stack.headIn? target with
  | none =>
    refine .inl ⟨rfl, ?_⟩
    unfold place
    rw [hhead, Stack.placed_eq_push p label hhead]
    dsimp only
    rw [queueAll_eq, Stack.face_push_self]
    rfl
  | some head =>
    cases hedge : r.stack.edge? head bottom with
    | some e =>
      refine .inr (.inl ⟨head, e, rfl, hedge, ?_⟩)
      unfold place
      rw [hhead, Stack.placed_of_edge? p label hhead hedge]
      dsimp only
      rw [hedge]
    | none =>
      refine .inr (.inr ⟨head, rfl, hedge, ?_⟩)
      unfold place
      rw [hhead, Stack.placed_eq_addEdge p label hhead hedge]
      dsimp only
      rw [hedge]
      dsimp only
      rw [queueVia_eq, Stack.face_addEdge]

/-- **A subtree that leads to a state without a head makes a new one.** -/
theorem place_of_none (j : ParseJob) (p bottom : Nat) (label : Label)
    (h : r.stack.headIn? target = none) : j.place p r bottom target label = { r with
      stack := r.stack.push ⟨target, p, label.stop, [⟨bottom, label⟩]⟩
      tasks := r.tasks ++ j.tasksOf p r.stack.nodes.size target } := by
  rcases j.place_cases p r bottom target label with ⟨_, heq⟩ | ⟨_, _, hhead, _⟩ | ⟨_, hhead, _⟩
  · rw [heq, Stack.placed_eq_push p label h]
  all_goals
    rw [h] at hhead
    cases hhead

/-- What putting a subtree into place does on a fresh stack, field by field. -/
theorem place_spec (j : ParseJob) (hs : r.stack.Fresh base p c) (bottom target : Nat)
    (label : Label) : ∃ new : List ReduceTask,
      (j.place p r bottom target label).stack = r.stack.placed p bottom target label ∧
      (j.place p r bottom target label).begun = r.begun ∧
      (j.place p r bottom target label).done = r.done ∧
      (j.place p r bottom target label).tasks.toList = r.tasks.toList ++ new ∧
      ((r.stack.headIn? target = none ∧ new = j.tasksOf p r.stack.nodes.size target) ∨
        (∃ head e, r.stack.headIn? target = some head ∧ r.stack.edge? head bottom = some e ∧
          new = []) ∨
        ∃ head, r.stack.headIn? target = some head ∧ r.stack.edge? head bottom = none ∧
          new = j.tasksVia p head target bottom r.done) := by
  rcases j.place_cases p r bottom target label with
    ⟨hhead, heq⟩ | ⟨head, e, hhead, hedge, heq⟩ | ⟨head, hhead, hedge, heq⟩ <;> rw [heq]
  · exact ⟨_, rfl, rfl, rfl, Array.toList_appendList .., .inl ⟨hhead, rfl⟩⟩
  · exact ⟨[], rfl, rfl, rfl, (List.append_nil _).symm, .inr (.inl ⟨head, e, hhead, hedge, rfl⟩)⟩
  · rw [(hs.of_headIn? hhead).2.2]
    exact ⟨_, rfl, rfl, rfl, Array.toList_appendList .., .inr (.inr ⟨head, hhead, hedge, rfl⟩)⟩

/-- A task that is queued is about a head of a state and a production that it can finish. -/
theorem of_mem_tasksOf {t : ReduceTask} {head : Nat} (h : t ∈ j.tasksOf p head state) :
    t.head = head ∧ t.via = none ∧ t.production ∈ j.reductions state p := by
  obtain ⟨q, hq, rfl⟩ := List.mem_map.mp h
  exact ⟨rfl, rfl, hq⟩

theorem of_mem_tasksVia {t : ReduceTask} {head below : Nat} {done : List (Nat × Nat)}
    (h : t ∈ j.tasksVia p head state below done) :
    t.head = head ∧ t.via = some below ∧ t.production ∈ j.reductions state p := by
  obtain ⟨q, hq, rfl⟩ := List.mem_map.mp h
  exact ⟨rfl, rfl, (List.mem_filter.mp hq).1⟩

/-- The subtree of a production over some pieces. -/
theorem reduceLabel_eq {regions : Regions} {before : Nat} {pieces : List Label} {first last : Label}
    (hfirst : pieces.head? = some first) (hlast : pieces.getLast? = some last) :
    (j.reduceLabel regions q before pieces).1 =
      let n := j.table.nonterminal (j.table.production q).lhs
      ⟨.rule n.name n.grammar (j.table.production q).lhs q before
        (j.assemble regions (!n.hidden) first.first last.stop pieces).children,
        first.first, last.stop⟩ := by
  unfold reduceLabel
  rw [hfirst, hlast]
  rfl

/-! ## What is kept -/

variable {E : Face → Face → Label → Prop} {regions : Regions}

/-- **Whether a property of edges is closed under finishing productions** at a position that is
    covered up to `c`. -/
def ClosedUnder (j : ParseJob) (regions : Regions) (p c : Nat) (E : Face → Face → Label → Prop) :
    Prop :=
  ∀ {bottom top : Face} {pieces : List Label} {q target : Nat}, Trail E bottom pieces top →
    top.position = p → top.covered = c → q ∈ j.reductions top.state p →
    pieces.length = (j.table.production q).rhs.length →
    j.table.goto? bottom.state (j.table.production q).lhs = some target →
    (j.reduceLabel regions q bottom.state pieces).1.stop = c ∧
      E ⟨target, p, c⟩ bottom (j.reduceLabel regions q bottom.state pieces).1

end ParseJob

/-- **What is kept while productions are finished.** -/
structure Reducing.Ok (j : ParseJob) (p base c : Nat) (E : Face → Face → Label → Prop)
    (r : Reducing) : Prop where
  fresh : r.stack.Fresh base p c
  edges : r.stack.Edges E
  tasks : ∀ t ∈ r.tasks.toList, base ≤ t.head ∧ t.head < r.stack.nodes.size ∧
    t.production ∈ j.reductions (r.stack.face t.head).state p

namespace ParseJob

variable {j : ParseJob} {p q base c bottom target : Nat} {label : Label} {r : Reducing}
  {E : Face → Face → Label → Prop} {regions : Regions}

theorem place_ok (hr : r.Ok j p base c E) (hbottom : bottom < base) (hstop : label.stop = c)
    (hnew : E ⟨target, p, c⟩ (r.stack.face bottom) label) :
    (j.place p r bottom target label).Ok j p base c E := by
  obtain ⟨new, hstack, _, _, htasks, hcases⟩ := place_spec j hr.fresh bottom target label
  have hfresh : (r.stack.placed p bottom target label).Fresh base p c :=
    hr.fresh.placed hbottom hstop
  refine ⟨hstack ▸ hfresh, hstack ▸ hr.edges.placed hr.fresh hbottom hstop hnew, fun t ht => ?_⟩
  rw [htasks] at ht
  rw [hstack]
  rcases List.mem_append.mp ht with ht | ht
  · obtain ⟨hbase, hlt, hq⟩ := hr.tasks t ht
    refine ⟨hbase, Nat.lt_of_lt_of_le hlt (Stack.size_le_placed _ _ _ _ _), ?_⟩
    rw [Stack.face_placed hlt]
    exact hq
  · rcases hcases with ⟨hhead, rfl⟩ | ⟨_, _, _, _, rfl⟩ | ⟨head, hhead, _, rfl⟩
    · obtain ⟨heq, _, hq⟩ := of_mem_tasksOf ht
      rw [heq]
      obtain ⟨hsize, _, hface⟩ :=
        @Stack.placed_of_none r.stack p c bottom target label hhead hstop
      rw [hface]
      exact ⟨hr.fresh.base_le, by omega, hq⟩
    · cases ht
    · obtain ⟨heq, _, hq⟩ := of_mem_tasksVia ht
      obtain ⟨hbase, hlt, hface⟩ := hr.fresh.of_headIn? hhead
      rw [heq, Stack.face_placed hlt, hface]
      exact ⟨hbase, Nat.lt_of_lt_of_le hlt (Stack.size_le_placed _ _ _ _ _), hq⟩

theorem place_kept (hr : r.Ok j p base c E) (bottom target : Nat) (label : Label) :
    Stack.Kept base r.stack (j.place p r bottom target label).stack := by
  obtain ⟨_, hstack, _⟩ := place_spec j hr.fresh bottom target label
  rw [hstack]
  exact hr.fresh.kept_placed _ _ _

/-- Putting a subtree into place begins no task. -/
theorem begun_place (hr : r.Ok j p base c E) (bottom target : Nat) (label : Label) :
    (j.place p r bottom target label).begun = r.begun := by
  obtain ⟨_, _, hbegun, _⟩ := place_spec j hr.fresh bottom target label
  exact hbegun

/-- A way along which a production can be finished. -/
structure Way (j : ParseJob) (p base c : Nat) (E : Face → Face → Label → Prop) (q : Nat)
    (r : Reducing) (way : Nat × List Label) : Prop where
  bottom_lt : way.1 < base
  trail : ∃ top : Face, Trail E (r.stack.face way.1) way.2 top ∧ top.position = p ∧
    top.covered = c ∧ q ∈ j.reductions top.state p
  length : way.2.length = (j.table.production q).rhs.length

/-- The ways of a task. -/
def waysOf (j : ParseJob) (r : Reducing) (t : ReduceTask) : List (Nat × List Label) :=
  match t.via with
  | none => r.stack.ways [] t.head (j.table.production t.production).rhs.length
  | some below => r.stack.waysVia t.head below (j.table.production t.production).rhs.length

theorem perform_eq (j : ParseJob) (regions : Regions) (p : Nat) (r : Reducing) (t : ReduceTask) :
    j.perform regions p r t = (j.waysOf r t).foldl (j.reduceAlong regions p t.production)
      { r with done := if t.via.isNone then (t.head, t.production) :: r.done else r.done } := rfl

theorem mem_ways_of_mem_waysOf {t : ReduceTask} {way : Nat × List Label}
    (h : way ∈ j.waysOf r t) :
    way ∈ r.stack.ways [] t.head (j.table.production t.production).rhs.length := by
  unfold waysOf at h
  split at h
  · exact h
  · exact Stack.mem_ways_of_mem_waysVia h

/-- Every way of a task is one along which its production can be finished. -/
theorem way_of_mem_waysOf (ht : j.table.Canonical) (hr : r.Ok j p base c E) {t : ReduceTask}
    (htask : t ∈ r.tasks.toList) {way : Nat × List Label} (h : way ∈ j.waysOf r t) :
    Way j p base c E t.production r way := by
  obtain ⟨hbase, hlt, hq⟩ := hr.tasks t htask
  obtain ⟨hp, hc⟩ := hr.fresh.top t.head hbase hlt
  have hmem := mem_ways_of_mem_waysOf h
  obtain ⟨front, hfront, hlen, htrail⟩ := Stack.trail_of_mem_ways hr.edges hmem
  rw [List.append_nil] at hfront
  have hpath := Stack.path_of_mem_ways hmem
  obtain ⟨n, hn⟩ := Nat.exists_eq_succ_of_ne_zero (Nat.ne_of_gt (rhs_length_pos ht hq))
  rw [hn] at hpath
  exact ⟨hr.fresh.path_lt_base hbase hpath, ⟨_, hfront ▸ htrail, hp, hc, hq⟩, hfront ▸ hlen⟩

/-- Finishing a production along one way puts its subtree into place, or does nothing. -/
theorem reduceAlong_cases (j : ParseJob) (regions : Regions) (p q : Nat) (r : Reducing)
    (way : Nat × List Label) :
    (j.table.goto? (r.stack.face way.1).state (j.table.production q).lhs = none ∧
      j.reduceAlong regions p q r way = r) ∨
    ∃ target work,
      j.table.goto? (r.stack.face way.1).state (j.table.production q).lhs = some target ∧
      j.reduceAlong regions p q r way = j.place p { r with assembled := r.assembled + work } way.1
        target (j.reduceLabel regions q (r.stack.face way.1).state way.2).1 := by
  have hstate : (r.stack.face way.1).state = r.stack.state way.1 := rfl
  unfold reduceAlong
  rw [hstate]
  dsimp only
  cases j.table.goto? (r.stack.state way.1) (j.table.production q).lhs with
  | none => exact .inl ⟨rfl, rfl⟩
  | some target => exact .inr ⟨target, _, rfl, rfl⟩

theorem reduceAlong_ok (hE : j.ClosedUnder regions p c E) (hr : r.Ok j p base c E)
    {way : Nat × List Label} (hway : Way j p base c E q r way) :
    (j.reduceAlong regions p q r way).Ok j p base c E ∧
      Stack.Kept base r.stack (j.reduceAlong regions p q r way).stack ∧
      (j.reduceAlong regions p q r way).begun = r.begun := by
  obtain ⟨top, htrail, hp, hc, hq⟩ := hway.trail
  rcases reduceAlong_cases j regions p q r way with ⟨_, heq⟩ | ⟨target, work, hgoto, heq⟩
  · rw [heq]
    exact ⟨hr, .refl _ _, rfl⟩
  · rw [heq]
    obtain ⟨hstop, hnew⟩ := hE htrail hp hc hq hway.length hgoto
    have hr' : Reducing.Ok j p base c E { r with assembled := r.assembled + work } :=
      ⟨hr.fresh, hr.edges, hr.tasks⟩
    exact ⟨place_ok hr' hway.bottom_lt hstop hnew, place_kept hr' _ _ _, begun_place hr' _ _ _⟩

/-- A way stays one while its stack is kept. -/
theorem Way.kept {way : Nat × List Label} {r' : Reducing} (hr : r.Ok j p base c E)
    (h : Way j p base c E q r way) (hkept : Stack.Kept base r.stack r'.stack) :
    Way j p base c E q r' way := by
  refine ⟨h.bottom_lt, ?_, h.length⟩
  rw [hkept.face _ (Nat.lt_of_lt_of_le h.bottom_lt hr.fresh.base_le)]
  exact h.trail

/-- Finishing a production along several ways. -/
theorem foldl_reduceAlong_ok (hE : j.ClosedUnder regions p c E) (ways : List (Nat × List Label)) :
    ∀ r : Reducing, r.Ok j p base c E → (∀ way ∈ ways, Way j p base c E q r way) →
      let r' := ways.foldl (j.reduceAlong regions p q) r
      r'.Ok j p base c E ∧ Stack.Kept base r.stack r'.stack ∧ r'.begun = r.begun := by
  induction ways with
  | nil => exact fun r hr _ => ⟨hr, .refl _ _, rfl⟩
  | cons way ways ih =>
    intro r hr hways
    obtain ⟨hok, hkept, hbegun⟩ := reduceAlong_ok hE hr (hways way List.mem_cons_self)
    obtain ⟨hok', hkept', hbegun'⟩ := ih _ hok fun way' hway' =>
      (hways way' (List.mem_cons_of_mem _ hway')).kept hr hkept
    exact ⟨hok', hkept.trans hkept', hbegun'.trans hbegun⟩

/-- **Seeing to a task keeps what is kept.** -/
theorem perform_ok (ht : j.table.Canonical) (hE : j.ClosedUnder regions p c E)
    (hr : r.Ok j p base c E) {t : ReduceTask} (htask : t ∈ r.tasks.toList) :
    (j.perform regions p r t).Ok j p base c E ∧
      Stack.Kept base r.stack (j.perform regions p r t).stack ∧
      (j.perform regions p r t).begun = r.begun := by
  rw [perform_eq]
  refine foldl_reduceAlong_ok hE _ _ ⟨hr.fresh, hr.edges, hr.tasks⟩ fun way hway => ?_
  obtain ⟨hlt, htrail, hlen⟩ := way_of_mem_waysOf ht hr htask hway
  exact ⟨hlt, htrail, hlen⟩

theorem performAll_ok (ht : j.table.Canonical) (hE : j.ClosedUnder regions p c E) (fuel : Nat) :
    ∀ r : Reducing, r.Ok j p base c E → (j.performAll regions p r fuel).Ok j p base c E ∧
      Stack.Kept base r.stack (j.performAll regions p r fuel).stack := by
  induction fuel with
  | zero => exact fun r hr => ⟨hr, .refl _ _⟩
  | succ fuel ih =>
    intro r hr
    unfold performAll
    split
    · exact ⟨hr, .refl _ _⟩
    · next t ht' =>
      have hr' : Reducing.Ok j p base c E { r with begun := r.begun + 1 } :=
        ⟨hr.fresh, hr.edges, hr.tasks⟩
      obtain ⟨hok, hkept, _⟩ :=
        perform_ok ht hE hr' (Array.mem_toList_iff.mpr (Array.mem_of_getElem? ht'))
      obtain ⟨hok', hkept'⟩ := ih _ hok
      exact ⟨hok', hkept.trans hkept'⟩

/-! ## Everything that can be finished -/

/-- What is to be finished in the beginning. -/
def begin (j : ParseJob) (s : Progress) : Reducing :=
  s.stack.heads.foldl (j.queueAll s.position) ⟨s.stack, #[], 0, [], false, s.assembled⟩

theorem foldl_queueAll (j : ParseJob) (p : Nat) (heads : List Nat) :
    ∀ r : Reducing, heads.foldl (j.queueAll p) r = { r with
      tasks := r.tasks ++
        heads.flatMap fun head => j.tasksOf p head (r.stack.face head).state } := by
  induction heads with
  | nil => intro r; simp
  | cons head heads ih =>
    intro r
    rw [List.foldl_cons, queueAll_eq, ih, List.flatMap_cons]
    dsimp only
    congr 1
    exact Array.toList_inj.mp (by simp)

theorem begin_eq (j : ParseJob) (s : Progress) : j.begin s = ⟨s.stack,
    (s.stack.heads.flatMap fun head =>
      j.tasksOf s.position head (s.stack.face head).state).toArray, 0, [], false, s.assembled⟩ := by
  unfold begin
  rw [foldl_queueAll]
  simp

theorem begin_ok {s : Progress} (hs : s.stack.Fresh base s.position c) (hE : s.stack.Edges E) :
    (j.begin s).Ok j s.position base c E := by
  rw [begin_eq]
  refine ⟨hs, hE, fun t ht => ?_⟩
  obtain ⟨head, hhead, ht⟩ := List.mem_flatMap.mp ht
  obtain ⟨heq, _, hq⟩ := of_mem_tasksOf ht
  obtain ⟨hbase, hlt⟩ := hs.mem_heads.mp hhead
  rw [heq]
  exact ⟨hbase, hlt, hq⟩

/-- **Finishing everything keeps the stack fresh, and what holds of its edges.** -/
theorem reduceAll_fresh (ht : j.table.Canonical) {s : Progress}
    (hE : j.ClosedUnder s.regions s.position c E) (hs : s.stack.Fresh base s.position c)
    (hedges : s.stack.Edges E) :
    (s.reduceAll j).stack.Fresh base s.position c ∧ (s.reduceAll j).stack.Edges E ∧
      Stack.Kept base s.stack (s.reduceAll j).stack := by
  obtain ⟨hok, hkept⟩ := performAll_ok ht hE (j.taskBound s.stack) _ (begin_ok hs hedges)
  have hstack : (j.begin s).stack = s.stack := by rw [begin_eq]
  rw [hstack] at hkept
  exact ⟨hok.fresh, hok.edges, hkept⟩

end ParseJob

end LayeredSyntax
