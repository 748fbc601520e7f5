/-
  NOTHING IS LEFT TO FINISH — the queue of tasks runs out, and then every way has been gone.

  1. COUNTING.  A task waits at most once, and it is about a head, a production and an older node or
     none.  There are fewer such tasks than `taskBound` (`length_tasks_le`), so the fuel is never
     used up, however the productions of a grammar go around in circles.
  2. COVERING.  Every way along which a production can be finished has been gone, or is waited for:
     by a task of its head along all ways, or by a task through its first edge (`Reducing.Covers`).
     Where a way has been gone, no production declared behind the one in hand is on the edge, then
     or later (`Stack.Decided`).

  **The crux** is that a new edge makes only those ways new that begin with it.  The productions
  that its head has finished before are queued again through this edge; for the others the task
  along all ways still waits.  When nothing waits any more, everything has been finished
  (`reduceAll_decided`).
-/
import Mathlib.Data.Finset.Prod
import LayeredSyntax.Proofs.Parse.Reducing

namespace LayeredSyntax

/-- The tasks that have not been begun. -/
def Reducing.waiting (r : Reducing) : List ReduceTask := r.tasks.toList.drop r.begun

/-- **What makes the tasks few.**  Nodes from `first` on were made here. -/
structure Reducing.Counted (j : ParseJob) (first : Nat) (r : Reducing) : Prop where
  first_le : first ≤ r.stack.nodes.size
  nodup : r.tasks.toList.Nodup
  begun_le : r.begun ≤ r.tasks.toList.length
  via : ∀ t ∈ r.tasks.toList, ∀ b, t.via = some b → ∃ e ∈ r.stack.edges t.head, e.below = b
  states : ∀ i, first ≤ i → i < r.stack.nodes.size → (r.stack.face i).state < j.table.stateCount

/-- **Every way has been gone or is waited for**; of a task that has been begun the ways to the
    nodes of `rest` are left. -/
structure Reducing.Covers (j : ParseJob) (p base c : Nat) (task : ReduceTask) (rest : List Nat)
    (r : Reducing) : Prop where
  all : ∀ h q, base ≤ h → h < r.stack.nodes.size → q ∈ j.reductions (r.stack.face h).state p →
    (h, q) ∈ r.done ∨ ⟨h, q, none⟩ ∈ r.waiting
  ways : ∀ h q n b target, base ≤ h → h < r.stack.nodes.size →
    q ∈ j.reductions (r.stack.face h).state p → (j.table.production q).rhs.length = n + 1 →
    r.stack.Path h (n + 1) b →
    j.table.goto? (r.stack.face b).state (j.table.production q).lhs = some target →
    r.stack.Decided base ⟨target, p, c⟩ b q ∨ ⟨h, q, none⟩ ∈ r.waiting ∨
      (∃ e ∈ r.stack.edges h, r.stack.Path e.below n b ∧ ⟨h, q, some e.below⟩ ∈ r.waiting) ∨
      (h = task.head ∧ q = task.production ∧ b ∈ rest)

namespace ParseJob

variable {j : ParseJob} {p q base c first bottom target : Nat} {label : Label} {r : Reducing}
  {E : Face → Face → Label → Prop} {regions : Regions}

/-! ## Counting -/

theorem nodup_tasksOf (j : ParseJob) (p head state : Nat) : (j.tasksOf p head state).Nodup :=
  (j.nodup_reductions state p).map fun _ _ h => congrArg ReduceTask.production h

theorem nodup_tasksVia (j : ParseJob) (p head state below : Nat) (done : List (Nat × Nat)) :
    (j.tasksVia p head state below done).Nodup :=
  ((j.nodup_reductions state p).filter _).map fun _ _ h => congrArg ReduceTask.production h

/-- A state that a nonterminal leads to is one of the states. -/
theorem lt_stateCount_of_goto? (ht : j.table.Canonical) {state a : Nat}
    (h : j.table.goto? state a = some target) : target < j.table.stateCount := by
  obtain ⟨_, _, _, htarget, _⟩ := ht.goto h
  obtain ⟨row, hrow, _⟩ := Option.map_eq_some_iff.mp htarget
  exact (Array.getElem?_eq_some_iff.mp hrow).1

/-- Every edge that a task goes through is there when a subtree has been put into place. -/
theorem via_place (hr : r.Ok j p base c E) (hcount : r.Counted j first) (hstop : label.stop = c)
    {t : ReduceTask} (ht : t ∈ (j.place p r bottom target label).tasks.toList) {b : Nat}
    (hb : t.via = some b) :
    ∃ e ∈ (r.stack.placed p bottom target label).edges t.head, e.below = b := by
  obtain ⟨new, _, _, _, htasks, hcases⟩ := place_spec j hr.fresh bottom target label
  rw [htasks] at ht
  rcases List.mem_append.mp ht with ht | ht
  · obtain ⟨e, he, hbelow⟩ := hcount.via t ht b hb
    obtain ⟨e', he', hbelow'⟩ := Stack.exists_edge_placed p bottom target label he
    exact ⟨e', he', hbelow'.trans hbelow⟩
  · rcases hcases with ⟨_, rfl⟩ | ⟨_, _, _, _, rfl⟩ | ⟨head, hhead, _, rfl⟩
    · rw [(of_mem_tasksOf ht).2.1] at hb
      cases hb
    · cases ht
    · obtain ⟨heq, hvia', _⟩ := of_mem_tasksVia ht
      rw [hvia'] at hb
      cases hb
      obtain ⟨i, hi, hlt, hface, e, he, hbelow⟩ :=
        @Stack.Fresh.joined_placed r.stack base p c bottom target label hr.fresh hstop
      -- The head that is joined is the one in the state.
      obtain ⟨hbase, hlt', hface'⟩ := hr.fresh.of_headIn? hhead
      have hsize := (@Stack.placed_of_some r.stack p bottom target label head hhead).1
      have hieq : i = head := by
        refine hr.fresh.inj i head hi (hsize ▸ hlt) hbase hlt' ?_
        rw [← Stack.face_placed (hsize ▸ hlt), hface, hface']
      exact ⟨e, heq ▸ hieq ▸ he, hbelow⟩

/-- **Putting a subtree into place queues no task again.** -/
theorem place_counted (hr : r.Ok j p base c E) (hcount : r.Counted j first)
    (hstop : label.stop = c) (hstate : target < j.table.stateCount) :
    (j.place p r bottom target label).Counted j first := by
  obtain ⟨new, hstack, hbegun, _, htasks, hcases⟩ := place_spec j hr.fresh bottom target label
  refine ⟨Nat.le_trans hcount.first_le (place_kept hr _ _ _).size_le, ?_, ?_,
    fun t ht b hb => hstack ▸ via_place hr hcount hstop ht hb, fun i hi hlt => ?_⟩
  · rw [htasks]
    refine List.nodup_append.mpr ⟨hcount.nodup, ?_, ?_⟩
    · rcases hcases with ⟨_, rfl⟩ | ⟨_, _, _, _, rfl⟩ | ⟨head, _, _, rfl⟩
      · exact nodup_tasksOf _ _ _ _
      · exact List.nodup_nil
      · exact nodup_tasksVia _ _ _ _ _ _
    · rintro t ht t' ht' rfl
      rcases hcases with ⟨_, rfl⟩ | ⟨_, _, _, _, rfl⟩ | ⟨head, _, hedge, rfl⟩
      · -- The head is new.
        have hlt := (hr.tasks t ht).2.1
        have heq := (of_mem_tasksOf ht').1
        omega
      · cases ht'
      · -- The edge is new.
        obtain ⟨heq, hvia', _⟩ := of_mem_tasksVia ht'
        obtain ⟨e, he, hbelow⟩ := hcount.via t ht _ hvia'
        exact Stack.below_ne_of_edge? hedge (heq ▸ he) hbelow
  · rw [hbegun, htasks, List.length_append]
    exact Nat.le_add_right_of_le hcount.begun_le
  · rw [hstack] at hlt ⊢
    rcases Nat.lt_or_ge i r.stack.nodes.size with hlt' | hge
    · rw [Stack.face_placed hlt']
      exact hcount.states i hi hlt'
    · cases hhead : r.stack.headIn? target with
      | some head =>
        rw [(@Stack.placed_of_some r.stack p bottom target label head hhead).1] at hlt
        omega
      | none =>
        obtain ⟨hsize, _, hface⟩ :=
          @Stack.placed_of_none r.stack p c bottom target label hhead hstop
        obtain rfl : i = r.stack.nodes.size := by omega
        rw [hface]
        exact hstate

/-- The heads that were made here are in different states. -/
theorem heads_le (hr : r.Ok j p base c E) (hcount : r.Counted j first) (hbase : base ≤ first) :
    r.stack.nodes.size - first ≤ j.table.stateCount := by
  have hfirst := hcount.first_le
  have hnodup : ((List.range' first (r.stack.nodes.size - first)).map fun i =>
      (r.stack.face i).state).Nodup := by
    refine (List.nodup_range' 1 Nat.one_pos).map_on fun a ha b hb hab => ?_
    rw [List.mem_range'_1] at ha hb
    exact hr.fresh.inj a b (by omega) (by omega) (by omega) (by omega) hab
  have hsub : ((List.range' first (r.stack.nodes.size - first)).map fun i =>
      (r.stack.face i).state).toFinset ⊆ Finset.range j.table.stateCount := by
    intro x hx
    obtain ⟨i, hi, rfl⟩ := List.mem_map.mp (List.mem_toFinset.mp hx)
    rw [List.mem_range'_1] at hi
    exact Finset.mem_range.mpr (hcount.states i hi.1 (by omega))
  have hcard := Finset.card_le_card hsub
  rw [List.toFinset_card_of_nodup hnodup, List.length_map, List.length_range',
    Finset.card_range] at hcard
  exact hcard

/-- What a task is known by: its head, its production and the node that its edge leads to. -/
def codeOf (base : Nat) (t : ReduceTask) : Nat × Nat × Nat :=
  (t.head - base, t.production, t.via.elim 0 Nat.succ)

theorem nodup_codes (hr : r.Ok j p base c E) (hcount : r.Counted j first) :
    (r.tasks.toList.map (codeOf base)).Nodup := by
  refine hcount.nodup.map_on fun a ha b hb hab => ?_
  obtain ⟨hhead, hrest⟩ := Prod.mk.inj hab
  obtain ⟨hprod, hvia⟩ := Prod.mk.inj hrest
  have hbase := (hr.tasks a ha).1
  have hbase' := (hr.tasks b hb).1
  have hhead' : a.head = b.head := by omega
  -- No edge and the edge to a node have different codes.
  have hvia' : a.via = b.via := by
    cases hav : a.via with
    | none =>
      cases hbv : b.via with
      | none => rfl
      | some y =>
        rw [hav, hbv] at hvia
        cases hvia
    | some x =>
      cases hbv : b.via with
      | none =>
        rw [hav, hbv] at hvia
        cases hvia
      | some y =>
        rw [hav, hbv] at hvia
        exact congrArg some (Nat.succ.inj hvia)
  cases a
  cases b
  exact ReduceTask.mk.injEq .. ▸ ⟨hhead', hprod, hvia'⟩

/-- **There are fewer tasks than the bound.** -/
theorem length_tasks_le (ht : j.table.Canonical) (hr : r.Ok j p base c E)
    (hcount : r.Counted j first) (hbase : base ≤ first) :
    r.tasks.toList.length ≤
      (j.table.stateCount + (first - base)) * j.table.productions.size * (base + 1) := by
  have hheads := heads_le hr hcount hbase
  have hsub : (r.tasks.toList.map (codeOf base)).toFinset ⊆
      Finset.range (j.table.stateCount + (first - base)) ×ˢ
        Finset.range j.table.productions.size ×ˢ Finset.range (base + 1) := by
    intro x hx
    obtain ⟨t, htask, rfl⟩ := List.mem_map.mp (List.mem_toFinset.mp hx)
    obtain ⟨hb, hlt, hq⟩ := hr.tasks t htask
    obtain ⟨_, _, _, hprod, _⟩ := exists_of_mem_reductions ht hq
    have hhead : t.head - base < j.table.stateCount + (first - base) := by omega
    refine Finset.mem_product.mpr ⟨Finset.mem_range.mpr hhead, Finset.mem_product.mpr
      ⟨Finset.mem_range.mpr (Array.getElem?_eq_some_iff.mp hprod).1, Finset.mem_range.mpr ?_⟩⟩
    unfold codeOf
    cases hvia : t.via with
    | none => exact Nat.succ_pos _
    | some b =>
      obtain ⟨e, he, hbelow⟩ := hcount.via t htask b hvia
      have := (hr.fresh.down _ _ he).2 hb
      show b + 1 < base + 1
      omega
  have hcard := Finset.card_le_card hsub
  rw [List.toFinset_card_of_nodup (nodup_codes hr hcount), List.length_map, Finset.card_product,
    Finset.card_product, Finset.card_range, Finset.card_range, Finset.card_range] at hcard
  rw [Nat.mul_assoc]
  exact hcard

/-! ## Covering -/

/-- Tasks that are queued wait. -/
theorem waiting_place (hcount : r.Counted j first)
    {new : List ReduceTask} {r' : Reducing} (hbegun : r'.begun = r.begun)
    (htasks : r'.tasks.toList = r.tasks.toList ++ new) : r'.waiting = r.waiting ++ new := by
  unfold Reducing.waiting
  rw [hbegun, htasks, List.drop_append_of_le_length hcount.begun_le]

/-- Tasks go on waiting when a subtree is put into place. -/
theorem mem_waiting_place (hr : r.Ok j p base c E) (hcount : r.Counted j first) {t : ReduceTask}
    (ht : t ∈ r.waiting) : t ∈ (j.place p r bottom target label).waiting := by
  obtain ⟨new, _, hbegun, _, htasks, _⟩ := place_spec j hr.fresh bottom target label
  rw [waiting_place hcount hbegun htasks]
  exact List.mem_append_left _ ht

/-- **Of a new head all productions are queued.** -/
theorem new_head_waits (hr : r.Ok j p base c E) (hcount : r.Counted j first)
    (hstop : label.stop = c) {h : Nat}
    (hlt : h < (r.stack.placed p bottom target label).nodes.size)
    (hge : r.stack.nodes.size ≤ h)
    (hq : q ∈ j.reductions ((r.stack.placed p bottom target label).face h).state p) :
    ⟨h, q, none⟩ ∈ (j.place p r bottom target label).waiting := by
  obtain ⟨new, _, hbegun, _, htasks, hcases⟩ := place_spec j hr.fresh bottom target label
  rw [waiting_place hcount hbegun htasks]
  refine List.mem_append_right _ ?_
  cases hhead : r.stack.headIn? target with
  | some head =>
    rw [(@Stack.placed_of_some r.stack p bottom target label head hhead).1] at hlt
    exact absurd hlt (Nat.not_lt.mpr hge)
  | none =>
    obtain ⟨hsize, _, hface⟩ := @Stack.placed_of_none r.stack p c bottom target label hhead hstop
    obtain rfl : h = r.stack.nodes.size := by omega
    rw [hface] at hq
    rcases hcases with ⟨_, rfl⟩ | ⟨_, _, hsome, _, _⟩ | ⟨_, hsome, _, _⟩
    · exact List.mem_map_of_mem hq
    · rw [hhead] at hsome
      cases hsome
    · rw [hhead] at hsome
      cases hsome

variable {task : ReduceTask} {rest : List Nat} {h n b t : Nat}

/-- What is covered stays covered when a subtree is put into place. -/
theorem old_way_covered (bottom target : Nat) (label : Label) (hr : r.Ok j p base c E)
    (hcount : r.Counted j first) (hcovers : r.Covers j p base c task rest) (hb : base ≤ h)
    (hlt : h < r.stack.nodes.size)
    (hq : q ∈ j.reductions (r.stack.face h).state p)
    (hlen : (j.table.production q).rhs.length = n + 1) (hpath : r.stack.Path h (n + 1) b)
    (hgoto : j.table.goto? (r.stack.face b).state (j.table.production q).lhs = some t) :
    (r.stack.placed p bottom target label).Decided base ⟨t, p, c⟩ b q ∨
      ⟨h, q, none⟩ ∈ (j.place p r bottom target label).waiting ∨
      (∃ e ∈ (r.stack.placed p bottom target label).edges h,
        (r.stack.placed p bottom target label).Path e.below n b ∧
          ⟨h, q, some e.below⟩ ∈ (j.place p r bottom target label).waiting) ∨
      (h = task.head ∧ q = task.production ∧ b ∈ rest) := by
  rcases hcovers.ways h q n b t hb hlt hq hlen hpath hgoto with
    hj | hw | ⟨e, he, hpath', hw⟩ | hrest
  · exact .inl (hj.placed p bottom target label)
  · exact .inr (.inl (mem_waiting_place hr hcount hw))
  · obtain ⟨e', he', hbelow⟩ := Stack.exists_edge_placed p bottom target label he
    refine .inr (.inr (.inl ⟨e', he', ?_, mem_waiting_place hr hcount (hbelow ▸ hw)⟩))
    rw [hbelow]
    exact hpath'.kept (hr.fresh.kept_placed _ _ _)
  · exact .inr (.inr (.inr hrest))

/-- **A production that was finished at a head before a subtree was put on a new edge of it** waits
    to be finished through that edge. -/
theorem new_edge_waits (label : Label) (hr : r.Ok j p base c E) (hcount : r.Counted j first)
    (hhead : r.stack.headIn? target = some h) (hedge : r.stack.edge? h bottom = none)
    (hlt : h < r.stack.nodes.size) (hq : q ∈ j.reductions target p) (hdone : (h, q) ∈ r.done) :
    (∃ e ∈ (r.stack.placed p bottom target label).edges h, e.below = bottom) ∧
      ⟨h, q, some bottom⟩ ∈ (j.place p r bottom target label).waiting := by
  obtain ⟨new, _, hbegun, _, htasks, hcases⟩ := place_spec j hr.fresh bottom target label
  constructor
  · rw [Stack.placed_eq_addEdge p label hhead hedge, Stack.edges_addEdge, if_pos ⟨rfl, hlt⟩]
    exact ⟨_, List.mem_append_right _ List.mem_cons_self, rfl⟩
  · rw [waiting_place hcount hbegun htasks]
    refine List.mem_append_right _ ?_
    rcases hcases with ⟨hnone, _⟩ | ⟨head, _, hhead', hsome, _⟩ | ⟨head, hhead', _, rfl⟩
    · rw [hhead] at hnone
      cases hnone
    · obtain rfl : h = head := Option.some.inj (hhead.symm.trans hhead')
      rw [hedge] at hsome
      cases hsome
    · obtain rfl : h = head := Option.some.inj (hhead.symm.trans hhead')
      exact List.mem_map_of_mem (List.mem_filter.mpr ⟨hq, List.contains_iff_mem.mpr hdone⟩)

/-- **Putting a subtree into place keeps every way covered.** -/
theorem place_covers (hr : r.Ok j p base c E) (hcount : r.Counted j first)
    (hcovers : r.Covers j p base c task rest) (hbottom : bottom < base) (hstop : label.stop = c) :
    (j.place p r bottom target label).Covers j p base c task rest := by
  obtain ⟨_, hstack, _, hdone, _, hcases⟩ := place_spec j hr.fresh bottom target label
  refine ⟨fun h q hb hlt hq => ?_, fun h q n b t hb hlt hq hlen hpath hgoto => ?_⟩
  · rw [hstack] at hlt hq
    rw [hdone]
    rcases Nat.lt_or_ge h r.stack.nodes.size with hold | hnew
    · rw [Stack.face_placed hold] at hq
      rcases hcovers.all h q hb hold hq with hd | hw
      · exact .inl hd
      · exact .inr (mem_waiting_place hr hcount hw)
    · exact .inr (new_head_waits hr hcount hstop hlt hnew hq)
  · rw [hstack] at hlt hq hpath hgoto ⊢
    rcases Nat.lt_or_ge h r.stack.nodes.size with hold | hnew
    · have hblt : b < r.stack.nodes.size := by
        rcases hr.fresh.path_of_placed hbottom hstop hb hpath with hpath' | ⟨_, hpath'⟩
        · exact Nat.lt_of_le_of_lt (hr.fresh.path_le hpath') hold
        · have := hr.fresh.path_le hpath'
          omega
      rw [Stack.face_placed hold] at hq
      rw [Stack.face_placed hblt] at hgoto
      have holdpath := fun hpath =>
        old_way_covered bottom target label hr hcount hcovers hb hold hq hlen hpath hgoto
      -- A way of the new stack is an old one, or it begins with the new subtree.
      rcases hr.fresh.path_of_placed hbottom hstop hb hpath with hpath' | ⟨hface, hpath'⟩
      · exact holdpath hpath'
      · rw [Stack.face_placed hold] at hface
        have hsame : ∀ {head}, r.stack.headIn? target = some head → h = head := by
          intro head hhead
          obtain ⟨hbase', hlt', hface'⟩ := hr.fresh.of_headIn? hhead
          exact hr.fresh.inj h head hb hold hbase' hlt' (by rw [hface, hface'])
        rcases hcases with ⟨hnone, _⟩ | ⟨head, e, hhead, hedge, _⟩ | ⟨head, hhead, hedge, _⟩
        · exact absurd (congrArg Face.state hface) (hr.fresh.state_ne hnone hb hold)
        · -- The edge was there before.
          obtain rfl := hsame hhead
          obtain ⟨he, hbelow⟩ := Stack.mem_of_edge? hedge
          exact holdpath ⟨e, he, hbelow.symm ▸ hpath'⟩
        · -- The edge is new: the production waits through it, or along all ways.
          obtain rfl := hsame hhead
          rcases hcovers.all h q hb hold hq with hd | hw
          · rw [hface] at hq
            obtain ⟨⟨e, he, hbelow⟩, hwaits⟩ :=
              new_edge_waits label hr hcount hhead hedge hold hq hd
            refine .inr (.inr (.inl ⟨e, he, ?_, hbelow.symm ▸ hwaits⟩))
            rw [hbelow]
            exact hpath'.kept (hr.fresh.kept_placed _ _ _)
          · exact .inr (.inl (mem_waiting_place hr hcount hw))
    · exact .inr (.inl (new_head_waits hr hcount hstop hlt hnew hq))

/-- Finishing a production along a way that was left leaves the others. -/
theorem reduceAlong_covers {task : ReduceTask} {rest : List Nat} {way : Nat × List Label}
    (ht : j.table.Canonical) (hE : j.ClosedUnder regions p c E) (hr : r.Ok j p base c E)
    (hcount : r.Counted j first) (hcovers : r.Covers j p base c task (way.1 :: rest))
    (hway : Way j p base c E task.production r way) :
    (j.reduceAlong regions p task.production r way).Counted j first ∧
      (j.reduceAlong regions p task.production r way).Covers j p base c task rest := by
  obtain ⟨top, htrail, hp, hc, hq⟩ := hway.trail
  rcases reduceAlong_cases j regions p task.production r way with
    ⟨hgoto, heq⟩ | ⟨target, work, hgoto, heq⟩
  · rw [heq]
    refine ⟨hcount, hcovers.all, fun h q n b t hb hlt hq hlen hpath hgoto' => ?_⟩
    rcases hcovers.ways h q n b t hb hlt hq hlen hpath hgoto' with hj | hw | hv | ⟨rfl, rfl, hb'⟩
    · exact .inl hj
    · exact .inr (.inl hw)
    · exact .inr (.inr (.inl hv))
    · rcases List.mem_cons.mp hb' with rfl | hb'
      · rw [hgoto] at hgoto'
        cases hgoto'
      · exact .inr (.inr (.inr ⟨rfl, rfl, hb'⟩))
  · rw [heq]
    obtain ⟨hstop, _⟩ := hE htrail hp hc hq hway.length hgoto
    have hr' : Reducing.Ok j p base c E { r with assembled := r.assembled + work } :=
      ⟨hr.fresh, hr.edges, hr.tasks⟩
    have hcount' : Reducing.Counted j first { r with assembled := r.assembled + work } :=
      ⟨hcount.first_le, hcount.nodup, hcount.begun_le, hcount.via, hcount.states⟩
    have hcovers' : Reducing.Covers j p base c task (way.1 :: rest)
        { r with assembled := r.assembled + work } := ⟨hcovers.all, hcovers.ways⟩
    refine ⟨place_counted hr' hcount' hstop (lt_stateCount_of_goto? ht hgoto), ?_⟩
    have hplaced : (j.place p _ way.1 target _).Covers j p base c task (way.1 :: rest) :=
      place_covers hr' hcount' hcovers' hway.bottom_lt hstop
    obtain ⟨_, hstack, _⟩ := place_spec j hr'.fresh way.1 target
      (j.reduceLabel regions task.production (r.stack.face way.1).state way.2).1
    refine ⟨hplaced.all, fun h q n b t hb hlt hq' hlen hpath hgoto' => ?_⟩
    rcases hplaced.ways h q n b t hb hlt hq' hlen hpath hgoto' with
      hj | hw | hv | ⟨rfl, rfl, hb'⟩
    · exact .inl hj
    · exact .inr (.inl hw)
    · exact .inr (.inr (.inl hv))
    · rcases List.mem_cons.mp hb' with rfl | hb'
      · -- This is the way that has been gone just now.
        have hlt := Nat.lt_of_lt_of_le hway.bottom_lt hr.fresh.base_le
        rw [(place_kept hr' _ _ _).face _ hlt] at hgoto'
        obtain rfl : target = t := Option.some.inj (hgoto.symm.trans hgoto')
        rw [hstack]
        exact .inl (hr'.fresh.decided_placed hstop rfl)
      · exact .inr (.inr (.inr ⟨rfl, rfl, hb'⟩))

theorem foldl_reduceAlong_covers {task : ReduceTask} (ht : j.table.Canonical)
    (hE : j.ClosedUnder regions p c E) (ways : List (Nat × List Label)) :
    ∀ r : Reducing, r.Ok j p base c E → r.Counted j first →
      r.Covers j p base c task (ways.map (·.1)) →
      (∀ way ∈ ways, Way j p base c E task.production r way) →
      let r' := ways.foldl (j.reduceAlong regions p task.production) r
      r'.Ok j p base c E ∧ r'.Counted j first ∧ r'.Covers j p base c task [] ∧
        r'.begun = r.begun := by
  induction ways with
  | nil => exact fun r hr hcount hcovers _ => ⟨hr, hcount, hcovers, rfl⟩
  | cons way ways ih =>
    intro r hr hcount hcovers hways
    have hway := hways way List.mem_cons_self
    obtain ⟨hcount', hcovers'⟩ := reduceAlong_covers ht hE hr hcount hcovers hway
    obtain ⟨hok, hkept, hbegun⟩ := reduceAlong_ok hE hr hway
    obtain ⟨hok', hcount'', hcovers'', hbegun'⟩ := ih _ hok hcount' hcovers' fun way' hway' =>
      (hways way' (List.mem_cons_of_mem _ hway')).kept hr hkept
    exact ⟨hok', hcount'', hcovers'', hbegun'.trans hbegun⟩

/-- The task that is begun next. -/
theorem waiting_eq_cons {t : ReduceTask} (h : r.tasks[r.begun]? = some t) :
    r.waiting = t :: Reducing.waiting { r with begun := r.begun + 1 } := by
  have hlt : r.begun < r.tasks.toList.length := (Array.getElem?_eq_some_iff.mp h).1
  unfold Reducing.waiting
  rw [List.drop_eq_getElem_cons hlt]
  congr 1
  exact (Array.getElem?_eq_some_iff.mp h).2

/-- **Seeing to the next task keeps everything covered.** -/
theorem perform_covers {t task : ReduceTask} (ht : j.table.Canonical)
    (hE : j.ClosedUnder regions p c E) (hr : r.Ok j p base c E) (hcount : r.Counted j first)
    (hcovers : r.Covers j p base c task []) (hnext : r.tasks[r.begun]? = some t) :
    let r' := j.perform regions p { r with begun := r.begun + 1 } t
    r'.Ok j p base c E ∧ r'.Counted j first ∧ r'.Covers j p base c t [] ∧
      r'.begun = r.begun + 1 := by
  have hmem : t ∈ r.tasks.toList := Array.mem_toList_iff.mpr (Array.mem_of_getElem? hnext)
  have hwait := waiting_eq_cons hnext
  obtain ⟨hbase, hlt, hq⟩ := hr.tasks t hmem
  dsimp only
  rw [perform_eq]
  refine foldl_reduceAlong_covers ht hE _ _ ⟨hr.fresh, hr.edges, hr.tasks⟩
    ⟨hcount.first_le, hcount.nodup, (Array.getElem?_eq_some_iff.mp hnext).1, hcount.via,
      hcount.states⟩
    ⟨fun h q hb hlt hq => ?_, fun h q n b target hb hlt hq hlen hpath hgoto => ?_⟩
    fun way hway => ?_
  · -- A task along all ways that has been begun is remembered.
    rcases hcovers.all h q hb hlt hq with hd | hw
    · refine .inl ?_
      dsimp only
      split
      · exact List.mem_cons_of_mem _ hd
      · exact hd
    · rw [hwait] at hw
      rcases List.mem_cons.mp hw with rfl | hw
      · exact .inl List.mem_cons_self
      · exact .inr hw
  · rcases hcovers.ways h q n b target hb hlt hq hlen hpath hgoto with
      hj | hw | ⟨e, he, hpath', hw⟩ | ⟨_, _, hnot⟩
    · exact .inl hj
    · rw [hwait] at hw
      rcases List.mem_cons.mp hw with rfl | hw
      · obtain ⟨pieces, hway⟩ := Stack.exists_way hpath []
        refine .inr (.inr (.inr ⟨rfl, rfl, List.mem_map.mpr ⟨(b, pieces), ?_, rfl⟩⟩))
        show (b, pieces) ∈ r.stack.ways [] h (j.table.production q).rhs.length
        rw [hlen]
        exact hway
      · exact .inr (.inl hw)
    · rw [hwait] at hw
      rcases List.mem_cons.mp hw with rfl | hw
      · obtain ⟨pieces, hway⟩ := Stack.exists_wayVia he hpath'
        refine .inr (.inr (.inr ⟨rfl, rfl, List.mem_map.mpr ⟨(b, pieces), ?_, rfl⟩⟩))
        show (b, pieces) ∈ r.stack.waysVia h e.below (j.table.production q).rhs.length
        rw [hlen]
        exact hway
      · exact .inr (.inr (.inl ⟨e, he, hpath', hw⟩))
    · cases hnot
  · obtain ⟨hlt, htrail, hlen⟩ := way_of_mem_waysOf ht hr hmem hway
    exact ⟨hlt, htrail, hlen⟩

/-! ## Everything that can be finished -/

/-- **When no task is left, every way has been gone.** -/
theorem performAll_covers (ht : j.table.Canonical) (hE : j.ClosedUnder regions p c E)
    (hbase : base ≤ first) (fuel : Nat) :
    ∀ (r : Reducing) (task : ReduceTask), r.Ok j p base c E → r.Counted j first →
      r.Covers j p base c task [] →
      (j.table.stateCount + (first - base)) * j.table.productions.size * (base + 1) <
        r.begun + fuel →
      let r' := j.performAll regions p r fuel
      r'.waiting = [] ∧ ∃ task, r'.Covers j p base c task [] := by
  induction fuel with
  | zero =>
    intro r task hr hcount _ hfuel
    have := length_tasks_le ht hr hcount hbase
    have := hcount.begun_le
    omega
  | succ fuel ih =>
    intro r task hr hcount hcovers hfuel
    unfold performAll
    cases hnext : r.tasks[r.begun]? with
    | none =>
      refine ⟨List.drop_eq_nil_iff.mpr ?_, task, hcovers⟩
      exact Array.getElem?_eq_none_iff.mp hnext
    | some t =>
      obtain ⟨hok, hcount', hcovers', hbegun⟩ := perform_covers ht hE hr hcount hcovers hnext
      exact ih _ t hok hcount' hcovers' (by rw [hbegun]; omega)

theorem begin_counted {s : Progress} (hs : s.stack.Fresh base s.position c) :
    (j.begin s).Counted j s.stack.nodes.size := by
  have hvia : ∀ t ∈ (j.begin s).tasks.toList, t.via = none := by
    intro t ht
    rw [begin_eq] at ht
    obtain ⟨head, _, ht⟩ := List.mem_flatMap.mp ht
    exact (of_mem_tasksOf ht).2.1
  have hnodup : (j.begin s).tasks.toList.Nodup := by
    rw [begin_eq]
    refine List.nodup_flatMap.mpr ⟨fun head _ => nodup_tasksOf _ _ _ _, ?_⟩
    rw [hs.heads]
    refine (List.nodup_range' 1 Nat.one_pos).imp fun hne => ?_
    -- Tasks of different heads are different.
    intro t ht ht'
    exact hne ((of_mem_tasksOf ht).1.symm.trans (of_mem_tasksOf ht').1)
  refine ⟨by rw [begin_eq], hnodup, ?_, fun t ht b hb => ?_, fun i hi hlt => ?_⟩
  · rw [begin_eq]
    exact Nat.zero_le _
  · rw [hvia t ht] at hb
    cases hb
  · rw [begin_eq] at hlt
    exact absurd hlt (Nat.not_lt.mpr hi)

/-- In the beginning everything waits. -/
theorem begin_covers {s : Progress} (hs : s.stack.Fresh base s.position c) (task : ReduceTask) :
    (j.begin s).Covers j s.position base c task [] := by
  have hwait : ∀ h q, base ≤ h → h < s.stack.nodes.size →
      q ∈ j.reductions (s.stack.face h).state s.position →
      ⟨h, q, none⟩ ∈ (j.begin s).waiting := by
    intro h q hb hlt hq
    rw [begin_eq]
    exact List.mem_flatMap.mpr ⟨h, hs.mem_heads.mpr ⟨hb, hlt⟩, List.mem_map_of_mem hq⟩
  have hstack : (j.begin s).stack = s.stack := by rw [begin_eq]
  refine ⟨fun h q hb hlt hq => ?_, fun h q n b target hb hlt hq _ _ _ => ?_⟩
  · rw [hstack] at hlt hq
    exact .inr (hwait h q hb hlt hq)
  · rw [hstack] at hlt hq
    exact .inr (.inl (hwait h q hb hlt hq))

/-- **Finishing productions comes to an end**: no task is left when it is over, and then every way
    has been gone. -/
theorem performAll_begin (ht : j.table.Canonical) {s : Progress}
    (hE : j.ClosedUnder s.regions s.position c E) (hs : s.stack.Fresh base s.position c)
    (hedges : s.stack.Edges E) :
    let r := j.performAll s.regions s.position (j.begin s) (j.taskBound s.stack)
    r.waiting = [] ∧ ∃ task, r.Covers j s.position base c task [] := by
  have hbound : (j.table.stateCount + (s.stack.nodes.size - base)) *
      j.table.productions.size * (base + 1) < (j.begin s).begun + j.taskBound s.stack := by
    have hbegun : (j.begin s).begun = 0 := by rw [begin_eq]
    have hheads : s.stack.heads.length = s.stack.nodes.size - base := by
      rw [hs.heads, List.length_range']
    have hle := hs.base_le
    rw [hbegun, Nat.zero_add]
    unfold taskBound
    rw [hheads]
    exact Nat.lt_succ_of_le (Nat.mul_le_mul_left _ (by omega))
  exact performAll_covers ht hE hs.base_le _ (j.begin s) default (begin_ok hs hedges)
    (begin_counted hs) (begin_covers hs default) hbound

/-- **Everything that can be finished has been finished, and decided.**  Along every way of the
    length of a production that a head can finish, the state that follows has been joined to its
    bottom, with a subtree that the production does not win over. -/
theorem reduceAll_decided (ht : j.table.Canonical) {s : Progress}
    (hE : j.ClosedUnder s.regions s.position c E) (hs : s.stack.Fresh base s.position c)
    (hedges : s.stack.Edges E) {h q n b target : Nat} (hbase : base ≤ h)
    (hlt : h < (s.reduceAll j).stack.nodes.size)
    (hq : q ∈ j.reductions ((s.reduceAll j).stack.face h).state s.position)
    (hlen : (j.table.production q).rhs.length = n + 1)
    (hpath : (s.reduceAll j).stack.Path h (n + 1) b)
    (hgoto : j.table.goto? ((s.reduceAll j).stack.face b).state (j.table.production q).lhs =
      some target) :
    (s.reduceAll j).stack.Decided base ⟨target, s.position, c⟩ b q := by
  obtain ⟨hwait, task, hcovers⟩ := performAll_begin ht hE hs hedges
  rcases hcovers.ways h q n b target hbase hlt hq hlen hpath hgoto with
    hj | hw | ⟨_, _, _, hw⟩ | ⟨_, _, hw⟩
  · exact hj
  · rw [hwait] at hw
    cases hw
  · rw [hwait] at hw
    cases hw
  · cases hw

end ParseJob

end LayeredSyntax
