/-
  WAYS THAT NEVER MEET — a position that is not marked.

  A position is marked when two ways meet at it.  Where it is not, everything that was finished at it
  made a head of its own (`ParseJob.reduceAll_unmet`):

  1. **Every new head was made from an older one**, by one production over one way down, and its only
     edge is that to the bottom of the way (`Stack.MadeBy`).
  2. **Every way along which a production leads on made a head**, and a newer one.

  What was there before is left as it was.  That two ways met is never forgotten, so it is enough to
  know that they had not met in the end.
-/
import LayeredSyntax.Proofs.Parse.Replaying

namespace LayeredSyntax

/-- **How a head was made**: by finishing a production at an older head along a way. -/
structure Stack.MadeBy (j : ParseJob) (regions : Regions) (p : Nat) (s : Stack) (head q : Nat)
    (way : Nat × List Label) (i : Nat) : Prop where
  older : head < i
  lt : i < s.nodes.size
  finishes : q ∈ j.reductions (s.state head) p
  mem : way ∈ s.ways [] head (j.table.production q).rhs.length
  goto : j.table.goto? (s.state way.1) (j.table.production q).lhs = some (s.state i)
  edges : s.edges i = [⟨way.1, (j.reduceLabel regions q (s.state way.1) way.2).1⟩]

/-- **What is known while no two ways have met.**  Nodes from `first` on were made here. -/
structure Reducing.Unmet (j : ParseJob) (regions : Regions) (p base first : Nat) (r : Reducing) :
    Prop where
  made : ∀ i, first ≤ i → i < r.stack.nodes.size →
    ∃ head q way, base ≤ head ∧ r.stack.MadeBy j regions p head q way i
  gone : ∀ head q, (head, q) ∈ r.done → ∀ way target,
    way ∈ r.stack.ways [] head (j.table.production q).rhs.length →
    j.table.goto? (r.stack.state way.1) (j.table.production q).lhs = some target →
      ∃ i, r.stack.MadeBy j regions p head q way i ∧ r.stack.state i = target
  done : ∀ head q, (head, q) ∈ r.done → head < r.stack.nodes.size
  via : ∀ t ∈ r.tasks.toList, t.via = none

namespace ParseJob

variable {j : ParseJob} {regions : Regions} {p q base c first bottom target : Nat} {label : Label}
  {r : Reducing} {E : Face → Face → Label → Prop}

/-- The bottom of a way is there if its top is. -/
theorem way_lt {s : Stack} (hdown : ∀ i e, e ∈ s.edges i → e.below < i) {i n : Nat}
    {way : Nat × List Label} (hi : i < s.nodes.size) (h : way ∈ s.ways [] i n) :
    way.1 < s.nodes.size := by
  have hpath : s.Path i n way.1 := Stack.path_of_mem_ways h
  clear h
  induction n generalizing i with
  | zero => exact hpath ▸ hi
  | succ n ih =>
    obtain ⟨e, he, hpath⟩ := hpath
    exact ih (Nat.lt_trans (hdown i e he) hi) hpath

/-- How a head was made stays true while heads are put beside it. -/
theorem madeBy_extend {s s' : Stack} {head i : Nat}
    {way : Nat × List Label} (h : s.MadeBy j regions p head q way i) (hextends : s.Extends s')
    (hdown : ∀ i e, e ∈ s.edges i → e.below < i) : s'.MadeBy j regions p head q way i := by
  have hhead := Nat.lt_trans h.older h.lt
  have hway := way_lt hdown hhead h.mem
  refine ⟨h.older, Nat.lt_of_lt_of_le h.lt hextends.size_le, ?_, ?_, ?_, ?_⟩
  · rw [hextends.state hhead]
    exact h.finishes
  · rw [hextends.ways hdown [] hhead]
    exact h.mem
  · rw [hextends.state hway, hextends.state h.lt]
    exact h.goto
  · rw [hextends.state hway, hextends.edges h.lt]
    exact h.edges

/-! ## Not having met -/

/-- Where two ways do not meet, there was no head in the state that follows. -/
theorem met_place (h : (j.place p r bottom target label).met = false) :
    r.met = false ∧ r.stack.headIn? target = none := by
  rcases j.place_cases p r bottom target label with
    ⟨hhead, heq⟩ | ⟨_, _, _, _, heq⟩ | ⟨_, _, _, heq⟩ <;> rw [heq] at h
  · exact ⟨h, hhead⟩
  · cases h
  · cases h

/-- One way, with nothing met. -/
theorem reduceAlong_unmet {way : Nat × List Label}
    (h : (j.reduceAlong regions p q r way).met = false) : r.met = false ∧
      ((j.table.goto? (r.stack.state way.1) (j.table.production q).lhs = none ∧
        j.reduceAlong regions p q r way = r) ∨
      ∃ target work, j.table.goto? (r.stack.state way.1) (j.table.production q).lhs = some target ∧
        j.reduceAlong regions p q r way = { r with
          assembled := r.assembled + work
          stack := r.stack.push ⟨target, p,
            (j.reduceLabel regions q (r.stack.state way.1) way.2).1.stop,
            [⟨way.1, (j.reduceLabel regions q (r.stack.state way.1) way.2).1⟩]⟩
          tasks := r.tasks ++ j.tasksOf p r.stack.nodes.size target }) := by
  rcases reduceAlong_cases j regions p q r way with ⟨hnone, heq⟩ | ⟨target, work, hgoto, heq⟩
  · rw [heq] at h
    exact ⟨h, .inl ⟨hnone, heq⟩⟩
  · rw [heq] at h
    obtain ⟨hmet, hhead⟩ := met_place h
    exact ⟨hmet, .inr ⟨target, work, hgoto, heq.trans (place_of_none j p way.1 _ hhead)⟩⟩

/-- That two ways have met is not forgotten. -/
theorem met_foldl (ways : List (Nat × List Label)) : ∀ r : Reducing,
    (ways.foldl (j.reduceAlong regions p q) r).met = false → r.met = false := by
  induction ways with
  | nil => exact fun r h => h
  | cons way ways ih => exact fun r h => (reduceAlong_unmet (ih _ h)).1

theorem met_perform {t : ReduceTask} (h : (j.perform regions p r t).met = false) :
    r.met = false := by
  rw [perform_eq] at h
  exact met_foldl (j.waysOf r t) { r with
    done := if t.via.isNone then (t.head, t.production) :: r.done else r.done } h

theorem met_performAll (fuel : Nat) : ∀ r : Reducing,
    (j.performAll regions p r fuel).met = false → r.met = false := by
  induction fuel with
  | zero => exact fun r h => h
  | succ fuel ih =>
    intro r h
    unfold performAll at h
    split at h
    · exact h
    · exact met_perform (r := { r with begun := r.begun + 1 }) (ih _ h)

/-! ## What has been made -/

/-- **Some ways with nothing met**: each way that leads on made a head, and no other head was made. -/
structure Fanned (j : ParseJob) (regions : Regions) (q : Nat) (ways : List (Nat × List Label))
    (r r' : Reducing) : Prop where
  extend : r.stack.Extends r'.stack
  down : ∀ i e, e ∈ r'.stack.edges i → e.below < i
  made : ∀ i, r.stack.nodes.size ≤ i → i < r'.stack.nodes.size → ∃ way ∈ ways,
    j.table.goto? (r.stack.state way.1) (j.table.production q).lhs = some (r'.stack.state i) ∧
      r'.stack.edges i = [⟨way.1, (j.reduceLabel regions q (r.stack.state way.1) way.2).1⟩]
  gone : ∀ way ∈ ways, ∀ target,
    j.table.goto? (r.stack.state way.1) (j.table.production q).lhs = some target →
      ∃ i, r.stack.nodes.size ≤ i ∧ i < r'.stack.nodes.size ∧ r'.stack.state i = target ∧
        r'.stack.edges i = [⟨way.1, (j.reduceLabel regions q (r.stack.state way.1) way.2).1⟩]
  done : r'.done = r.done
  via : (∀ t ∈ r.tasks.toList, t.via = none) → ∀ t ∈ r'.tasks.toList, t.via = none

namespace Fanned

variable {way : Nat × List Label} {ways : List (Nat × List Label)} {r₁ r' : Reducing}

theorem nil (hdown : ∀ i e, e ∈ r.stack.edges i → e.below < i) : Fanned j regions q [] r r where
  extend := .refl _
  down := hdown
  made _ hi hlt := absurd hi (Nat.not_le.mpr hlt)
  gone := nofun
  done := rfl
  via h := h

/-- A way that leads nowhere makes nothing. -/
theorem stuck (h : Fanned j regions q ways r r')
    (hnone : j.table.goto? (r.stack.state way.1) (j.table.production q).lhs = none) :
    Fanned j regions q (way :: ways) r r' where
  extend := h.extend
  down := h.down
  made i hi hlt := by
    obtain ⟨way', hway', hrest⟩ := h.made i hi hlt
    exact ⟨way', List.mem_cons_of_mem _ hway', hrest⟩
  gone way' hway' target htarget := by
    rcases List.mem_cons.mp hway' with rfl | hway'
    · exact absurd (hnone.symm.trans htarget) nofun
    · exact h.gone way' hway' target htarget
  done := h.done
  via := h.via

/-- **A way that leads on makes a head**, and the ways after it make theirs behind it. -/
theorem push {n : StackNode} (h : Fanned j regions q ways r₁ r')
    (hlt : ∀ way' ∈ ways, way'.1 < r.stack.nodes.size)
    (hgoto : j.table.goto? (r.stack.state way.1) (j.table.production q).lhs = some n.state)
    (hedges : n.edges = [⟨way.1, (j.reduceLabel regions q (r.stack.state way.1) way.2).1⟩])
    (hstack : r₁.stack = r.stack.push n) (hdone : r₁.done = r.done)
    (htasks : r₁.tasks.toList = r.tasks.toList ++ j.tasksOf p r.stack.nodes.size n.state) :
    Fanned j regions q (way :: ways) r r' := by
  have hextends : r.stack.Extends r₁.stack := hstack ▸ r.stack.extends_push n
  have hsize : r₁.stack.nodes.size = r.stack.nodes.size + 1 := hstack ▸ r.stack.size_push n
  have hnew : r.stack.nodes.size < r₁.stack.nodes.size := by omega
  have hstate : r'.stack.state r.stack.nodes.size = n.state :=
    (h.extend.state hnew).trans (hstack ▸ Stack.state_push_self ..)
  have hedges' : r'.stack.edges r.stack.nodes.size = n.edges :=
    (h.extend.edges hnew).trans (hstack ▸ Stack.edges_push_self ..)
  refine ⟨hextends.trans h.extend, h.down, fun i hi hlt' => ?_,
    fun way' hway' target htarget => ?_, h.done.trans hdone, fun hvia => h.via fun t ht => ?_⟩
  · rcases Nat.eq_or_lt_of_le hi with rfl | hi
    · exact ⟨way, List.mem_cons_self, hstate ▸ hgoto, hedges'.trans hedges⟩
    · obtain ⟨way', hway', hrest⟩ := h.made i (by omega) hlt'
      rw [hextends.state (hlt way' hway')] at hrest
      exact ⟨way', List.mem_cons_of_mem _ hway', hrest⟩
  · rcases List.mem_cons.mp hway' with rfl | hway'
    · obtain rfl := Option.some.inj (htarget.symm.trans hgoto)
      exact ⟨r.stack.nodes.size, Nat.le_refl _, Nat.lt_of_lt_of_le hnew h.extend.size_le, hstate,
        hedges'.trans hedges⟩
    · have hsame := hextends.state (hlt way' hway')
      rw [← hsame] at htarget ⊢
      obtain ⟨i, hi, hrest⟩ := h.gone way' hway' target htarget
      exact ⟨i, by omega, hrest⟩
  · rw [htasks] at ht
    rcases List.mem_append.mp ht with ht | ht
    · exact hvia t ht
    · exact (of_mem_tasksOf ht).2.1

/-- A head that was made along a way of a head and a production. -/
theorem madeBy {head i : Nat} (h : Fanned j regions q ways r r')
    (hways : ways = r.stack.ways [] head (j.table.production q).rhs.length)
    (hdown : ∀ i e, e ∈ r.stack.edges i → e.below < i) (hhead : head < r.stack.nodes.size)
    (hq : q ∈ j.reductions (r.stack.state head) p) (hway : way ∈ ways)
    (hi : r.stack.nodes.size ≤ i) (hlt : i < r'.stack.nodes.size)
    (hgoto : j.table.goto? (r.stack.state way.1) (j.table.production q).lhs =
      some (r'.stack.state i))
    (hedges : r'.stack.edges i =
      [⟨way.1, (j.reduceLabel regions q (r.stack.state way.1) way.2).1⟩]) :
    r'.stack.MadeBy j regions p head q way i := by
  subst hways
  have hstate := h.extend.state (way_lt hdown hhead hway)
  refine ⟨Nat.lt_of_lt_of_le hhead hi, hlt, ?_, ?_, hstate ▸ hgoto, hstate ▸ hedges⟩
  · rw [h.extend.state hhead]
    exact hq
  · rw [h.extend.ways hdown [] hhead]
    exact hway

end Fanned

/-- **Going along some ways with nothing met.** -/
theorem foldl_unmet (ways : List (Nat × List Label)) : ∀ r : Reducing,
    (∀ i e, e ∈ r.stack.edges i → e.below < i) → (∀ way ∈ ways, way.1 < r.stack.nodes.size) →
    (ways.foldl (j.reduceAlong regions p q) r).met = false →
      Fanned j regions q ways r (ways.foldl (j.reduceAlong regions p q) r) := by
  induction ways with
  | nil => exact fun r hdown _ _ => .nil hdown
  | cons way ways ih =>
    intro r hdown hlt hmet
    have hlt' : ∀ way' ∈ ways, way'.1 < r.stack.nodes.size := fun way' hway' =>
      hlt way' (List.mem_cons_of_mem _ hway')
    obtain ⟨_, ⟨hnone, heq⟩ | ⟨target, work, hgoto, heq⟩⟩ := reduceAlong_unmet (met_foldl ways _ hmet)
    · rw [List.foldl_cons, heq] at hmet ⊢
      exact (ih r hdown hlt' hmet).stuck hnone
    · rw [List.foldl_cons, heq] at hmet ⊢
      have hbelow : ∀ label : Label, ∀ e ∈ [Edge.mk way.1 label], e.below < r.stack.nodes.size := by
        intro label e he
        obtain rfl := List.mem_singleton.mp he
        exact hlt way List.mem_cons_self
      have hrest := ih _ (Stack.down_push hdown (hbelow _)) (fun way' hway' => Nat.lt_of_lt_of_le (hlt' way' hway')
        (r.stack.extends_push _).size_le) hmet
      exact hrest.push hlt' hgoto rfl rfl rfl Array.toList_appendList

/-- **A task that is seen to with nothing met.** -/
theorem perform_unmet (hr : r.Ok j p base c E)
    (h : r.Unmet j regions p base first) {t : ReduceTask} (htask : t ∈ r.tasks.toList)
    (hmet : (j.perform regions p r t).met = false) :
    (j.perform regions p r t).Unmet j regions p base first ∧
      r.stack.Extends (j.perform regions p r t).stack := by
  obtain ⟨hbase, hhead, hq⟩ := hr.tasks t htask
  have hdown : ∀ i e, e ∈ r.stack.edges i → e.below < i := fun i e he => (hr.fresh.down i e he).1
  have hvia := h.via t htask
  have hways : j.waysOf r t =
      r.stack.ways [] t.head (j.table.production t.production).rhs.length := by
    unfold waysOf
    rw [hvia]
  have hlt : ∀ way ∈ r.stack.ways [] t.head (j.table.production t.production).rhs.length,
      way.1 < r.stack.nodes.size := fun way hway => way_lt hdown hhead hway
  rw [perform_eq, hways] at hmet ⊢
  have hfanned := foldl_unmet _ { r with
    done := if t.via.isNone then (t.head, t.production) :: r.done else r.done } hdown hlt hmet
  generalize List.foldl (j.reduceAlong regions p t.production) _ _ = r' at *
  have hextends : r.stack.Extends r'.stack := hfanned.extend
  have hdone : r'.done = (t.head, t.production) :: r.done := by
    rw [hfanned.done, hvia]
    rfl
  refine ⟨⟨fun i hi hlt' => ?_, fun head q hmem way target hway hgoto => ?_,
    fun head q hmem => ?_, hfanned.via h.via⟩, hextends⟩
  · rcases Nat.lt_or_ge i r.stack.nodes.size with hold | hnew
    · obtain ⟨head, q, way, hhead', hmade'⟩ := h.made i hi hold
      exact ⟨head, q, way, hhead', madeBy_extend hmade' hextends hdown⟩
    · obtain ⟨way, hway, hgoto, hedges⟩ := hfanned.made i hnew hlt'
      exact ⟨t.head, t.production, way, hbase,
        hfanned.madeBy rfl hdown hhead hq hway hnew hlt' hgoto hedges⟩
  · rw [hdone] at hmem
    rcases List.mem_cons.mp hmem with heq | hmem
    · cases heq
      rw [hextends.ways hdown [] hhead] at hway
      rw [hextends.state (hlt way hway)] at hgoto
      obtain ⟨i, hi, hlt', hstate, hedges⟩ := hfanned.gone way hway target hgoto
      exact ⟨i, hfanned.madeBy rfl hdown hhead hq hway hi hlt' (hstate ▸ hgoto) hedges, hstate⟩
    · have hhead' := h.done head q hmem
      rw [hextends.ways hdown [] hhead'] at hway
      rw [hextends.state (way_lt hdown hhead' hway)] at hgoto
      obtain ⟨i, hmade', hstate⟩ := h.gone head q hmem way target hway hgoto
      exact ⟨i, madeBy_extend hmade' hextends hdown, (hextends.state hmade'.lt).trans hstate⟩
  · rw [hdone] at hmem
    rcases List.mem_cons.mp hmem with heq | hmem
    · cases heq
      exact Nat.lt_of_lt_of_le hhead hextends.size_le
    · exact Nat.lt_of_lt_of_le (h.done head q hmem) hextends.size_le

theorem performAll_unmet (ht : j.table.Canonical) (hE : j.ClosedUnder regions p c E) (fuel : Nat) :
    ∀ r : Reducing, r.Ok j p base c E → r.Unmet j regions p base first →
      (j.performAll regions p r fuel).met = false →
      (j.performAll regions p r fuel).Unmet j regions p base first ∧
        r.stack.Extends (j.performAll regions p r fuel).stack := by
  induction fuel with
  | zero => exact fun r _ h _ => ⟨h, .refl _⟩
  | succ fuel ih =>
    intro r hr h hmet
    cases hnext : r.tasks[r.begun]? with
    | none =>
      have hwait : r.waiting = [] := List.drop_eq_nil_iff.mpr (Array.getElem?_eq_none_iff.mp hnext)
      rw [performAll_of_waiting_nil hwait]
      exact ⟨h, .refl _⟩
    | some t =>
      rw [performAll_succ hnext] at hmet ⊢
      have htask : t ∈ r.tasks.toList := Array.mem_toList_iff.mpr (Array.mem_of_getElem? hnext)
      have hr' : Reducing.Ok j p base c E { r with begun := r.begun + 1 } :=
        ⟨hr.fresh, hr.edges, hr.tasks⟩
      have h' : Reducing.Unmet j regions p base first { r with begun := r.begun + 1 } :=
        ⟨h.made, h.gone, h.done, h.via⟩
      obtain ⟨hok, _, _⟩ := perform_ok ht hE hr' htask
      obtain ⟨hone, hextends⟩ := perform_unmet hr' h' htask (met_performAll fuel _ hmet)
      obtain ⟨hrest, hextends'⟩ := ih _ hok hone hmet
      exact ⟨hrest, hextends.trans hextends'⟩

/-- **Where no two ways have met**, every new head was made from an older one, every way that leads on
    made a newer one, and nothing else has changed. -/
theorem reduceAll_unmet (ht : j.table.Canonical) {s : Progress}
    (hE : j.ClosedUnder s.regions s.position c E) (hs : s.stack.Fresh base s.position c)
    (hedges : s.stack.Edges E)
    (hmet : (j.performAll s.regions s.position (j.begin s) (j.taskBound s.stack)).met = false) :
    s.stack.Extends (s.reduceAll j).stack ∧
      (∀ i, s.stack.nodes.size ≤ i → i < (s.reduceAll j).stack.nodes.size → ∃ head q way,
        base ≤ head ∧ (s.reduceAll j).stack.MadeBy j s.regions s.position head q way i) ∧
      ∀ head q way target, base ≤ head → head < (s.reduceAll j).stack.nodes.size →
        q ∈ j.reductions ((s.reduceAll j).stack.state head) s.position →
        way ∈ (s.reduceAll j).stack.ways [] head (j.table.production q).rhs.length →
        j.table.goto? ((s.reduceAll j).stack.state way.1) (j.table.production q).lhs =
          some target →
        ∃ i, (s.reduceAll j).stack.MadeBy j s.regions s.position head q way i ∧
          (s.reduceAll j).stack.state i = target := by
  have hstack : (j.begin s).stack = s.stack := by rw [begin_eq]
  have hbegin : (j.begin s).Unmet j s.regions s.position base s.stack.nodes.size := by
    refine ⟨fun i hi hlt => ?_, ?_, ?_, fun t ht' => ?_⟩
    · rw [hstack] at hlt
      exact absurd hi (Nat.not_le.mpr hlt)
    · rw [begin_eq]
      nofun
    · rw [begin_eq]
      nofun
    · rw [begin_eq] at ht'
      obtain ⟨head, _, ht'⟩ := List.mem_flatMap.mp ht'
      exact (of_mem_tasksOf ht').2.1
  obtain ⟨hunmet, hextends⟩ :=
    performAll_unmet ht hE (j.taskBound s.stack) _ (begin_ok hs hedges) hbegin hmet
  obtain ⟨hwait, task, hcovers⟩ := performAll_begin ht hE hs hedges
  rw [hstack] at hextends
  refine ⟨hextends, hunmet.made, fun head q way target hbase hlt hq hway hgoto => ?_⟩
  rcases hcovers.all head q hbase hlt hq with hdone | hwaits
  · exact hunmet.gone head q hdone way target hway hgoto
  · rw [hwait] at hwaits
    cases hwaits

end ParseJob

end LayeredSyntax
