/-
  TURN AFTER TURN — how to know something of every parse that takes no subtrees over.

  Such a parse is simpler than turns in general: nothing is ever settled beforehand, there is never
  anything to be given back, and so a turn finishes everything and then does one of four things.

  1. It is over at the end of the text, where a head accepts.
  2. It reads the token and goes on.
  3. It is stuck and goes on after a repair.
  4. It is stuck and is over after a repair.

  **What holds in the beginning and is kept by each of them holds in the end** (`run_rule`).  What
  is kept may depend on the turns that are left, so that a parse can also be shown to end in time.
-/
import LayeredSyntax.Parse.Run
import LayeredSyntax.Proofs.Parse.Stacks
import LayeredSyntax.Proofs.Token.Streams

namespace LayeredSyntax

/-- **What a job is that was prepared over a regular stream.** -/
structure ParseJob.Ready (j : ParseJob) : Prop where
  regular : j.tokens.Regular
  terminals : ∀ {p : Nat} {t : Token}, j.tokens.get? p = some t →
    j.terminalsAt p = j.table.terminalsFor t.kind t.text
  terminals_finish : j.terminalsAt j.finish = [endOfText]

theorem ParseJob.ready_prepare (table : Table) (g : GrammarId) {stream : TokenStream}
    (h : stream.Regular) (resync : ResyncSet) (reuse : Option ReuseIndex) (reports : Bool) :
    (prepare table g stream resync reuse reports).Ready := by
  have hlength : (stream.significantTokens.map
      fun t => table.terminalsFor t.kind t.text).toArray.size = stream.size := by
    rw [List.size_toArray, List.length_map, h.length_significantTokens]
  refine ⟨h, fun {p t} ht => ?_, ?_⟩
  · have ht : stream.get? p = some t := ht
    have hlt : p < stream.size := by
      rw [← h.length_significantTokens]
      rw [← h.getElem?_significantTokens] at ht
      exact (List.getElem?_eq_some_iff.mp ht).1
    show (Array.push _ _)[p]?.getD [] = _
    rw [Array.getElem?_push, if_neg (by omega), List.getElem?_toArray, List.getElem?_map,
      h.getElem?_significantTokens, ht]
    rfl
  · show (Array.push _ _)[stream.size]?.getD [] = _
    rw [← hlength, Array.getElem?_push_size]
    rfl

namespace Progress

variable {j : ParseJob} {s s' : Progress}

/-- Whether nothing of a turn has been done yet and nothing could be given back. -/
structure Plain (s : Progress) : Prop where
  unsettled : s.settled = false
  checkpoint : s.checkpoint = none

/-- How a parse gets stuck in a turn. -/
inductive Stuck (j : ParseJob) (s : Progress) : Progress → Prop where
  /-- No head accepts at the end of the text. -/
  | finish (hfinish : s.position = j.finish) (h : (s.reduceAll j).accepted? j = none) :
    Stuck j s (s.reduceAll j)
  /-- No head can read the token. -/
  | token (hfinish : s.position ≠ j.finish) (h : ((s.reduceAll j).shift j).1 = false) :
    Stuck j s ((s.reduceAll j).shift j).2

/-- The subtree that begins first is one of those that are compared. -/
theorem exists_of_foldl_first (es : List Edge) : ∀ {best label : Label}, es.foldl (fun best e =>
    if e.label.first < best.first then e.label else best) best = label →
      best = label ∨ ∃ e ∈ es, e.label = label := by
  induction es with
  | nil => exact fun h => .inl h
  | cons e es ih =>
    intro best label h
    rw [List.foldl_cons] at h
    rcases ih h with h | ⟨e', he', h⟩
    · split at h
      · exact .inr ⟨e, List.mem_cons_self, h⟩
      · exact .inl h
    · exact .inr ⟨e', List.mem_cons_of_mem _ he', h⟩

/-- A subtree over the whole text that a head accepts is on one of its edges. -/
theorem exists_of_accepted? {label : Label} (h : s.accepted? j = some label) :
    ∃ head ∈ s.stack.heads, ∃ e ∈ s.stack.edges head, e.label = label ∧
      .accept ∈ j.table.actionsAt (s.stack.face head).state endOfText := by
  unfold accepted? at h
  obtain ⟨head, hhead, h⟩ := List.exists_of_findSome?_eq_some h
  split at h
  · next haccept =>
    split at h
    · cases h
    · next e es hedges =>
      refine ⟨head, hhead, ?_⟩
      unfold Stack.edges
      rw [hedges]
      rcases exists_of_foldl_first es (Option.some.inj h) with h | ⟨e', he', h⟩
      · exact ⟨e, List.mem_cons_self, h, List.contains_iff_mem.mp haccept⟩
      · exact ⟨e', List.mem_cons_of_mem _ he', h, List.contains_iff_mem.mp haccept⟩
  · cases h

/-- Where a head accepts that has an edge, a subtree is accepted. -/
theorem accepted?_ne_none {head : Nat} (hhead : head ∈ s.stack.heads)
    (haccept : .accept ∈ j.table.actionsAt (s.stack.face head).state endOfText)
    (hedges : s.stack.edges head ≠ []) : s.accepted? j ≠ none := by
  intro h
  have hcontains : (j.table.actionsAt (s.stack.state head) endOfText).contains .accept = true :=
    List.contains_iff_mem.mpr haccept
  have hnone := List.findSome?_eq_none_iff.mp h head hhead
  rw [if_pos hcontains] at hnone
  split at hnone
  · next hnil => exact hedges hnil
  · cases hnone

theorem checkpoint_shift (j : ParseJob) (s : Progress) (h : s.checkpoint = none) :
    (s.shift j).2.checkpoint = none := by
  unfold shift mark
  dsimp only
  split
  · split
    · exact h
    · exact h
  · rfl

theorem repairCount_shift (j : ParseJob) (s : Progress) :
    (s.shift j).2.repairCount = s.repairCount := by
  unfold shift mark
  dsimp only
  split <;> split <;> rfl

theorem Stuck.checkpoint (h : Stuck j s s') (hs : s.Plain) : s'.checkpoint = none := by
  cases h with
  | finish => exact hs.checkpoint
  | token => exact checkpoint_shift j _ hs.checkpoint

/-- After a token has been read nothing of the next turn has been done yet. -/
theorem plain_shift (h : s.checkpoint = none) (hreads : (s.shift j).1 = true) :
    (s.shift j).2.Plain := by
  refine ⟨?_, checkpoint_shift j s h⟩
  unfold shift at hreads ⊢
  dsimp only at hreads ⊢
  split
  · next hempty =>
    rw [if_pos hempty] at hreads
    cases hreads
  · rfl

variable [Limits]

/-- A parse that is stuck and gives nothing back is repaired. -/
theorem stuck_of_giveBack?_eq_none (h : s.giveBack? = none) : s.stuck j =
    if ({ s with checkpoint := none }.repair j).1 then
      .goOn ({ s with checkpoint := none }.repair j).2
    else .over (({ s with checkpoint := none }.repair j).2.close j []) := by
  unfold stuck
  rw [h]
  dsimp only
  generalize Progress.repair j { s with checkpoint := none } = r
  obtain ⟨goesOn, s'⟩ := r
  cases goesOn <;> rfl

/-- A parse without a checkpoint that is stuck is repaired. -/
theorem stuck_eq (h : s.checkpoint = none) : s.stuck j =
    if (s.repair j).1 then .goOn (s.repair j).2 else .over ((s.repair j).2.close j []) := by
  have hsame : { s with checkpoint := none } = s := by
    rw [← h]
  have hback : s.giveBack? = none := by
    unfold giveBack?
    rw [h]
    rfl
  rw [stuck_of_giveBack?_eq_none hback, hsame]

/-- A turn of a parse that takes no subtrees over. -/
theorem turn_eq (hreuse : j.reuse = none) (hs : s.Plain) : s.turn j =
    if s.position = j.finish then
      match (s.reduceAll j).accepted? j with
      | some label => .over ((s.reduceAll j).close j [label])
      | none => (s.reduceAll j).stuck j
    else if ((s.reduceAll j).shift j).1 then .goOn ((s.reduceAll j).shift j).2
    else ((s.reduceAll j).shift j).2.stuck j := by
  have htake : (s.reduceAll j).takeOver? j = none := by
    unfold takeOver?
    rw [hreuse]
    rfl
  have hposition : (s.reduceAll j).position = s.position := rfl
  have hsettled : (if s.settled then s else s.reduceAll j) = s.reduceAll j := by
    rw [hs.unsettled]
    rfl
  unfold turn
  dsimp only
  rw [hsettled, hposition, htake]
  split
  · rfl
  · dsimp only
    generalize (s.reduceAll j).shift j = r
    obtain ⟨reads, s'⟩ := r
    cases reads <;> rfl

theorem run_of_over {fuel : Nat} {r : ParseRun} (h : s.turn j = .over r) :
    s.run j (fuel + 1) = r := by
  unfold run
  rw [h]

theorem run_of_goOn {fuel : Nat} (h : s.turn j = .goOn s') :
    s.run j (fuel + 1) = s'.run j fuel := by
  rw [run, h]

/-- **The rule of runs.** -/
theorem run_rule {P : Nat → Progress → Prop} {Q : ParseRun → Prop} (hreuse : j.reuse = none)
    (hplain : ∀ fuel s, P fuel s → s.Plain)
    (hout : ∀ s, P 0 s → Q (s.close j []))
    (haccept : ∀ fuel s label, P (fuel + 1) s → s.position = j.finish →
      (s.reduceAll j).accepted? j = some label → Q ((s.reduceAll j).close j [label]))
    (hshift : ∀ fuel s, P (fuel + 1) s → s.position ≠ j.finish →
      ((s.reduceAll j).shift j).1 = true → P fuel ((s.reduceAll j).shift j).2)
    (hstuck : ∀ fuel s s', P (fuel + 1) s → Stuck j s s' →
      ((s'.repair j).1 = true → P fuel (s'.repair j).2) ∧
        ((s'.repair j).1 = false → Q ((s'.repair j).2.close j []))) :
    ∀ fuel s, P fuel s → Q (s.run j fuel) := by
  intro fuel
  induction fuel with
  | zero => exact hout
  | succ fuel ih =>
    intro s hs
    have hcheck : (s.reduceAll j).checkpoint = none := (hplain _ s hs).checkpoint
    have hturn := turn_eq hreuse (hplain _ s hs)
    -- However it gets stuck, the parse goes on or is over after a repair.
    have hrepair : ∀ s', Stuck j s s' → s'.checkpoint = none → s.turn j = s'.stuck j →
        Q (s.run j (fuel + 1)) := by
      intro s' hs' hnone hturn
      obtain ⟨hon, hover⟩ := hstuck fuel s s' hs hs'
      rw [stuck_eq hnone] at hturn
      cases hgoes : (s'.repair j).1 with
      | true =>
        rw [if_pos hgoes] at hturn
        rw [run_of_goOn hturn]
        exact ih _ (hon hgoes)
      | false =>
        rw [if_neg (by rw [hgoes]; exact Bool.false_ne_true)] at hturn
        rw [run_of_over hturn]
        exact hover hgoes
    by_cases hfinish : s.position = j.finish
    · rw [if_pos hfinish] at hturn
      cases haccepted : (s.reduceAll j).accepted? j with
      | some label =>
        rw [haccepted] at hturn
        rw [run_of_over hturn]
        exact haccept fuel s label hs hfinish haccepted
      | none =>
        rw [haccepted] at hturn
        exact hrepair _ (.finish hfinish haccepted) hcheck hturn
    · rw [if_neg hfinish] at hturn
      cases hreads : ((s.reduceAll j).shift j).1 with
      | true =>
        rw [if_pos hreads] at hturn
        rw [run_of_goOn hturn]
        exact ih _ (hshift fuel s hs hfinish hreads)
      | false =>
        rw [if_neg (by rw [hreads]; exact Bool.false_ne_true)] at hturn
        exact hrepair _ (.token hfinish hreads) (checkpoint_shift j _ hcheck) hturn

end Progress

/-! ## The beginning -/

namespace ParseJob

/-- How a parse begins in a state. -/
def entered (j : ParseJob) (state : Nat) : Progress :=
  { Progress.start j with stack := Stack.empty.push ⟨state, 0, 0, []⟩ }

theorem run_eq [Limits] {j : ParseJob} {entry : Entry} (h : j.table.entry? j.grammar = some entry)
    (hpos : j.finish ≠ 0) : j.run = (j.entered entry.state).run j j.turnBound := by
  unfold run
  rw [h]
  dsimp only
  rw [if_neg hpos]
  rfl

theorem entered_plain (j : ParseJob) (state : Nat) : (j.entered state).Plain := ⟨rfl, rfl⟩

theorem edges_entered (j : ParseJob) (state i : Nat) : (j.entered state).stack.edges i = [] := by
  cases i with
  | zero => rfl
  | succ i => rfl

theorem entered_fresh (j : ParseJob) (state : Nat) : (j.entered state).stack.Fresh 0 0 0 := by
  have hzero : ∀ i, i < (j.entered state).stack.nodes.size → i = 0 := fun i hi =>
    Nat.lt_one_iff.mp hi
  refine ⟨Nat.zero_le _, rfl, fun i _ hi => ?_, fun i k _ hi _ hk _ => ?_, fun i e he => ?_,
    fun found i => ?_⟩
  · rw [hzero i hi]
    exact ⟨rfl, rfl⟩
  · rw [hzero i hi, hzero k hk]
  · rw [edges_entered] at he
    cases he
  · have hface : ((j.entered state).stack.face 0).state = state := rfl
    show [(state, 0)].lookup found = some i ↔ _
    rw [Stack.lookup_cons_eq]
    constructor
    · intro h
      split at h
      · next heq =>
        cases h
        exact ⟨Nat.le_refl _, Nat.zero_lt_one, hface.trans heq.symm⟩
      · cases h
    · rintro ⟨_, hlt, hfound⟩
      obtain rfl := hzero i hlt
      exact if_pos (hfound.symm.trans hface)

theorem entered_edges {E : Face → Face → Label → Prop} (j : ParseJob) (state : Nat) :
    (j.entered state).stack.Edges E := by
  intro i e he
  rw [edges_entered] at he
  cases he

end ParseJob

end LayeredSyntax
