/-
  COUNTING TURNS — a parse is over in time.

  A parse is written down turn by turn (`Progress.Turns`): where each turn begins and what it does.
  What a turn can do is said once (`Progress.Step`), and every turn does one of these things
  (`exists_step`).

  Between two turns the pace changes by `Pace.Next` (`Paced.step`), so all bounds are read off the
  paces of the turns, each by an induction over them (`Progress.Tour`): how many turns there are,
  how many repairs and where, how many symbols are made up.
-/
import LayeredSyntax.Proofs.Parse.Running
import LayeredSyntax.Proofs.Parse.Turning

namespace LayeredSyntax

/-- The turns of a parse: where each begins, and what it does. -/
abbrev TurnLog := List (Progress × Deed)

namespace TurnLog

/-- Where the parse is repaired, repair by repair; a turn does not move before it repairs. -/
def repairs (log : TurnLog) : List Nat := (log.filter (·.2.isRepair)).map (·.1.position)

/-- Where a symbol is made up, symbol by symbol. -/
def insertions (log : TurnLog) : List Nat := (log.filter (·.2 = .insert)).map (·.1.position)

variable {s : Progress} {d : Deed} {log : TurnLog}

theorem repairs_cons : repairs ((s, d) :: log) =
    if d.isRepair then s.position :: log.repairs else log.repairs := by
  unfold repairs
  rw [List.filter_cons]
  dsimp only
  split <;> rfl

theorem insertions_cons : insertions ((s, d) :: log) =
    if d = .insert then s.position :: log.insertions else log.insertions := by
  unfold insertions
  rw [List.filter_cons]
  by_cases h : d = .insert
  · rw [if_pos h, if_pos (decide_eq_true h)]
    rfl
  · rw [if_neg h, if_neg (by rw [decide_eq_true_eq]; exact h)]

end TurnLog

namespace Progress

variable {j : ParseJob} {s s' : Progress} {d : Deed} {r : ParseRun} {floor : Nat} {log : TurnLog}

/-! ## What a turn does -/

variable [Limits]

/-- Where a turn gets when the text is not accepted, no subtree is taken over and no token is
    read. -/
inductive Halts (j : ParseJob) (s : Progress) : Progress → Prop where
  | finish (hfinish : s.position = j.finish) (h : (s.settle j).accepted? j = none) :
      Halts j s (s.settle j)
  | token (hfinish : s.position ≠ j.finish) (htake : (s.settle j).takeOver? j = none)
      (h : ((s.settle j).shift j).1 = false) : Halts j s ((s.settle j).shift j).2

/-- **A turn, by what it does.** -/
inductive Step (j : ParseJob) (s : Progress) : Deed → Turn → Prop where
  | accept {label : Label} (hfinish : s.position = j.finish)
      (h : (s.settle j).accepted? j = some label) :
      Step j s .accept (.over ((s.settle j).close j [label]))
  | takeOver {s' : Progress} (hfinish : s.position ≠ j.finish)
      (h : (s.settle j).takeOver? j = some s') : Step j s .takeOver (.goOn s')
  | read (hfinish : s.position ≠ j.finish) (htake : (s.settle j).takeOver? j = none)
      (h : ((s.settle j).shift j).1 = true) : Step j s .read (.goOn ((s.settle j).shift j).2)
  | giveBack {s₁ s' : Progress} (hs : Halts j s s₁) (h : s₁.giveBack? = some s') :
      Step j s .giveBack (.goOn s')
  | insert {s₁ : Progress} {i : Insertion} (hs : Halts j s s₁) (hback : s₁.giveBack? = none)
      (hmay : s₁.mayInsert j = true) (hlimit : s₁.repairCount < Limits.repairs)
      (hi : (j.insertions s₁.stack s₁.position).head? = some i)
      (h : s₁.givenUp.repair j = (true, s₁.givenUp.counted.insert j i)) :
      Step j s .insert (.goOn (s₁.givenUp.counted.insert j i))
  | skip {s₁ s' : Progress} (hs : Halts j s s₁) (hback : s₁.giveBack? = none)
      (hlimit : s₁.repairCount < Limits.repairs) (hskip : s₁.givenUp.counted.skip? j = some s')
      (h : s₁.givenUp.repair j = (true, s')) : Step j s .skip (.goOn s')
  | wrap {s₁ s' : Progress} (hs : Halts j s s₁) (hback : s₁.giveBack? = none)
      (h : s₁.givenUp.repair j = (false, s')) : Step j s .wrap (.over (s'.close j []))

omit [Limits] in
theorem position_settle (j : ParseJob) (s : Progress) : (s.settle j).position = s.position := by
  unfold settle
  split <;> rfl

/-- Where the parse halts, it gives a subtree back or is repaired. -/
theorem exists_step_of_halts {s₁ : Progress} (h : Halts j s s₁) : ∃ d, Step j s d (s₁.stuck j) := by
  cases hback : s₁.giveBack? with
  | some s' =>
    unfold stuck
    rw [hback]
    exact ⟨.giveBack, .giveBack h hback⟩
  | none =>
    rw [stuck_of_giveBack?_eq_none hback]
    change ∃ d, Step j s d (if (s₁.givenUp.repair j).1 then .goOn (s₁.givenUp.repair j).2
      else .over ((s₁.givenUp.repair j).2.close j []))
    rcases repair_cases j s₁.givenUp with
      ⟨hlimit, hmay, i, hi, hrepair⟩ | ⟨hlimit, s', hskip, hrepair⟩ | ⟨events, cause, hrepair⟩
    · refine ⟨.insert, ?_⟩
      rw [hrepair]
      exact .insert h hback hmay hlimit hi hrepair
    · refine ⟨.skip, ?_⟩
      rw [hrepair]
      exact .skip h hback hlimit hskip hrepair
    · refine ⟨.wrap, ?_⟩
      rw [hrepair]
      exact .wrap h hback hrepair

/-- **Every turn does one of these things.** -/
theorem exists_step (j : ParseJob) (s : Progress) : ∃ d, Step j s d (s.turn j) := by
  unfold turn
  dsimp only
  rw [show (if s.settled then s else s.reduceAll j) = s.settle j from rfl, position_settle]
  split
  · next hfinish =>
    cases haccepted : (s.settle j).accepted? j with
    | some label => exact ⟨.accept, .accept hfinish haccepted⟩
    | none => exact exists_step_of_halts (.finish hfinish haccepted)
  · next hfinish =>
    cases htake : (s.settle j).takeOver? j with
    | some s' => exact ⟨.takeOver, .takeOver hfinish htake⟩
    | none =>
      dsimp only
      cases hreads : ((s.settle j).shift j).1 with
      | true =>
        rw [show (s.settle j).shift j = (true, ((s.settle j).shift j).2) from
          Prod.ext hreads rfl]
        exact ⟨.read, .read hfinish htake hreads⟩
      | false =>
        rw [show (s.settle j).shift j = (false, ((s.settle j).shift j).2) from
          Prod.ext hreads rfl]
        exact exists_step_of_halts (.token hfinish htake hreads)

/-- **A whole parse, turn by turn.** -/
inductive Turns (j : ParseJob) : Progress → TurnLog → ParseRun → Prop where
  | last {s : Progress} {d : Deed} {r : ParseRun} (h : s.turn j = .over r)
      (hd : Step j s d (.over r)) : Turns j s [(s, d)] r
  | goOn {s s' : Progress} {d : Deed} {log : TurnLog} {r : ParseRun} (h : s.turn j = .goOn s')
      (hd : Step j s d (.goOn s')) (hlog : Turns j s' log r) : Turns j s ((s, d) :: log) r

/-- A run that has turns enough comes to what its turns come to. -/
theorem Turns.run_eq (h : Turns j s log r) : ∀ {fuel : Nat}, log.length ≤ fuel →
    s.run j fuel = r := by
  induction h with
  | last h _ =>
    intro fuel hle
    obtain ⟨fuel, rfl⟩ : ∃ n, fuel = n + 1 := Nat.exists_eq_add_of_le' hle
    exact run_of_over h
  | goOn h _ _ ih =>
    intro fuel hle
    obtain ⟨fuel, rfl⟩ : ∃ n, fuel = n + 1 := ⟨fuel - 1, by rw [List.length_cons] at hle; omega⟩
    rw [run_of_goOn h]
    exact ih (Nat.le_of_succ_le_succ hle)

/-- The turns of a parse begin with the turn in front of them. -/
theorem Turns.exists_cons (h : Turns j s log r) : ∃ d rest, log = (s, d) :: rest := by
  cases h with
  | last => exact ⟨_, _, rfl⟩
  | goOn => exact ⟨_, _, rfl⟩

/-! ## The pace of a turn -/

theorem Paced.halts (hs : s.Paced j floor) (ht : j.table.Canonical) {s₁ : Progress}
    (h : Halts j s s₁) : s₁.Poised j floor ∧ s₁.pace floor = s.pace floor := by
  have hpoised := hs.settle ht
  have hpace := pace_settle j s floor
  cases h with
  | finish => exact ⟨hpoised, hpace⟩
  | token _ _ hno =>
    obtain ⟨hhalt, hsame⟩ := hpoised.halt hno
    exact ⟨hhalt, hsame.trans hpace⟩

/-- **A turn that is not the last one keeps the pace.** -/
theorem Paced.step (hs : s.Paced j floor) (ht : j.table.Canonical) (h : Step j s d (.goOn s')) :
    ∃ floor', s'.Paced j floor' ∧ Pace.Next j.finish d (s.pace floor) (s'.pace floor') := by
  have hpoised := hs.settle ht
  have hpace := pace_settle j s floor
  cases h with
  | takeOver _ h =>
    obtain ⟨hs', hnext⟩ := hpoised.takeOver h
    exact ⟨floor, hs', hpace ▸ hnext⟩
  | read hne _ h =>
    obtain ⟨hs', hnext⟩ := hpoised.read (by rw [position_settle]; exact hne) h
    exact ⟨floor, hs', hpace ▸ hnext⟩
  | giveBack hhalts h =>
    obtain ⟨hs₁, hsame⟩ := hs.halts ht hhalts
    obtain ⟨hs', hnext⟩ := hs₁.giveBack h
    exact ⟨floor, hs', hsame ▸ hnext⟩
  | insert hhalts _ hmay hlimit hi _ =>
    obtain ⟨hs₁, hsame⟩ := hs.halts ht hhalts
    obtain ⟨hs', hnext⟩ := hs₁.insert hmay hlimit (List.mem_of_head? hi)
    exact ⟨_, hs', hsame ▸ hnext⟩
  | skip hhalts _ hlimit hskip _ =>
    obtain ⟨hs₁, hsame⟩ := hs.halts ht hhalts
    obtain ⟨hs', hnext⟩ := hs₁.skip hlimit hskip
    exact ⟨_, hs', hsame ▸ hnext⟩

/-- The turns of a parse with the paces between them. -/
inductive Tour (j : ParseJob) : Nat → Progress → TurnLog → ParseRun → Prop where
  | last {floor : Nat} {s : Progress} {d : Deed} {r : ParseRun} (hs : s.Paced j floor)
      (h : s.turn j = .over r) (hd : Step j s d (.over r)) : Tour j floor s [(s, d)] r
  | goOn {floor floor' : Nat} {s s' : Progress} {d : Deed} {log : TurnLog} {r : ParseRun}
      (hs : s.Paced j floor) (h : s.turn j = .goOn s') (hd : Step j s d (.goOn s'))
      (hnext : Pace.Next j.finish d (s.pace floor) (s'.pace floor'))
      (hlog : Tour j floor' s' log r) : Tour j floor s ((s, d) :: log) r

/-- **From wherever the pace is kept, the parse is over in the end.** -/
theorem Paced.exists_tour (ht : j.table.Canonical) : ∀ {n floor : Nat} {s : Progress},
    s.Paced j floor → (s.pace floor).turnsLeft j.finish ≤ n → ∃ log r, Tour j floor s log r := by
  intro n
  induction n with
  | zero =>
    intro floor s hs hle
    obtain ⟨d, hstep⟩ := exists_step j s
    match hturn : s.turn j with
    | .over r => exact ⟨_, r, .last hs hturn (hturn ▸ hstep)⟩
    | .goOn s' =>
      obtain ⟨floor', _, hnext⟩ := hs.step ht (hturn ▸ hstep)
      have hlt := hnext.turnsLeft_lt hs.poised.pace
      omega
  | succ n ih =>
    intro floor s hs hle
    obtain ⟨d, hstep⟩ := exists_step j s
    match hturn : s.turn j with
    | .over r => exact ⟨_, r, .last hs hturn (hturn ▸ hstep)⟩
    | .goOn s' =>
      obtain ⟨floor', hs', hnext⟩ := hs.step ht (hturn ▸ hstep)
      have hlt := hnext.turnsLeft_lt hs.poised.pace
      obtain ⟨log, r, hlog⟩ := ih hs' (by omega)
      exact ⟨_, r, .goOn hs hturn (hturn ▸ hstep) hnext hlog⟩

/-! ## Bounds -/

theorem Tour.turns (h : Tour j floor s log r) : Turns j s log r := by
  induction h with
  | last _ h hd => exact .last h hd
  | goOn _ h hd _ _ ih => exact .goOn h hd ih

/-- **There are not more turns than are left in the beginning**, and the last one. -/
theorem Tour.length_le (h : Tour j floor s log r) :
    log.length ≤ (s.pace floor).turnsLeft j.finish + 1 := by
  induction h with
  | last => exact Nat.le_add_left _ _
  | goOn hs _ _ hnext _ ih =>
    have hlt := hnext.turnsLeft_lt hs.poised.pace
    rw [List.length_cons]
    omega

omit [Limits] in
/-- The last turn repairs the parse at most once. -/
theorem length_repairs_singleton (s : Progress) (d : Deed) :
    (TurnLog.repairs [(s, d)]).length ≤ 1 := by
  rw [TurnLog.repairs_cons]
  split
  · exact Nat.le_refl 1
  · exact Nat.zero_le 1

/-- **There are not more repairs than are left in the beginning**, and the last one; neither in the
    whole parse nor behind what was repaired before. -/
theorem Tour.length_repairs_le (h : Tour j floor s log r) :
    log.repairs.length ≤ (s.pace floor).repairsLeft j.finish + 1 ∧
      log.repairs.length + s.repairCount ≤ Limits.repairs + 1 := by
  induction h with
  | @last floor s d _ hs =>
    have hone := length_repairs_singleton s d
    have hle := hs.poised.pace.repairs_le
    exact ⟨by omega, by show _ + (s.pace floor).repairs ≤ _; omega⟩
  | @goOn floor floor' s s' d log _ hs _ _ hnext _ ih =>
    have hless := hnext.repairsLeft_lt hs.poised.pace
    have hcount : s'.repairCount = s.repairCount + if d.isRepair then 1 else 0 := hnext.repairs_eq
    obtain ⟨hleft, hlimit⟩ := ih
    rw [TurnLog.repairs_cons]
    split
    · next hrepair =>
      rw [if_pos hrepair] at hless hcount
      rw [List.length_cons]
      omega
    · next hno =>
      rw [if_neg hno] at hless hcount
      omega

/-- **The parse is never repaired in front of where it was repaired before.** -/
theorem Tour.repairs_sorted (h : Tour j floor s log r) :
    log.repairs.Pairwise (· ≤ ·) ∧ ∀ p ∈ log.repairs, floor ≤ p := by
  induction h with
  | @last floor s d _ hs =>
    have hfloor : floor ≤ s.position := hs.poised.pace.floor_le
    rw [TurnLog.repairs_cons]
    split
    · refine ⟨List.pairwise_singleton _ _, fun p hp => ?_⟩
      obtain rfl := List.mem_singleton.mp hp
      exact hfloor
    · exact ⟨List.Pairwise.nil, fun p hp => absurd hp List.not_mem_nil⟩
  | @goOn floor floor' s s' d log _ hs _ _ hnext _ ih =>
    obtain ⟨hsorted, hbound⟩ := ih
    have hfloor : floor ≤ s.position := hs.poised.pace.floor_le
    obtain ⟨hle, hrepair⟩ := hnext.floor_le hs.poised.pace
    have hbehind : ∀ p ∈ log.repairs, floor ≤ p := fun p hp => Nat.le_trans hle (hbound p hp)
    rw [TurnLog.repairs_cons]
    split
    · next hd =>
      refine ⟨List.pairwise_cons.mpr ⟨fun p hp => Nat.le_trans (hrepair hd) (hbound p hp),
        hsorted⟩, fun p hp => ?_⟩
      rcases List.mem_cons.mp hp with rfl | hp
      · exact hfloor
      · exact hbehind p hp
    · exact ⟨hsorted, hbehind⟩

/-- The last turn makes no symbol up. -/
theorem insertions_of_over (hd : Step j s d (.over r)) : TurnLog.insertions [(s, d)] = [] := by
  rw [TurnLog.insertions_cons]
  cases hd <;> rfl

/-- What is made up stands behind what was made up last in front of a token. -/
theorem Tour.lastInsertion_lt (h : Tour j floor s log r) : ∀ l, s.lastInsertion = some l →
    ∀ p ∈ log.insertions, l < p := by
  induction h with
  | last _ _ hd =>
    rw [insertions_of_over hd]
    exact fun _ _ p hp => absurd hp List.not_mem_nil
  | @goOn floor floor' s s' d log r hs _ _ hnext _ ih =>
    intro l hl p hp
    obtain ⟨hle, hlt⟩ := hs.poised.pace.lastInsertion_le l hl
    have hfloor : floor ≤ s.position := hs.poised.pace.floor_le
    rw [TurnLog.insertions_cons] at hp
    split at hp
    · next hinsert =>
      subst hinsert
      rcases hnext.new_insertion with ⟨_, hnew, hlast, _⟩ | ⟨hend, hlast, _⟩
      · have hhere : l < s.position := by
          refine Nat.lt_of_le_of_ne (Nat.le_trans hle hfloor) ?_
          rintro rfl
          exact hnew hl
        rcases List.mem_cons.mp hp with rfl | hp
        · exact hhere
        · exact Nat.lt_trans hhere (ih _ hlast p hp)
      · rcases List.mem_cons.mp hp with rfl | hp
        · exact Nat.lt_of_lt_of_eq hlt hend.symm
        · exact ih l (hlast.trans hl) p hp
    · next hno => exact ih l ((hnext.same_insertions hno).1.trans hl) p hp

/-- **In front of a token a symbol is made up at most once.** -/
theorem Tour.count_insertions_le (h : Tour j floor s log r) :
    ∀ p < j.finish, log.insertions.count p ≤ 1 := by
  induction h with
  | last _ _ hd =>
    rw [insertions_of_over hd]
    exact fun p _ => Nat.zero_le _
  | @goOn floor floor' s s' d log r hs _ _ hnext hlog ih =>
    intro p hp
    rw [TurnLog.insertions_cons]
    split
    · next hinsert =>
      subst hinsert
      rw [List.count_cons]
      by_cases heq : s.position = p
      · -- Behind this turn nothing is made up here.
        rcases hnext.new_insertion with ⟨_, _, hlast, _⟩ | ⟨hend, _⟩
        · have hnone : log.insertions.count p = 0 := by
            refine List.count_eq_zero.mpr fun hmem => ?_
            exact absurd (hlog.lastInsertion_lt _ hlast p hmem) (heq ▸ Nat.lt_irrefl _)
          rw [hnone, if_pos (beq_iff_eq.mpr heq)]
        · have hend : s.position = j.finish := hend
          omega
      · rw [if_neg (by rw [beq_iff_eq]; exact heq)]
        exact ih p hp
    · exact ih p hp

/-- **At the end of the text only a few symbols are made up.** -/
theorem Tour.count_insertions_finish_le (h : Tour j floor s log r) :
    log.insertions.count j.finish + s.insertionsAtEnd ≤ Limits.insertionsAtEnd := by
  induction h with
  | last hs _ hd =>
    rw [insertions_of_over hd]
    have hle := hs.poised.pace.insertionsAtEnd_le
    exact (Nat.zero_add _).trans_le hle
  | @goOn floor floor' s s' d log r hs _ _ hnext hlog ih =>
    rw [TurnLog.insertions_cons]
    split
    · next hinsert =>
      subst hinsert
      rw [List.count_cons]
      rcases hnext.new_insertion with ⟨hlt, _, _, hcount⟩ | ⟨_, _, hcount⟩
      · have hne : s.position ≠ j.finish := Nat.ne_of_lt hlt
        have hcount : s'.insertionsAtEnd = s.insertionsAtEnd := hcount
        rw [if_neg (by rw [beq_iff_eq]; exact hne)]
        omega
      · have hcount : s'.insertionsAtEnd = s.insertionsAtEnd + 1 := hcount
        split <;> omega
    · next hno =>
      have hcount : s'.insertionsAtEnd = s.insertionsAtEnd := (hnext.same_insertions hno).2
      omega

/-- **Where a subtree is given back, none is taken over in front of its end any more.** -/
theorem Tour.raises (h : Tour j floor s log r) : List.IsChain
    (fun a b : Progress × Deed => a.2 = .giveBack → a.1.reuseFrom < b.1.reuseFrom) log := by
  induction h with
  | last => exact .singleton _
  | @goOn floor floor' s s' d log r _ _ _ hnext hlog ih =>
    obtain ⟨d', rest, rfl⟩ := hlog.turns.exists_cons
    refine .cons_cons (fun hd => ?_) ih
    have hd : d = .giveBack := hd
    subst hd
    exact hnext.reuseFrom_lt

/-- Between turns the pace is kept throughout. -/
theorem Tour.paced (h : Tour j floor s log r) : ∀ e ∈ log, ∃ floor, e.1.Paced j floor := by
  induction h with
  | last hs =>
    intro e he
    obtain rfl := List.mem_singleton.mp he
    exact ⟨_, hs⟩
  | goOn hs _ _ _ _ ih =>
    intro e he
    rcases List.mem_cons.mp he with rfl | he
    · exact ⟨_, hs⟩
    · exact ih e he

/-! ## The beginning -/

theorem entered_paced (j : ParseJob) (state : Nat) : (j.entered state).Paced j 0 := by
  have hfresh := ParseJob.entered_fresh j state
  refine ⟨⟨⟨0, hfresh.standing⟩, ParseJob.entered_edges j state,
    ⟨Nat.zero_le _, Nat.le_refl _, Nat.zero_le _, fun l hl => ?_, Nat.zero_le _, Nat.zero_le _⟩,
    fun c hc => ?_⟩, fun _ => ⟨0, 0, hfresh⟩⟩
  · cases hl
  · cases hc

end Progress

end LayeredSyntax
