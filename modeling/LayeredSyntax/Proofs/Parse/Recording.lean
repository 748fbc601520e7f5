/-
  RECORDS — every region goes with the repair that left it behind.

  A repair that skips tokens or wraps everything up files a region by its first position and, in the
  same breath, remembers why it was made by the byte at which that position begins
  (`Progress.LeavesBehind`).  Both lists grow together and in the same order (`Records`).

  What is kept from turn to turn is kept by a whole parse (`Turns.rule`).  So in the end the
  outermost regions of the tree are filed, and **the repair that is found for a region is the one
  that left it behind** (`Records.lookup`), as no two positions begin at one byte.
-/
import LayeredSyntax.Proofs.Parse.Counting
import LayeredSyntax.Proofs.Parse.Keeping

namespace LayeredSyntax

open ParseJob

namespace Progress

variable {j : ParseJob} {s s' s₁ : Progress} {r : ParseRun} {log : TurnLog}

section

variable [Limits]

/-- **Whether a turn leaves a region behind**, and remembers a repair for it: it halts with nothing
    to give back, so the parse is repaired. -/
def LeavesBehind (j : ParseJob) (s : Progress) (region : Region) (repair : Repair) : Prop :=
  ∃ s₁, Halts j s s₁ ∧ s₁.giveBack? = none ∧
    (s₁.givenUp.repair j).2.regions = region :: s₁.regions ∧
    (s₁.givenUp.repair j).2.repairs = (j.tokens.startByte region.first, repair) :: s₁.repairs

/-- Whether regions and repairs were left behind side by side in some turns. -/
def Records (j : ParseJob) (log : TurnLog) (regions : Regions) (repairs : Repairs) : Prop :=
  List.Forall₂ (fun region x => x.1 = j.tokens.startByte region.first ∧
    ∃ e ∈ log, LeavesBehind j e.1 region x.2) regions repairs

theorem Records.mono {more : TurnLog} {regions : Regions} {repairs : Repairs}
    (h : Records j log regions repairs) : Records j (log ++ more) regions repairs := by
  refine List.Forall₂.imp (fun region x hx => ?_) h
  obtain ⟨hkey, e, he, hleaves⟩ := hx
  exact ⟨hkey, e, List.mem_append_left _ he, hleaves⟩

/-- **The repair that is found for a region is the one that left it behind.** -/
theorem Records.lookup {regions : Regions} {repairs : Repairs} (h : Records j log regions repairs)
    {p : Nat} (hinj : ∀ region ∈ regions,
      j.tokens.startByte region.first = j.tokens.startByte p → region.first = p)
    {region : Region} (hat : regions.at? p = some region) :
    ∃ repair, repairs.lookup (j.tokens.startByte p) = some repair ∧
      ∃ e ∈ log, LeavesBehind j e.1 region repair := by
  induction h with
  | nil => cases hat
  | @cons first x regions repairs hx _ ih =>
    obtain ⟨key, repair⟩ := x
    obtain ⟨rfl, hleaves⟩ := hx
    rw [at?_cons] at hat
    rw [List.lookup_cons]
    split at hat
    · next heq =>
      cases hat
      rw [heq, beq_self_eq_true]
      exact ⟨repair, rfl, hleaves⟩
    · next hne =>
      have hbytes : (j.tokens.startByte p == j.tokens.startByte first.first) = false := by
        refine beq_eq_false_iff_ne.mpr fun heq => hne ?_
        exact hinj first List.mem_cons_self heq.symm
      rw [hbytes]
      exact ih (fun region hr => hinj region (List.mem_cons_of_mem _ hr)) hat

/-! ## What repairs leave behind -/

theorem repairs_insert (j : ParseJob) (s : Progress) (i : Insertion) :
    (s.insert j i).repairs = s.repairs := by
  unfold insert
  dsimp only
  split <;> rfl

theorem skip_leaves (h : s.skip? j = some s') : ∃ region repair,
    s'.regions = region :: s.regions ∧
      s'.repairs = (j.tokens.startByte region.first, repair) :: s.repairs := by
  obtain ⟨q, popped, k, marks, events, _, rfl⟩ := eq_of_skip? h
  exact ⟨_, _, rfl, rfl⟩

omit [Limits] in
/-- What is wrapped up is everything from where the first way down ends. -/
theorem wrap_leaves {bottom : Nat} (h : s.stack.chain.getLast? = some bottom)
    (cause : RepairCause) : ∃ region repair, (s.wrap j cause).regions = region :: s.regions ∧
      (s.wrap j cause).repairs = (j.tokens.startByte region.first, repair) :: s.repairs ∧
      region.first = (s.stack.face bottom).covered ∧ region.stop = j.finish ∧
      region.node.isRegion = true := by
  unfold wrap
  rw [h]
  dsimp only
  obtain ⟨marks, hmarks⟩ := markAll_eq (s.leaveRegion j (s.stack.node bottom).covered j.finish
    s.stack.chain.dropLast cause) (min (s.stack.node bottom).covered
      (s.leaveRegion j (s.stack.node bottom).covered j.finish s.stack.chain.dropLast
        cause).position) j.finish
  rw [hmarks]
  exact ⟨_, _, rfl, rfl, rfl, rfl, rfl⟩

omit [Limits] in
/-- The first way down has a last node where there are heads, and it is covered up to the beginning
    of the text only. -/
theorem Filed.exists_bottom (h : s.Filed j) : ∃ bottom, s.stack.chain.getLast? = some bottom ∧
    (s.stack.face bottom).covered = 0 := by
  obtain ⟨base, c, hfresh, _⟩ := h.top
  have hne : s.stack.chain ≠ [] := by
    obtain ⟨head, rest, hheads⟩ := List.exists_cons_of_ne_nil h.sound.heads_ne_nil
    have hlt : head < s.stack.nodes.size := by
      refine (hfresh.mem_heads.mp ?_).2
      rw [hheads]
      exact List.mem_cons_self
    unfold Stack.chain
    rw [hheads]
    dsimp only
    obtain ⟨n, hn⟩ : ∃ n, s.stack.nodes.size = n + 1 := ⟨s.stack.nodes.size - 1, by omega⟩
    rw [hn, Stack.chainFrom]
    split <;> exact List.cons_ne_nil _ _
  obtain ⟨bottom, hbottom⟩ := Option.isSome_iff_exists.mp (List.getLast?_isSome.mpr hne)
  have hchain : s.stack.chain = s.stack.chain.dropLast ++ bottom :: [] :=
    (List.dropLast_append_getLast? bottom hbottom).symm
  obtain ⟨_, _, hlt⟩ := h.of_chain hchain
  exact ⟨bottom, hbottom, h.grounded bottom hlt (hfresh.standing.edges_of_getLast?_chain hbottom)⟩

/-! ## From turn to turn -/

/-- **The rule of turns.** -/
theorem Turns.rule {P : TurnLog → Progress → Prop} {Q : TurnLog → ParseRun → Prop}
    (hgoOn : ∀ {done s d s'}, P done s → Step j s d (.goOn s') → P (done ++ [(s, d)]) s')
    (hover : ∀ {done s d r}, P done s → Step j s d (.over r) → Q (done ++ [(s, d)]) r)
    (h : Turns j s log r) : ∀ done, P done s → Q (done ++ log) r := by
  induction h with
  | last _ hd => exact fun _ hs => hover hs hd
  | @goOn s s' d log r _ hd _ ih =>
    intro done hs
    have hrest := ih _ (hgoOn hs hd)
    rwa [List.append_assoc] at hrest

/-- **What is kept from turn to turn** where no subtrees are taken over. -/
structure Recorded (j : ParseJob) (log : TurnLog) (s : Progress) : Prop where
  plain : s.Plain
  filed : s.Filed j
  records : Records j log s.regions s.repairs

end

theorem settle_of_plain (h : s.Plain) : s.settle j = s.reduceAll j := by
  unfold settle
  rw [h.unsettled]
  rfl

variable [Limits]

theorem takeOver?_of_reuse (h : j.reuse = none) (s : Progress) : s.takeOver? j = none := by
  unfold takeOver?
  rw [h]
  rfl

omit [Limits] in
theorem repairs_shift (j : ParseJob) (s : Progress) : (s.shift j).2.repairs = s.repairs := by
  cases h : (s.shift j).1 with
  | false =>
    obtain ⟨marks, hsame⟩ := shift_of_false h
    rw [hsame]
  | true =>
    obtain ⟨stack, marks, hsame⟩ := shift_of_true h
    rw [hsame]

/-- Where a parse halts, it is as far as before. -/
theorem Recorded.halts (h : Recorded j log s) (hj : j.Ready) (ht : j.table.Canonical)
    (hhalts : Halts j s s₁) : s₁.Filed j ∧ s₁.checkpoint = none ∧
      Records j log s₁.regions s₁.repairs := by
  have hsettle : s.settle j = s.reduceAll j := settle_of_plain h.plain
  have hfiled := h.filed.reduceAll hj ht
  cases hhalts with
  | finish =>
    rw [hsettle]
    exact ⟨hfiled, h.plain.checkpoint, h.records⟩
  | token =>
    rw [hsettle, regions_shift, repairs_shift]
    exact ⟨hfiled.shift hj ht, checkpoint_shift j _ h.plain.checkpoint, h.records⟩

/-- One more region with its repair. -/
theorem Records.leave {region : Region} {repair : Repair} {d : Deed}
    (h : Records j log s₁.regions s₁.repairs) (hhalts : Halts j s s₁)
    (hback : s₁.giveBack? = none)
    (hregions : (s₁.givenUp.repair j).2.regions = region :: s₁.regions)
    (hrepairs : (s₁.givenUp.repair j).2.repairs =
      (j.tokens.startByte region.first, repair) :: s₁.repairs) :
    Records j (log ++ [(s, d)]) (s₁.givenUp.repair j).2.regions
      (s₁.givenUp.repair j).2.repairs := by
  have hleaves : LeavesBehind j s region repair := ⟨s₁, hhalts, hback, hregions, hrepairs⟩
  rw [hregions, hrepairs]
  exact .cons ⟨rfl, (s, d), List.mem_append_right _ (List.mem_singleton.mpr rfl), hleaves⟩ h.mono

/-- **A turn after which the parse goes on keeps what is kept.** -/
theorem Recorded.goOn (h : Recorded j log s) (hj : j.Ready) (ht : j.table.Canonical)
    (hreuse : j.reuse = none) {d : Deed} (hd : Step j s d (.goOn s')) :
    Recorded j (log ++ [(s, d)]) s' := by
  have hsettle : s.settle j = s.reduceAll j := settle_of_plain h.plain
  cases hd with
  | takeOver _ htake =>
    rw [takeOver?_of_reuse hreuse] at htake
    cases htake
  | read _ _ hreads =>
    rw [hsettle] at hreads ⊢
    refine ⟨plain_shift h.plain.checkpoint hreads, (h.filed.reduceAll hj ht).shift hj ht, ?_⟩
    rw [regions_shift, repairs_shift]
    exact h.records.mono
  | giveBack hhalts hback =>
    obtain ⟨_, hcheck, _⟩ := h.halts hj ht hhalts
    obtain ⟨c, hc, _⟩ := giveBack_spec hback
    rw [hcheck] at hc
    cases hc
  | @insert s₁ i hhalts _ _ _ hi hrepair =>
    obtain ⟨hfiled, _, hrecords⟩ := h.halts hj ht hhalts
    have hplain : (s₁.givenUp.repair j).2.Plain := plain_repair rfl (by rw [hrepair])
    have hcounted : s₁.givenUp.counted.Filed j := hfiled.congr rfl rfl rfl
    rw [hrepair] at hplain
    refine ⟨hplain, hcounted.insert (List.mem_of_head? hi), ?_⟩
    rw [(insert_spec j s₁.givenUp.counted i).2.2.1, repairs_insert]
    exact hrecords.mono
  | @skip s₁ _ hhalts hback _ hskip hrepair =>
    obtain ⟨hfiled, _, hrecords⟩ := h.halts hj ht hhalts
    have hplain : (s₁.givenUp.repair j).2.Plain := plain_repair rfl (by rw [hrepair])
    have hcounted : s₁.givenUp.counted.Filed j := hfiled.congr rfl rfl rfl
    obtain ⟨region, repair, hregions, hrepairs⟩ := skip_leaves hskip
    have hsame : (s₁.givenUp.repair j).2 = s' := by rw [hrepair]
    rw [hsame] at hplain
    refine ⟨hplain, hcounted.skip hj hskip, ?_⟩
    rw [← hsame] at hregions hrepairs ⊢
    exact hrecords.leave hhalts hback hregions hrepairs

end Progress

/-! ## In the end -/

variable [Limits]

/-- **Whether the regions of a tree are filed**, each with the repair of some turn. -/
structure ParseRun.Filed (j : ParseJob) (log : TurnLog) (regions : Regions) (r : ParseRun) :
    Prop where
  read : j.RegionsRead regions
  behind : RegionsBehind regions j.finish
  files : regions.Files 0 j.finish r.tree.children
  records : Progress.Records j log regions r.repairs

namespace Progress

variable {j : ParseJob} {s s₁ : Progress} {r : ParseRun} {log : TurnLog}

omit [Limits] in
/-- **What is wrapped up fills the whole text.** -/
theorem Filed.wrap (h : s.Filed j) (hj : j.Ready) (hpos : j.finish ≠ 0) (cause : RepairCause) :
    j.RegionsRead (s.wrap j cause).regions ∧ RegionsBehind (s.wrap j cause).regions j.finish ∧
      Regions.Fills (s.wrap j cause).regions 0 j.finish := by
  obtain ⟨bottom, hbottom, hzero⟩ := h.exists_bottom
  obtain ⟨region, repair, hregions, _, hfirst, hstop, hregion⟩ :=
    wrap_leaves (j := j) hbottom cause
  rw [hzero] at hfirst
  refine ⟨wrap_regions hj h.sound.whole.upright cause, ?_, fun _ => ?_⟩
  · rw [hregions]
    intro r hr
    rcases List.mem_cons.mp hr with rfl | hr
    · exact ⟨by omega, Nat.le_of_eq hstop, hregion⟩
    · obtain ⟨hr₁, hr₂, hr₃⟩ := h.regions r hr
      exact ⟨hr₁, Nat.le_trans hr₂ h.sound.whole.position_le, hr₃⟩
  · obtain ⟨children, hnode⟩ : ∃ children, region.node = .error children := by
      cases hn : region.node with
      | error children => exact ⟨children, rfl⟩
      | leaf | trivia | skipped | missing | rule | root =>
        rw [hn] at hregion
        cases hregion
    rw [hregions, at?_cons, if_pos hfirst]
    exact ⟨region, children, rfl, hstop, hnode⟩

/-- A repair after which the parse does not go on wraps everything up. -/
theorem eq_wrap_of_repair {s' : Progress} (h : s₁.givenUp.repair j = (false, s')) :
    ∃ events cause, s' = { s₁.givenUp.counted with events }.wrap j cause := by
  rcases repair_cases j s₁.givenUp with ⟨_, _, i, _, heq⟩ | ⟨_, _, _, heq⟩ | ⟨events, cause, heq⟩
  · rw [heq] at h
    cases h
  · rw [heq] at h
    cases h
  · rw [heq] at h
    exact ⟨events, cause, (Prod.mk.inj h).2.symm⟩

/-- **When a parse is over, the regions of its tree are filed.** -/
theorem Recorded.over (h : Recorded j log s) (hj : j.Ready) (ht : j.table.Canonical)
    (hpos : j.finish ≠ 0) {d : Deed} (hd : Step j s d (.over r)) :
    ∃ regions, r.Filed j (log ++ [(s, d)]) regions := by
  cases hd with
  | accept hfinish haccepted =>
    rw [settle_of_plain h.plain] at haccepted ⊢
    have hfiled := h.filed.reduceAll hj ht
    obtain ⟨hle, hlaid, hfills⟩ := hfiled.accepted ht hfinish haccepted
    have hread : j.RegionsRead s.regions := h.filed.sound.whole.regions
    refine ⟨s.regions, hread, ?_, ?_, h.records.mono⟩
    · rw [← hfinish]
      exact h.filed.regions
    · exact assembleRoot_files hj.regular hread hpos hle hlaid hfills
  | @wrap s₁ s' hhalts hback hrepair =>
    obtain ⟨hfiled, _, hrecords⟩ := h.halts hj ht hhalts
    obtain ⟨events, cause, hwrap⟩ := eq_wrap_of_repair hrepair
    have hcounted : ({ s₁.givenUp.counted with events } : Progress).Filed j :=
      hfiled.congr rfl rfl rfl
    obtain ⟨hread, hbehind, hfills⟩ := hcounted.wrap hj hpos cause
    obtain ⟨bottom, hbottom, _⟩ := hcounted.exists_bottom
    obtain ⟨region, repair, hregions, hrepairs, _⟩ := wrap_leaves (j := j) hbottom cause
    have hsame : (s₁.givenUp.repair j).2 = s' := by rw [hrepair]
    rw [← hwrap] at hread hbehind hfills hregions hrepairs
    refine ⟨s'.regions, hread, hbehind, ?_, ?_⟩
    · exact assembleRoot_files hj.regular hread hpos (Nat.zero_le _) rfl hfills
    · rw [← hsame] at hregions hrepairs
      have hleft := hrecords.leave (d := .wrap) hhalts hback hregions hrepairs
      rw [hsame] at hleft
      exact hleft

end Progress

/-- **The regions of the tree of a parse are filed**, each with the repair of one of its turns. -/
theorem ParseJob.run_filed {j : ParseJob} {entry : Entry} {log : TurnLog} (hj : j.Ready)
    (ht : j.table.Canonical) (hreuse : j.reuse = none) (hpos : j.finish ≠ 0)
    (hturns : (j.entered entry.state).Turns j log j.run) :
    ∃ regions, j.run.Filed j log regions := by
  refine hturns.rule (P := Progress.Recorded j) (Q := fun log r => ∃ regions, r.Filed j log regions)
    (fun h hd => h.goOn hj ht hreuse hd) (fun h hd => h.over hj ht hpos hd) [] ?_
  exact ⟨entered_plain j entry.state, Progress.entered_filed j entry.state, .nil⟩

end LayeredSyntax
