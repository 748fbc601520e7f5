/-
  REPAIRS — what each of them does, said once.

  A repair is one of three (`repair_cases`): it makes a symbol up on top of a head, it skips to a
  token at which a node of the first way down can go on, or it wraps everything up and the parse is
  over.

  What is popped by a repair are the subtrees on the first way down, from the first head to the node
  that is kept, and so they make a trail (`trail_of_chain`).

  **Every repair is counted** (`repairCount_repair`), so a parse that counts none was never stuck.
-/
import LayeredSyntax.Proofs.Parse.Running
import LayeredSyntax.Proofs.Parse.Trails

namespace LayeredSyntax

namespace ParseJob

variable {j : ParseJob} {p : Nat}

/-! ## The first ways down -/

variable {E : Face → Face → Label → Prop} {s : Stack}

/-- The subtrees that are popped from a node down to another one on its first way down make a
    trail. -/
theorem trail_of_chainFrom (hE : s.Edges E) : ∀ {fuel i k : Nat} {popped rest : List Nat},
    s.chainFrom i fuel = popped ++ k :: rest →
      Trail E (s.face k) (Progress.poppedPieces s popped) (s.face i) := by
  intro fuel
  induction fuel with
  | zero =>
    intro i k popped rest h
    exact absurd h.symm (List.append_ne_nil_of_right_ne_nil _ (List.cons_ne_nil _ _))
  | succ fuel ih =>
    intro i k popped rest h
    unfold Stack.chainFrom at h
    -- The way ends where a node has no edges.
    cases hedge : (s.node i).edges.head? with
    | none =>
      rw [hedge] at h
      obtain ⟨rfl, hk⟩ : popped = [] ∧ [i] = k :: rest := by
        cases popped with
        | nil => exact ⟨rfl, h⟩
        | cons a popped =>
          exact absurd (List.cons.inj h).2.symm
            (List.append_ne_nil_of_right_ne_nil _ (List.cons_ne_nil _ _))
      obtain rfl := (List.cons.inj hk).1
      exact .nil _
    | some e =>
      rw [hedge] at h
      cases popped with
      | nil =>
        obtain rfl := (List.cons.inj h).1
        exact .nil _
      | cons a popped =>
        obtain ⟨rfl, hrest⟩ : i = a ∧ s.chainFrom e.below fuel = popped ++ k :: rest :=
          List.cons.inj h
        have hpopped : Progress.poppedPieces s (i :: popped) =
            Progress.poppedPieces s popped ++ [e.label] := by
          unfold Progress.poppedPieces
          rw [List.filterMap_cons, hedge]
          exact List.reverse_cons
        rw [hpopped]
        exact (ih hrest).snoc (hE i e (List.mem_of_head? hedge))

/-- The same from the first head. -/
theorem trail_of_chain (hE : s.Edges E) {k : Nat} {popped rest : List Nat}
    (h : s.chain = popped ++ k :: rest) :
    ∃ head ∈ s.heads, Trail E (s.face k) (Progress.poppedPieces s popped) (s.face head) := by
  unfold Stack.chain at h
  split at h
  · exact absurd h.symm (List.append_ne_nil_of_right_ne_nil _ (List.cons_ne_nil _ _))
  · next head rest' hheads =>
    exact ⟨head, by rw [hheads]; exact List.mem_cons_self, trail_of_chainFrom hE h⟩

/-! ## What repairs do -/

variable {i : Insertion} {head : Nat}

/-- What is made up at a head leads to a state behind it. -/
theorem insertionsAt_spec (h : i ∈ j.insertionsAt s head) :
    i.head = head ∧ j.stateBehind? (s.state head) i.symbol = some i.target := by
  have hfold : ∀ (all kept : List Insertion) (P : Insertion → Prop), (∀ i ∈ all, P i) →
      (∀ i ∈ kept, P i) → ∀ i ∈ all.foldl (fun kept i =>
        if kept.any (·.symbol == i.symbol) then kept else kept ++ [i]) kept, P i := by
    intro all
    induction all with
    | nil => exact fun _ _ _ hkept => hkept
    | cons a all ih =>
      intro kept P hall hkept
      rw [List.foldl_cons]
      refine ih _ P (fun i hi => hall i (List.mem_cons_of_mem _ hi)) fun i hi => ?_
      split at hi
      · exact hkept i hi
      · rcases List.mem_append.mp hi with hi | hi
        · exact hkept i hi
        · obtain rfl := List.mem_singleton.mp hi
          exact hall i List.mem_cons_self
  unfold insertionsAt at h
  refine hfold _ _ (fun i => i.head = head ∧ j.stateBehind? (s.state head) i.symbol =
    some i.target) (fun i hi => ?_) (fun i hi => absurd hi List.not_mem_nil) i h
  obtain ⟨item, _, hitem⟩ := List.mem_filterMap.mp hi
  obtain ⟨symbol, _, hsymbol⟩ := Option.bind_eq_some_iff.mp hitem
  obtain ⟨target, htarget, heq⟩ := Option.bind_eq_some_iff.mp hsymbol
  cases heq
  exact ⟨rfl, htarget⟩

/-- **A symbol is made up on top of a head and leads to the state behind it.** -/
theorem insertions_spec [Limits] (h : i ∈ j.insertions s p) :
    i.head ∈ s.heads ∧ j.stateBehind? (s.state i.head) i.symbol = some i.target := by
  unfold insertions at h
  dsimp only at h
  rw [List.partition_eq_filter_filter] at h
  have hall : i ∈ s.heads.flatMap (j.insertionsAt s) := by
    rcases List.mem_append.mp (List.mem_of_mem_take (List.mem_filter.mp h).1) with h | h
    · exact (List.mem_filter.mp h).1
    · exact (List.mem_filter.mp h).1
  obtain ⟨head, hhead, hi⟩ := List.mem_flatMap.mp hall
  obtain ⟨heq, hbehind⟩ := insertionsAt_spec hi
  rw [heq]
  exact ⟨hhead, hbehind⟩

end ParseJob

namespace Progress

variable {j : ParseJob} {s s' : Progress}

theorem insert_spec [Limits] (j : ParseJob) (s : Progress) (i : Insertion) :
    (s.insert j i).stack = s.stack.pushOnly ⟨i.target, s.position, s.position,
      [⟨i.head, ⟨.missing (j.insertedKind i.symbol) i.grammar i.symbol, s.position, s.position⟩⟩]⟩ ∧
    (s.insert j i).position = s.position ∧ (s.insert j i).regions = s.regions ∧
    (s.insert j i).settled = false ∧ (s.insert j i).checkpoint = s.checkpoint ∧
    (s.insert j i).repairCount = s.repairCount := by
  unfold insert
  dsimp only
  split <;> exact ⟨rfl, rfl, rfl, rfl, rfl, rfl⟩

theorem markAll_eq (s : Progress) (first last : Nat) :
    ∃ marks, s.markAll first last = { s with marks } := by
  have hfold : ∀ (ps : List Nat) (s : Progress), ∃ marks, ps.foldl mark s = { s with marks } := by
    intro ps
    induction ps with
    | nil => exact fun s => ⟨s.marks, rfl⟩
    | cons p ps ih =>
      intro s
      obtain ⟨marks, h⟩ := ih (s.mark p)
      exact ⟨marks, h⟩
  exact hfold _ s

theorem regions_markAll (s : Progress) (first last : Nat) :
    (s.markAll first last).regions = s.regions := by
  obtain ⟨marks, hmarks⟩ := markAll_eq s first last
  rw [hmarks]

theorem repairCount_markAll (s : Progress) (first last : Nat) :
    (s.markAll first last).repairCount = s.repairCount := by
  obtain ⟨marks, hmarks⟩ := markAll_eq s first last
  rw [hmarks]

/-- Where a parse is taken up again. -/
theorem landing_spec {chain popped : List Nat} {p q k : Nat} {stack : Stack}
    (h : landing? j stack chain p = some (q, popped, k)) :
    p ≤ q ∧ q ≤ j.finish ∧ ∃ rest, chain = popped ++ k :: rest := by
  fun_induction landing? j stack chain p with
  | case1 p hle fits k' hfind =>
    obtain ⟨rfl, rfl, rfl⟩ : p = q ∧ chain.takeWhile (!fits ·) = popped ∧ k' = k := by
      simpa using h
    refine ⟨Nat.le_refl _, hle, ?_⟩
    have hfind' : chain.find? fits = some k' := by
      split at hfind
      · exact hfind
      · cases hfind
    obtain ⟨hfits, front, rest, rfl, hfront⟩ := List.find?_eq_some_iff_append.mp hfind'
    refine ⟨rest, ?_⟩
    rw [List.takeWhile_append_of_pos hfront, List.takeWhile_cons_of_neg (by rw [hfits]; decide),
      List.append_nil]
  | case2 p hle fits hnone ih =>
    obtain ⟨hp, hq⟩ := ih h
    exact ⟨by omega, hq⟩
  | case3 => cases h

variable [Limits]

/-- **Skipping, but for marks and events**: a region is left behind, and the node that it ends on is
    put on again. -/
theorem eq_of_skip? (h : s.skip? j = some s') : ∃ q popped k marks events,
    landing? j s.stack s.stack.chain (s.position + 1) = some (q, popped, k) ∧
    s' = { s.leaveRegion j (s.stack.face k).covered q popped
        (.unexpected (j.tokens.text s.position)) with
      stack := s.stack.pushOnly ⟨(s.stack.face k).state, q, (s.stack.face k).covered,
        s.stack.edges k⟩
      position := q
      settled := false
      marks
      events } := by
  unfold skip? at h
  obtain ⟨⟨q, popped, k⟩, hland, h⟩ := Option.bind_eq_some_iff.mp h
  -- Only marks and events are changed once the region was left behind.
  have hframe : ∀ s₀ : Progress, some (if j.reportRepairs then
        (s₀.markAll (s.stack.node k).covered q).tell
          ((Event.debug "Skipped to resynchronization token")
          |>.withCount "from" s.position |>.withCount "to" q)
      else s₀.markAll (s.stack.node k).covered q) = some s' →
      ∃ marks events, s' = { s₀ with marks, events } := by
    intro s₀ hs₀
    obtain ⟨marks, hmarks⟩ := markAll_eq s₀ (s.stack.node k).covered q
    rw [hmarks] at hs₀
    split at hs₀ <;> cases hs₀ <;> exact ⟨_, _, rfl⟩
  obtain ⟨marks, events, hsame⟩ := hframe _ h
  exact ⟨q, popped, k, marks, events, hland, hsame⟩

/-- What skipping leaves behind. -/
theorem skip_spec (h : s.skip? j = some s') : ∃ q popped k rest cause,
    s.position < q ∧ q ≤ j.finish ∧ s.stack.chain = popped ++ k :: rest ∧
    s'.stack = s.stack.pushOnly ⟨(s.stack.face k).state, q, (s.stack.face k).covered,
      s.stack.edges k⟩ ∧
    s'.position = q ∧ s'.settled = false ∧ s'.checkpoint = s.checkpoint ∧
    s'.repairCount = s.repairCount ∧
    s'.regions = (s.leaveRegion j (s.stack.face k).covered q popped cause).regions := by
  obtain ⟨q, popped, k, marks, events, hland, rfl⟩ := eq_of_skip? h
  obtain ⟨hlt, hle, rest, hchain⟩ := landing_spec hland
  exact ⟨q, popped, k, rest, .unexpected (j.tokens.text s.position), hlt, hle, hchain, rfl, rfl,
    rfl, rfl, rfl, rfl⟩

/-- One more repair. -/
def counted (s : Progress) : Progress := { s with repairCount := s.repairCount + 1 }

/-- **The three repairs.** -/
theorem repair_cases (j : ParseJob) (s : Progress) :
    (s.repairCount < Limits.repairs ∧ s.mayInsert j = true ∧
      ∃ i, (j.insertions s.stack s.position).head? = some i ∧
        s.repair j = (true, s.counted.insert j i)) ∨
    (s.repairCount < Limits.repairs ∧
      ∃ s', s.counted.skip? j = some s' ∧ s.repair j = (true, s')) ∨
    ∃ events cause, s.repair j = (false, { s.counted with events }.wrap j cause) := by
  unfold repair
  dsimp only
  split
  · exact .inr (.inr ⟨_, _, rfl⟩)
  · next hlimit =>
    have hlt : s.repairCount < Limits.repairs := Nat.not_lt.mp hlimit
    split
    · next i hi =>
      split at hi
      · next hmay => exact .inl ⟨hlt, hmay, i, hi, rfl⟩
      · cases hi
    · split
      · next s' hs' =>
        refine .inr (.inl ⟨hlt, s', ?_, rfl⟩)
        split at hs'
        · exact hs'
        · cases hs'
      · exact .inr (.inr ⟨_, _, rfl⟩)

/-- After a repair nothing of the next turn has been done yet. -/
theorem plain_repair (h : s.checkpoint = none) (hon : (s.repair j).1 = true) :
    (s.repair j).2.Plain := by
  rcases repair_cases j s with
    ⟨_, _, i, _, heq⟩ | ⟨_, s', hs', heq⟩ | ⟨events, cause, heq⟩
  · obtain ⟨_, _, _, hsettled, hcheck, _⟩ := insert_spec j s.counted i
    rw [heq]
    exact ⟨hsettled, hcheck.trans h⟩
  · obtain ⟨_, _, _, _, _, _, _, _, _, _, hsettled, hcheck, _⟩ := skip_spec hs'
    rw [heq]
    exact ⟨hsettled, hcheck.trans h⟩
  · rw [heq] at hon
    cases hon

/-- **Every repair is counted.** -/
theorem repairCount_repair (j : ParseJob) (s : Progress) :
    (s.repair j).2.repairCount = s.repairCount + 1 := by
  rcases repair_cases j s with
    ⟨_, _, i, _, heq⟩ | ⟨_, s', hs', heq⟩ | ⟨events, cause, heq⟩
  · obtain ⟨_, _, _, _, _, hcount⟩ := insert_spec j s.counted i
    rw [heq]
    exact hcount
  · obtain ⟨_, _, _, _, _, _, _, _, _, _, _, _, hcount, _⟩ := skip_spec hs'
    rw [heq]
    exact hcount
  · rw [heq]
    unfold wrap
    dsimp only
    split
    · rfl
    · next bottom _ =>
      rw [repairCount_markAll]
      rfl

end Progress

end LayeredSyntax
