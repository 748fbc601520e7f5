/-
  CANONICAL MODES — the modes that reading a text can reach.

  A mode has more fields than any one layer uses.  What the fields of the other layers hold matters all
  the same: modes are compared when a text is read again after an edit, and a field that was left over
  would make equal places look different or end the wrong region.  `Mode.Canonical` says what the fields
  that are not in use hold:

  1. The raw layer is the one with a fence, and no fence goes back to it.
  2. In the class layer every field but those of the member is as at the start.
  3. Braces are only counted in commands, or in a raw region among them.
  4. JSON brackets are counted up to a limit, and no bit stands above them.

  **The crux (`Reading.CodeStep`)**: a step of the code layers stays where it is, opens a fence, leaves a
  value or ends a member.  The order in which a closing brace is looked at decides between the last two,
  so that a member only ends outside of values; and the kind of a closing brace is one behind which no
  command block is kept open.
-/
import LayeredSyntax.Lexicon.Scan
import Mathlib

namespace LayeredSyntax

/-! ## JSON brackets -/

namespace JsonNesting

/-- A nesting that was built from the empty one: not too deep, and no bit at or above its depth. -/
structure Sound (j : JsonNesting) : Prop where
  depth_le : j.depth ≤ maxDepth
  testBit_eq : ∀ i, j.depth ≤ i → j.arrays.testBit i = false

theorem empty_sound : empty.Sound := ⟨Nat.zero_le _, fun _ _ => Nat.zero_testBit _⟩

/-- **Taking out the highest bit leaves the bits below it.** -/
theorem clearBit_eq_mod {bits i : Nat} (h : bits < 2 ^ (i + 1)) : clearBit bits i = bits % 2 ^ i := by
  have hdiv := Nat.div_add_mod bits (2 ^ i)
  have hquotient : bits / 2 ^ i < 2 := Nat.div_lt_of_lt_mul (Nat.pow_succ 2 i ▸ h)
  unfold clearBit
  rw [Nat.testBit_eq_decide_div_mod_eq, Nat.one_shiftLeft]
  obtain hzero | hone := Nat.le_one_iff_eq_zero_or_eq_one.mp (Nat.le_of_lt_succ hquotient)
  · rw [hzero, Nat.mul_zero, Nat.zero_add] at hdiv
    rw [hzero, hdiv]
    rfl
  · rw [hone, Nat.mul_one] at hdiv
    rw [hone, if_pos (by decide), ← hdiv, Nat.add_sub_cancel_left, Nat.add_mod_left,
      Nat.mod_mod]

theorem clearBit_lt {bits i : Nat} (h : bits < 2 ^ (i + 1)) : clearBit bits i < 2 ^ i := by
  rw [clearBit_eq_mod h]
  exact Nat.mod_lt _ (Nat.two_pow_pos i)

theorem sound_of_lt {j : JsonNesting} (hdepth : j.depth ≤ maxDepth) (h : j.arrays < 2 ^ j.depth) :
    j.Sound :=
  ⟨hdepth, fun _ hi =>
    Nat.testBit_lt_two_pow (Nat.lt_of_lt_of_le h (Nat.pow_le_pow_right Nat.two_pos hi))⟩

theorem Sound.arrays_lt {j : JsonNesting} (h : j.Sound) : j.arrays < 2 ^ j.depth :=
  Nat.lt_pow_two_of_testBit _ h.testBit_eq

theorem Sound.pop {j : JsonNesting} (h : j.Sound) : j.pop.Sound := by
  unfold JsonNesting.pop
  split
  · exact h
  · next hdepth =>
    have hle := h.depth_le
    refine sound_of_lt (show j.depth - 1 ≤ maxDepth by omega) (clearBit_lt ?_)
    rw [Nat.sub_add_cancel (Nat.pos_of_ne_zero hdepth)]
    exact h.arrays_lt

theorem Sound.push? {j j' : JsonNesting} {array : Bool} (h : j.Sound)
    (hpush : j.push? array = some j') : j'.Sound := by
  unfold JsonNesting.push? at hpush
  split at hpush
  · cases hpush
  · next hdepth =>
    cases hpush
    have hpow := Nat.pow_succ 2 j.depth
    have hrest : clearBit j.arrays j.depth < 2 ^ j.depth :=
      clearBit_lt (Nat.lt_of_lt_of_le h.arrays_lt (by omega))
    refine sound_of_lt (show j.depth + 1 ≤ maxDepth by omega) ?_
    show (if array then _ else _) < 2 ^ (j.depth + 1)
    split
    · rw [Nat.one_shiftLeft]
      omega
    · omega

/-- What a step does to the nesting: nothing, or one bracket is closed or opened. -/
inductive Step (j : JsonNesting) : JsonNesting → Prop
  | same : Step j j
  | popped : Step j j.pop
  | pushed {array : Bool} {j' : JsonNesting} (h : j.push? array = some j') : Step j j'

theorem Sound.step {j j' : JsonNesting} (h : j.Sound) (hstep : j.Step j') : j'.Sound := by
  cases hstep with
  | same => exact h
  | popped => exact h.pop
  | pushed hpush => exact h.push? hpush

end JsonNesting

/-! ## What a step of the code layers can do -/

/-- A mode in the same place of the text around it; only what is inside the place has changed. -/
structure Mode.Stays (m m' : Mode) : Prop where
  layer : m'.layer = m.layer
  fence : m'.fence = m.fence
  member : m'.member = m.member
  braces : m'.braceDepth = m.braceDepth ∨ m.layer = .core
  json : m.json.Step m'.json

/-- **The steps of the code layers.** -/
inductive Reading.CodeStep (m : Mode) (r : Reading) : Prop
  | stays (h : m.Stays r.next)
  | opens (place : LinePosition) (kind : FenceKind) (hkind : r.kind = .embedOpen)
      (h : r.next = (m.goTo place).openFence kind)
  | leaves (hvalue : m.member.inValue = true) (hkind : r.kind = .punctuation)
      (h : r.next = m.leaveValue)
  | ends (hvalue : m.member.inValue = false) (hkind : r.kind = .punctuation)
      (h : r.next = m.endMember)

namespace Reading.CodeStep

variable {m : Mode} {r : Reading}

/-- Most steps only go to another place of the line. -/
theorem of_moves {kind : TokenKind} {n : Nat} {position : LinePosition} {postcond block : Bool} :
    CodeStep m ⟨kind, n, { m with position, postcond, blockCommand := block }⟩ :=
  .stays ⟨rfl, rfl, rfl, .inl rfl, .same⟩

/-- A step from another place of the line is one from here. -/
theorem of_goTo {place : LinePosition} (h : CodeStep (m.goTo place) r) : CodeStep m r := by
  cases h with
  | stays h => exact .stays ⟨h.layer, h.fence, h.member, h.braces, h.json⟩
  | opens place' kind hkind h => exact .opens place' kind hkind h
  | leaves hvalue hkind h => exact .leaves hvalue hkind h
  | ends hvalue hkind h => exact .ends hvalue hkind h

end Reading.CodeStep

section

open Reading

variable {cs : List Char} {m : Mode}

theorem readSpace_codeStep : CodeStep m (readSpace m cs) := by
  unfold readSpace
  cases m.position <;> dsimp only
  all_goals first | exact .of_moves | (split <;> exact .of_moves)

theorem readString_codeStep [Limits] {place : LinePosition} :
    CodeStep m (readString cs (m.goTo place)) :=
  .of_moves

theorem readBlockComment_codeStep : CodeStep m (readBlockComment cs m) := by
  unfold readBlockComment
  split <;> exact .of_moves

theorem readWord_codeStep [Limits] : CodeStep m (readWord m cs) := by
  unfold readWord
  split
  · exact .of_moves
  · dsimp only
    split <;> exact .of_moves

theorem readDollar_codeStep [Limits] : CodeStep m (readDollar m cs) := by
  unfold readDollar
  dsimp only
  split
  · split <;> exact .of_moves
  · split
    · exact .of_moves
    · split <;> exact .of_moves

theorem readDot_codeStep : CodeStep m (readDot m cs) := by
  unfold readDot
  split
  · exact .of_moves
  · split
    · exact .of_moves
    · split
      · exact .of_moves
      · split <;> exact .of_moves

theorem readHash_codeStep : CodeStep m (readHash m cs) := by
  unfold readHash
  split
  · exact .of_moves
  · split
    · exact .opens m.position _ rfl rfl
    · split <;> exact .of_moves

theorem readAmpersand_codeStep : CodeStep m (readAmpersand m cs) := by
  unfold readAmpersand
  split
  · exact .opens m.position _ rfl rfl
  · exact .of_moves

theorem readJsonOpen_codeStep {array : Bool} : CodeStep m (readJsonOpen m array) := by
  unfold readJsonOpen
  split
  · next json hpush => exact .stays ⟨rfl, rfl, rfl, .inl rfl, .pushed hpush⟩
  · exact .of_moves

theorem readBraceOpen_codeStep : CodeStep m (readBraceOpen m cs) := by
  unfold readBraceOpen
  split
  · next hblock =>
    -- Only commands have blocks.
    unfold Mode.opensBlock at hblock
    simp only [Bool.and_eq_true, beq_iff_eq] at hblock
    exact .stays ⟨rfl, rfl, rfl, .inr hblock.1.1, .same⟩
  · split
    · split
      · exact .of_moves
      · exact readJsonOpen_codeStep
    · exact .of_moves

theorem readBraceClose_codeStep : CodeStep m (readBraceClose m) := by
  unfold readBraceClose
  dsimp only
  split
  · exact .stays ⟨rfl, rfl, rfl, .inl rfl, .popped⟩
  · split
    · next hbraces =>
      simp only [Bool.and_eq_true, beq_iff_eq] at hbraces
      exact .stays ⟨rfl, rfl, rfl, .inr hbraces.1, .same⟩
    · split
      · next hvalue => exact .leaves hvalue rfl rfl
      · next hvalue =>
        split
        · exact .ends (Bool.eq_false_iff.mpr hvalue) rfl rfl
        · exact .of_moves

theorem readBracketClose_codeStep : CodeStep m (readBracketClose m cs) := by
  unfold readBracketClose
  split
  · exact .stays ⟨rfl, rfl, rfl, .inl rfl, .popped⟩
  · exact .of_moves

theorem readApostrophe_codeStep : CodeStep m (readApostrophe m cs) := by
  unfold readApostrophe
  split
  · split
    · exact .of_moves
    · split <;> exact .of_moves
  · exact .of_moves

theorem readBar_codeStep : CodeStep m (readBar m cs) := by
  unfold readBar
  split <;> exact .of_moves

variable [Limits]

theorem readGeneral_codeStep {c : Char} : CodeStep m (readGeneral m c cs) := by
  unfold readGeneral
  split
  · exact readWord_codeStep
  · split
    · exact .of_moves
    · split
      · exact readDot_codeStep
      · exact readString_codeStep
      · exact readDollar_codeStep
      · exact .of_moves
      · exact readHash_codeStep
      · exact readAmpersand_codeStep
      · exact readBraceOpen_codeStep
      · exact readBraceClose_codeStep
      · split
        · exact readJsonOpen_codeStep
        · exact .of_moves
      · exact readBracketClose_codeStep
      · exact .of_moves
      · exact .of_moves
      · exact readApostrophe_codeStep
      · exact .of_moves
      · exact .of_moves
      · exact .of_moves
      · exact .of_moves
      · exact readBar_codeStep
      · split
        · exact .of_moves
        · split <;> exact .of_moves

theorem readColumnZero_codeStep {c : Char} : CodeStep m (readColumnZero m c cs) := by
  unfold readColumnZero
  dsimp only
  split
  · exact .of_moves
  · exact readGeneral_codeStep

theorem readPattern_codeStep {c : Char} : CodeStep m (readPattern m c cs) := by
  unfold readPattern
  dsimp only
  split
  · exact readGeneral_codeStep.of_goTo
  · split <;> exact .of_moves

theorem readMacroName_codeStep : CodeStep m (readMacroName m cs) := by
  unfold readMacroName
  dsimp only
  split <;> exact .of_moves

theorem readMacroParams_codeStep {c : Char} : CodeStep m (readMacroParams m c cs) := by
  unfold readMacroParams
  split
  · exact .of_moves
  · split
    · exact .of_moves
    · split <;> exact .of_moves

/-- **Every step of the code layers is one of the four.** -/
theorem readCode_codeStep (m : Mode) (c : Char) (cs : List Char) : CodeStep m (readCode m c cs) := by
  unfold readCode
  split
  · split
    · exact .of_moves
    · exact readSpace_codeStep
  · split
    · exact readSpace_codeStep
    · split
      · exact .of_moves
      · split
        · exact readBlockComment_codeStep
        · split
          · exact .of_moves
          · split
            · split
              · exact readColumnZero_codeStep
              · exact readGeneral_codeStep
            · exact readMacroName_codeStep
            · exact readMacroParams_codeStep
            · exact .of_moves
            · exact readPattern_codeStep
            · exact readGeneral_codeStep

end

/-! ## Canonical modes -/

namespace Mode

/-- The mode of the class layer that knows a context. -/
def inClass (member : ClassContext) : Mode :=
  ⟨.udl, .commandStart, false, false, 0, .empty, none, member⟩

/-- Whether a raw region goes back to a layer. -/
def Resumes (m : Mode) (layer : Layer) : Prop := ∃ fence, m.fence = some fence ∧ fence.resume = layer

/-- **A canonical mode**: what is not in use is as at the start. -/
structure Canonical (m : Mode) : Prop where
  /-- The raw layer is the one with a fence. -/
  raw_iff : m.layer = .raw ↔ m.fence.isSome = true
  /-- No fence goes back to the raw layer. -/
  not_resumes_raw : ¬ m.Resumes .raw
  /-- In the class layer the context is everything. -/
  eq_inClass : m.layer = .udl → m = inClass m.member
  /-- Neither the class layer nor a region that goes back to it is inside of a value. -/
  inValue_eq : m.layer = .udl ∨ m.Resumes .udl → m.member.inValue = false
  /-- Braces are counted in commands and in regions among them. -/
  braces : 0 < m.braceDepth → m.layer = .core ∨ m.Resumes .core
  json : m.json.Sound

/-- No region goes back to anywhere where there is no fence. -/
theorem not_resumes {m : Mode} (h : m.fence = none) {layer : Layer} : ¬ m.Resumes layer := by
  rintro ⟨fence, hfence, _⟩
  rw [h] at hfence
  cases hfence

theorem inClass_canonical {u : ClassContext} (h : u.inValue = false) : (inClass u).Canonical where
  raw_iff := ⟨nofun, nofun⟩
  not_resumes_raw := not_resumes rfl
  eq_inClass _ := rfl
  inValue_eq _ := h
  braces hb := absurd hb (Nat.lt_irrefl 0)
  json := JsonNesting.empty_sound

/-- A mode of the code layers is canonical when braces are only counted in commands. -/
theorem canonical_of_code {m : Mode} (hlayer : m.layer = .core ∨ m.layer = .expr)
    (hfence : m.fence = none) (hbraces : 0 < m.braceDepth → m.layer = .core)
    (hjson : m.json.Sound) : m.Canonical := by
  refine ⟨?_, not_resumes hfence, fun h => ?_, fun h => ?_, fun h => .inl (hbraces h), hjson⟩
  · rw [hfence]
    refine ⟨fun h => ?_, nofun⟩
    rcases hlayer with hl | hl <;> rw [hl] at h <;> cases h
  · rcases hlayer with hl | hl <;> rw [hl] at h <;> cases h
  · rcases h with h | h
    · rcases hlayer with hl | hl <;> rw [hl] at h <;> cases h
    · exact absurd h (not_resumes hfence)

theorem core_canonical : core.Canonical :=
  canonical_of_code (.inl rfl) rfl (fun h => absurd h (Nat.lt_irrefl 0)) JsonNesting.empty_sound

theorem expr_canonical : expr.Canonical :=
  canonical_of_code (.inr rfl) rfl (fun h => absurd h (Nat.lt_irrefl 0)) JsonNesting.empty_sound

theorem udl_canonical : udl.Canonical := inClass_canonical rfl

namespace Canonical

variable {m m' : Mode}

/-- Which command words take blocks matters to no other field. -/
theorem forgetBlock (h : m.Canonical) : { m with blockCommand := false }.Canonical where
  raw_iff := h.raw_iff
  not_resumes_raw := h.not_resumes_raw
  eq_inClass hl := by
    have heq := h.eq_inClass hl
    rw [heq]
    rfl
  inValue_eq := h.inValue_eq
  braces := h.braces
  json := h.json

/-- There is no fence outside of the raw layer. -/
theorem fence_eq_none (h : m.Canonical) (hl : m.layer ≠ .raw) : m.fence = none :=
  Option.not_isSome_iff_eq_none.mp fun hf => hl (h.raw_iff.mpr hf)

/-! ### The code layers -/

theorem stays (h : m.Canonical) (hl : m.layer = .core ∨ m.layer = .expr) (hs : m.Stays m') :
    m'.Canonical := by
  have hfence : m.fence = none :=
    h.fence_eq_none (by rcases hl with hl | hl <;> rw [hl] <;> exact Layer.noConfusion)
  refine canonical_of_code (by rw [hs.layer]; exact hl) (hs.fence.trans hfence) (fun hb => ?_)
    (h.json.step hs.json)
  rw [hs.layer]
  rcases hs.braces with hsame | hcore
  · exact (h.braces (hsame ▸ hb)).resolve_right (not_resumes hfence)
  · exact hcore

theorem opens (h : m.Canonical) (hl : m.layer = .core ∨ m.layer = .expr) (place : LinePosition)
    (kind : FenceKind) : ((m.goTo place).openFence kind).Canonical := by
  have hfence : m.fence = none :=
    h.fence_eq_none (by rcases hl with hl | hl <;> rw [hl] <;> exact Layer.noConfusion)
  have hresumes : ∀ {layer}, ((m.goTo place).openFence kind).Resumes layer → m.layer = layer := by
    rintro layer ⟨_, heq, rfl⟩
    cases heq
    rfl
  refine ⟨⟨fun _ => rfl, fun _ => rfl⟩, fun hr => ?_, nofun, fun hu => ?_,
    fun hb => ?_, h.json⟩
  · have := hresumes hr
    rcases hl with hl | hl <;> rw [hl] at this <;> cases this
  · rcases hu with hu | hu
    · cases hu
    · have := hresumes hu
      rcases hl with hl | hl <;> rw [hl] at this <;> cases this
  · exact .inr ⟨_, rfl, (h.braces hb).resolve_right (not_resumes hfence)⟩

/-- Behind a value the class layer is as it was in front of it. -/
theorem leaveValue (h : m.fence = none) : { m.leaveValue with blockCommand := false }.Canonical := by
  have heq : { m.leaveValue with blockCommand := false } =
      inClass { m.member with inValue := false } := by
    unfold Mode.leaveValue inClass
    rw [h]
  rw [heq]
  exact inClass_canonical rfl

/-- Behind a member that ends outside of a value. -/
theorem endMember (h : m.fence = none) (hvalue : m.member.inValue = false) :
    { m.endMember with blockCommand := false }.Canonical := by
  have heq : { m.endMember with blockCommand := false } = inClass { m.member with
      pending := .absent, awaiting := .nothing, memberStart := true } := by
    unfold Mode.endMember inClass
    rw [h]
  rw [heq]
  exact inClass_canonical hvalue

/-! ### The raw layer -/

theorem closeFence {fence : Fence} (h : m.Canonical) (hf : m.fence = some fence) :
    { m.closeFence fence with blockCommand := false }.Canonical := by
  have hraw : fence.resume ≠ .raw := fun hr => h.not_resumes_raw ⟨fence, hf, hr⟩
  by_cases hu : fence.resume = .udl
  · have hvalue := h.inValue_eq (.inr ⟨fence, hf, hu⟩)
    unfold Mode.closeFence
    rw [if_pos hu]
    exact endMember rfl hvalue
  · unfold Mode.closeFence
    rw [if_neg hu]
    have hl : fence.resume = .core ∨ fence.resume = .expr := by
      cases hresume : fence.resume with
      | core => exact .inl rfl
      | expr => exact .inr rfl
      | raw => exact absurd hresume hraw
      | udl => exact absurd hresume hu
    refine canonical_of_code hl rfl (fun hb => ?_) h.json
    -- The braces are those of the commands around the region.
    rcases h.braces hb with hcore | ⟨fence', hf', hcore⟩
    · have := h.raw_iff.mpr (by rw [hf]; rfl)
      rw [hcore] at this
      cases this
    · obtain rfl : fence = fence' := Option.some.inj (hf.symm.trans hf')
      exact hcore

/-! ### The class layer -/

/-- An opening brace begins a value, a body or nothing in particular. -/
theorem openBrace {u : ClassContext} (h : u.inValue = false) : (inClass u).openBrace.Canonical := by
  have hnone : ∀ {layer position member}, layer = .core ∨ layer = .expr →
      (Mode.mk layer position false false 0 .empty none member).Canonical := fun hl =>
    canonical_of_code hl rfl (fun hb => absurd hb (Nat.lt_irrefl 0)) JsonNesting.empty_sound
  unfold Mode.openBrace
  dsimp only
  split
  · exact hnone (.inr rfl)
  · split
    · exact hnone (.inl rfl)
    · split
      · exact hnone (.inl rfl)
      · exact hnone (.inr rfl)
      · refine ⟨⟨fun _ => rfl, fun _ => rfl⟩, ?_, nofun, fun _ => h,
          fun hb => absurd hb (Nat.lt_irrefl 0), JsonNesting.empty_sound⟩
        rintro ⟨_, heq, hr⟩
        cases heq
        cases hr
      · exact inClass_canonical h

end Canonical

end Mode

namespace ClassContext

/-- No word and no symbol of the class layer begins or ends a value. -/
theorem inValue_takeWord (u : ClassContext) (word : String) :
    (u.takeWord word).inValue = u.inValue := by
  have hvalue : (u.takeValue word).inValue = u.inValue := by
    unfold takeValue
    split
    · split <;> rfl
    · split <;> rfl
    · rfl
  have hmember : ((u.takeValue word).takeMember word).inValue = u.inValue := by
    unfold takeMember
    split <;> exact hvalue
  unfold takeWord
  dsimp only
  split <;> exact hmember

theorem inValue_takeSymbol? {u u' : ClassContext} {c : Char} (h : u.takeSymbol? c = some u') :
    u'.inValue = u.inValue := by
  have hdrop : u.dropValue.inValue = u.inValue := by
    unfold dropValue
    split <;> rfl
  unfold takeSymbol? at h
  split at h
  · cases h; rfl
  · cases h; rfl
  · cases h; exact hdrop
  · cases h; rfl
  · cases h; exact hdrop
  · cases h
    split <;> exact hdrop
  · cases h
    split <;> rfl
  · cases h; exact hdrop
  · cases h; rfl
  · cases h

end ClassContext

/-! ## Steps -/

namespace Reading

variable {r : Reading}

/-- The last touches of a step only make sure that no block is kept open. -/
theorem canonical_settleBlock (h : r.next.Canonical) : r.atLeastOne.settleBlock.next.Canonical := by
  have hone : r.atLeastOne.next = r.next := by
    unfold atLeastOne
    split <;> rfl
  unfold settleBlock
  split
  · rw [hone]
    exact h
  · show { r.atLeastOne.next with blockCommand := false }.Canonical
    rw [hone]
    exact h.forgetBlock

/-- Behind a punctuation mark no block is kept open. -/
theorem canonical_of_punctuation (hkind : r.kind = .punctuation)
    (h : { r.next with blockCommand := false }.Canonical) :
    r.atLeastOne.settleBlock.next.Canonical := by
  unfold settleBlock atLeastOne
  split
  · exact h
  · rw [hkind]
    exact h

/-- No step of the code layers counts brackets of the class layer. -/
theorem CodeStep.counts {m : Mode} (h : CodeStep m r) :
    r.next.member.brackets = m.member.brackets ∧ r.next.member.parens = m.member.parens := by
  cases h with
  | stays h => rw [h.member]; exact ⟨rfl, rfl⟩
  | opens _ _ _ h => rw [h]; exact ⟨rfl, rfl⟩
  | leaves _ _ h => rw [h]; exact ⟨rfl, rfl⟩
  | ends _ _ h => rw [h]; exact ⟨rfl, rfl⟩

end Reading

namespace Mode

variable {m : Mode} {cs : List Char} {r : Reading}

section

variable [Limits]

theorem Canonical.readCode (h : m.Canonical) (hl : m.layer = .core ∨ m.layer = .expr) (c : Char)
    (cs : List Char) : (readCode m c cs).atLeastOne.settleBlock.next.Canonical := by
  have hfence : m.fence = none :=
    h.fence_eq_none (by rcases hl with hl | hl <;> rw [hl] <;> exact Layer.noConfusion)
  rcases readCode_codeStep m c cs with hs | ⟨place, kind, _, ho⟩ | ⟨_, hkind, hle⟩ | ⟨hv, hkind, he⟩
  · exact Reading.canonical_settleBlock (h.stays hl hs)
  · exact Reading.canonical_settleBlock (ho ▸ h.opens hl place kind)
  · exact Reading.canonical_of_punctuation hkind (hle ▸ Canonical.leaveValue hfence)
  · exact Reading.canonical_of_punctuation hkind (he ▸ Canonical.endMember hfence hv)

omit [Limits] in
theorem Canonical.readRaw (h : m.Canonical) (cs : List Char) :
    (readRaw m cs).atLeastOne.settleBlock.next.Canonical := by
  unfold LayeredSyntax.readRaw
  cases hf : m.fence with
  | none => exact Reading.canonical_settleBlock h
  | some fence =>
    dsimp only
    split
    · exact Reading.canonical_of_punctuation rfl (h.closeFence hf)
    · split <;> exact Reading.canonical_settleBlock h

theorem Canonical.readClass (h : m.Canonical) (hl : m.layer = .udl) (c : Char) (cs : List Char) :
    (readClass m c cs).atLeastOne.settleBlock.next.Canonical := by
  refine Reading.canonical_settleBlock ?_
  have hvalue := h.inValue_eq (.inl hl)
  have heq := h.eq_inClass hl
  generalize m.member = u at hvalue heq
  subst heq
  unfold LayeredSyntax.readClass
  dsimp only
  split
  · exact h
  · split
    · exact h
    · split
      · exact h
      · split
        · unfold readBlockComment
          split <;> exact h
        · split
          · exact inClass_canonical ((u.inValue_takeWord _).trans hvalue)
          · split
            · exact h
            · split
              · exact h
              · split
                · exact Canonical.openBrace hvalue
                · split
                  · exact h
                  · split
                    · exact h
                    · split
                      · next u' htake =>
                        exact inClass_canonical
                          ((ClassContext.inValue_takeSymbol? htake).trans hvalue)
                      · exact h

/-- **A step from a canonical mode leads to a canonical mode**, whatever stands ahead. -/
theorem Canonical.scan? (h : m.Canonical) (hr : scan? m cs = some r) : r.next.Canonical := by
  cases cs with
  | nil => cases hr
  | cons c cs =>
    cases hr
    unfold readLayer
    cases hl : m.layer with
    | raw => exact h.readRaw _
    | udl => exact h.readClass hl c _
    | core => exact h.readCode (.inl hl) c _
    | expr => exact h.readCode (.inr hl) c _

/-- Outside of the class layer its brackets are not counted. -/
theorem counts_of_scan? (hl : m.layer ≠ .udl) (hr : LayeredSyntax.scan? m cs = some r) :
    r.next.member.brackets = m.member.brackets ∧ r.next.member.parens = m.member.parens := by
  have hkeep : ∀ r : Reading, r.atLeastOne.settleBlock.next.member = r.next.member := by
    intro r
    unfold Reading.settleBlock Reading.atLeastOne
    split <;> split <;> rfl
  cases cs with
  | nil => cases hr
  | cons c cs =>
    cases hr
    rw [hkeep]
    unfold readLayer
    cases hlayer : m.layer with
    | udl => exact absurd hlayer hl
    | core => exact (readCode_codeStep m c _).counts
    | expr => exact (readCode_codeStep m c _).counts
    | raw =>
      dsimp only
      unfold LayeredSyntax.readRaw
      cases m.fence with
      | none => exact ⟨rfl, rfl⟩
      | some fence =>
        dsimp only
        split
        · unfold Mode.closeFence
          dsimp only
          split <;> exact ⟨rfl, rfl⟩
        · split <;> exact ⟨rfl, rfl⟩

/-! ## Reading a text -/

/-- The modes on the way through a text, token by token, each with what is ahead of it. -/
inductive Reads (start : Mode) (text : List Char) : Mode → List Char → Prop
  | start : Reads start text start text
  | step {m : Mode} {ahead : List Char} {r : Reading} (h : Reads start text m ahead)
      (hr : LayeredSyntax.scan? m ahead = some r) :
      Reads start text r.next (ahead.drop r.length)

/-- **Every mode on the way through a text is canonical**, and only in the class layer the step from
    it counts square brackets and parentheses. -/
theorem canonical_of_reads {start : Mode} (hstart : start = core ∨ start = expr ∨ start = udl)
    {text : List Char} {m : Mode} {ahead : List Char} (h : start.Reads text m ahead) :
    m.Canonical ∧ ∀ r, m.layer ≠ .udl → LayeredSyntax.scan? m ahead = some r →
      r.next.member.brackets = m.member.brackets ∧ r.next.member.parens = m.member.parens := by
  refine ⟨?_, fun r hl hr => counts_of_scan? hl hr⟩
  induction h with
  | start =>
    rcases hstart with rfl | rfl | rfl
    · exact core_canonical
    · exact expr_canonical
    · exact udl_canonical
  | step _ hr ih => exact ih.scan? hr

end

/-- **Markup in a block in a method**: a raw region that goes back to commands with one brace open. -/
theorem canonical_of_markup :
    ∃ m, udl.Reads ['M', 'e', 't', 'h', 'o', 'd', '{', '{', '&', 'j', 's', '<'] m [] ∧
      (m.layer, m.fence, m.braceDepth) = (.raw, some ⟨.angle, .core⟩, 1) ∧ m.Canonical := by
  let armed : ClassContext := ⟨.code, 0, 0, .nothing, false, false⟩
  let body : Mode := { inClass armed with layer := .core }
  let block : Mode := { body with braceDepth := 1 }
  have hreads :=
    Reads.step (r := ⟨.embedOpen, 4, block.openFence .angle⟩)
      (.step (r := ⟨.punctuation, 1, block⟩)
        (.step (r := ⟨.punctuation, 1, body⟩)
          (.step (r := ⟨.identifier, 6, inClass armed⟩)
            (@Reads.start _ udl ['M', 'e', 't', 'h', 'o', 'd', '{', '{', '&', 'j', 's', '<'])
            (by cbv)) (by cbv)) (by cbv)) (by cbv)
  exact ⟨_, hreads, rfl, (canonical_of_reads (.inr (.inr rfl)) hreads).1⟩

end Mode

end LayeredSyntax
