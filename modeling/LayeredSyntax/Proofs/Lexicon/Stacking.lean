/-
  STACKS OF BRACKETS — a nesting is a stack of bounded height, held in the bits of a word.

  The JSON brackets around a place are a stack of answers, the innermost first: whether the bracket
  opened an array.  A nesting holds such a stack as a depth and the bits below it
  (`JsonNesting.stack`).  Beside it, `Bracket.stackOf` does the same to a plain list of at most 32
  answers.

  1. **The crux (`clearBit_eq_mod`)**: the bit of the innermost bracket is the highest one that can
     be set, so taking it out leaves the bits of the brackets around it and nothing else.  That is
     why a bit of a closed bracket never comes back with the next one that is opened.
  2. So opening and closing do to the stack of a nesting what they do to a plain one
     (`stack_push`, `stack_pop`), and a nesting can be read off its stack (`eq_of_stack_eq`).
  3. In words of 32 bits the same is done by shifts and masks (`NestingWord`).  A shift by the size of
     the word has no result there, and none is ever made (`NestingWord.Holds.onBracket`).
-/
import LayeredSyntax.Proofs.Lexicon.Canonical

namespace LayeredSyntax

namespace JsonNesting

/-! ## The stack of a nesting -/

/-- The lowest `depth` bits, the highest of them first. -/
def levels (bits : Nat) : Nat → List Bool
  | 0 => []
  | depth + 1 => bits.testBit depth :: levels bits depth

/-- **The open brackets**, the innermost first; `true` stands for an array. -/
def stack (j : JsonNesting) : List Bool := levels j.arrays j.depth

theorem length_levels (bits depth : Nat) : (levels bits depth).length = depth := by
  induction depth with
  | zero => rfl
  | succ depth ih => rw [levels, List.length_cons, ih]

theorem length_stack (j : JsonNesting) : j.stack.length = j.depth := length_levels _ _

/-- Levels say what the bits below the depth are, and nothing about those above it. -/
theorem levels_eq_iff {bits bits' depth : Nat} : levels bits depth = levels bits' depth ↔
    ∀ i < depth, bits.testBit i = bits'.testBit i := by
  induction depth with
  | zero => exact ⟨fun _ _ hi => absurd hi (Nat.not_lt_zero _), fun _ => rfl⟩
  | succ depth ih =>
    rw [levels, levels, List.cons.injEq, ih]
    constructor
    · rintro ⟨htop, hbelow⟩ i hi
      rcases Nat.lt_succ_iff_lt_or_eq.mp hi with hi | rfl
      · exact hbelow i hi
      · exact htop
    · exact fun h => ⟨h depth (Nat.lt_succ_self _), fun i hi => h i (Nat.lt_succ_of_lt hi)⟩

/-- **A nesting can be read off its stack.** -/
theorem eq_of_stack_eq {j j' : JsonNesting} (h : j.Sound) (h' : j'.Sound)
    (hstack : j.stack = j'.stack) : j = j' := by
  have hdepth : j.depth = j'.depth := by rw [← length_stack, hstack, length_stack]
  have hbelow : ∀ i < j.depth, j.arrays.testBit i = j'.arrays.testBit i := by
    unfold stack at hstack
    rw [← hdepth] at hstack
    exact levels_eq_iff.mp hstack
  have harrays : j.arrays = j'.arrays := by
    refine Nat.eq_of_testBit_eq fun i => ?_
    rcases Nat.lt_or_ge i j.depth with hi | hi
    · exact hbelow i hi
    · rw [h.testBit_eq i hi, h'.testBit_eq i (hdepth ▸ hi)]
  cases j
  cases j'
  exact congrArg₂ JsonNesting.mk hdepth harrays

/-! ## Opening and closing -/

/-- Closing a bracket takes it off the stack. -/
theorem stack_pop {j : JsonNesting} (h : j.Sound) : j.pop.stack = j.stack.tail := by
  have hbits := h.arrays_lt
  obtain ⟨depth, bits⟩ := j
  cases depth with
  | zero => rfl
  | succ depth =>
    show levels (clearBit bits depth) depth = levels bits depth
    rw [clearBit_eq_mod hbits, levels_eq_iff]
    intro i hi
    rw [Nat.testBit_mod_two_pow, decide_eq_true hi, Bool.true_and]

/-- A full nesting stays as it is. -/
theorem push_of_le {j : JsonNesting} (h : maxDepth ≤ j.depth) (array : Bool) : j.push array = j := by
  rw [push, push?, if_pos h]
  rfl

/-- In any other one the bit at its depth is set or not; it is clear before. -/
theorem push_of_lt {j : JsonNesting} (hj : j.Sound) (h : j.depth < maxDepth) (array : Bool) :
    j.push array = ⟨j.depth + 1, if array then 2 ^ j.depth + j.arrays else j.arrays⟩ := by
  have hbits := hj.arrays_lt
  have hclear : clearBit j.arrays j.depth = j.arrays := by
    rw [clearBit_eq_mod (Nat.lt_trans hbits (Nat.pow_lt_pow_succ Nat.one_lt_two)),
      Nat.mod_eq_of_lt hbits]
  rw [push, push?, if_neg (Nat.not_le.mpr h), hclear, Nat.one_shiftLeft]
  dsimp only [Option.getD_some]
  rw [Nat.add_comm j.arrays]

/-- Opening a bracket puts it on the stack. -/
theorem stack_push {j : JsonNesting} (hj : j.Sound) (h : j.depth < maxDepth) (array : Bool) :
    (j.push array).stack = array :: j.stack := by
  have htop := Nat.testBit_lt_two_pow hj.arrays_lt
  rw [push_of_lt hj h]
  cases array with
  | false =>
    show j.arrays.testBit j.depth :: j.stack = _
    rw [htop]
  | true =>
    show (2 ^ j.depth + j.arrays).testBit j.depth :: levels (2 ^ j.depth + j.arrays) j.depth = _
    rw [Nat.testBit_two_pow_add_eq, htop, Bool.not_false, List.cons.injEq, stack, levels_eq_iff]
    exact ⟨rfl, fun i hi => Nat.testBit_two_pow_add_gt hi _⟩

theorem Sound.push {j : JsonNesting} (h : j.Sound) (array : Bool) : (j.push array).Sound := by
  unfold JsonNesting.push
  cases hpush : j.push? array with
  | none => exact h
  | some j' => exact h.push? hpush

end JsonNesting

/-! ## Runs of brackets -/

/-- What happens to a nesting. -/
inductive Bracket where
  /-- A bracket is opened, of an array or of an object. -/
  | opened (array : Bool)
  /-- The innermost bracket is closed. -/
  | closed
deriving DecidableEq, Inhabited, Repr

namespace Bracket

/-- A bracket on a nesting. -/
def onNesting (j : JsonNesting) : Bracket → JsonNesting
  | .opened array => j.push array
  | .closed => j.pop

/-- A bracket on a plain stack of at most 32 answers: nothing is put on a full one, and nothing is
    taken off an empty one. -/
def onStack (s : List Bool) : Bracket → List Bool
  | .opened array => if s.length < 32 then array :: s else s
  | .closed => s.tail

/-- The nesting behind some brackets. -/
def nestingOf (bs : List Bracket) : JsonNesting := bs.foldl onNesting .empty

/-- The stack behind some brackets. -/
def stackOf (bs : List Bracket) : List Bool := bs.foldl onStack []

theorem sound_onNesting {j : JsonNesting} (h : j.Sound) (b : Bracket) : (b.onNesting j).Sound := by
  cases b with
  | opened array => exact h.push array
  | closed => exact h.pop

/-- **One bracket** does to the stack of a nesting what it does to a plain one. -/
theorem stack_onNesting {j : JsonNesting} (h : j.Sound) (b : Bracket) :
    (b.onNesting j).stack = b.onStack j.stack := by
  cases b with
  | closed => exact JsonNesting.stack_pop h
  | opened array =>
    show (j.push array).stack = if j.stack.length < 32 then _ else _
    rw [JsonNesting.length_stack]
    split
    · next hlt => exact JsonNesting.stack_push h hlt array
    · next hfull => rw [JsonNesting.push_of_le (Nat.not_lt.mp hfull)]

/-- So do all of them. -/
theorem run_onNesting {j : JsonNesting} (h : j.Sound) (bs : List Bracket) :
    (bs.foldl onNesting j).Sound ∧ (bs.foldl onNesting j).stack = bs.foldl onStack j.stack := by
  induction bs generalizing j with
  | nil => exact ⟨h, rfl⟩
  | cons b bs ih =>
    rw [List.foldl_cons, List.foldl_cons, ← stack_onNesting h]
    exact ih (sound_onNesting h b)

theorem sound_nestingOf (bs : List Bracket) : (nestingOf bs).Sound :=
  (run_onNesting JsonNesting.empty_sound bs).1

theorem stack_nestingOf (bs : List Bracket) : (nestingOf bs).stack = stackOf bs :=
  (run_onNesting JsonNesting.empty_sound bs).2

end Bracket

/-! ## Nestings in words -/

/-- A nesting with its bits in a word of 32 of them. -/
structure NestingWord where
  /-- How many brackets are open. -/
  depth : Nat
  /-- One bit for each of them, set for arrays. -/
  arrays : BitVec 32
deriving DecidableEq

namespace NestingWord

/-- The word with one bit set.  One is shifted to its place, and **a shift by the size of the word or
    more has no result**. -/
def bit? (i : Nat) : Option (BitVec 32) := if i < 32 then some (1#32 <<< i) else none

/-- Open a bracket: its bit is put in or masked out. -/
def push? (w : NestingWord) (array : Bool) : Option NestingWord :=
  if JsonNesting.maxDepth ≤ w.depth then some w
  else (bit? w.depth).map fun bit =>
    ⟨w.depth + 1, if array then w.arrays ||| bit else w.arrays &&& ~~~bit⟩

/-- Close the innermost bracket: its bit is masked out. -/
def pop? (w : NestingWord) : Option NestingWord :=
  if w.depth = 0 then some w
  else (bit? (w.depth - 1)).map fun bit => ⟨w.depth - 1, w.arrays &&& ~~~bit⟩

/-- Whether the innermost bracket opened an array. -/
def topIsArray? (w : NestingWord) : Option Bool :=
  if w.depth = 0 then some false
  else (bit? (w.depth - 1)).map fun bit => w.arrays &&& bit != 0#32

/-- A bracket on a word. -/
def onBracket? (w : NestingWord) : Bracket → Option NestingWord
  | .opened array => w.push? array
  | .closed => w.pop?

/-- The word behind some brackets, if no shift is too long. -/
def of? (bs : List Bracket) : Option NestingWord := bs.foldlM onBracket? ⟨0, 0#32⟩

/-- A word that holds a nesting. -/
structure Holds (w : NestingWord) (j : JsonNesting) : Prop where
  depth : w.depth = j.depth
  arrays : w.arrays.toNat = j.arrays

theorem bit?_of_lt {i : Nat} (h : i < 32) : bit? i = some (BitVec.twoPow 32 i) := by
  rw [bit?, if_pos h, BitVec.twoPow_eq]

/-- Masking out the highest bit leaves the bits below it. -/
theorem toNat_and_not_twoPow {bits : BitVec 32} {i : Nat} (hi : i < 32)
    (h : bits.toNat < 2 ^ (i + 1)) : (bits &&& ~~~BitVec.twoPow 32 i).toNat = bits.toNat % 2 ^ i := by
  refine Nat.eq_of_testBit_eq fun k => ?_
  rw [BitVec.testBit_toNat, BitVec.getLsbD_and, BitVec.getLsbD_not, BitVec.getLsbD_twoPow,
    Nat.testBit_mod_two_pow, BitVec.testBit_toNat, decide_eq_true hi, Bool.true_and]
  rcases Nat.lt_trichotomy k i with hk | rfl | hk
  · simp [hk, Nat.lt_trans hk hi, Nat.ne_of_gt hk]
  · simp
  · -- Nothing is set above the highest bit.
    have hhigh : bits.getLsbD k = false := by
      rw [← BitVec.testBit_toNat]
      exact Nat.testBit_lt_two_pow (Nat.lt_of_lt_of_le h (Nat.pow_le_pow_right Nat.two_pos hk))
    simp [hhigh]

/-- Putting in a bit above all others adds its value. -/
theorem toNat_or_twoPow {bits : BitVec 32} {i : Nat} (hi : i < 32) (h : bits.toNat < 2 ^ i) :
    (bits ||| BitVec.twoPow 32 i).toNat = 2 ^ i + bits.toNat := by
  have hword : 2 ^ i < 2 ^ 32 := Nat.pow_lt_pow_right Nat.one_lt_two hi
  have hsum := Nat.two_pow_add_eq_or_of_lt h 1
  rw [Nat.mul_one] at hsum
  rw [BitVec.toNat_or, BitVec.toNat_twoPow, Nat.mod_eq_of_lt hword, Nat.or_comm, hsum]

variable {w : NestingWord} {j : JsonNesting}

theorem Holds.push (hw : w.Holds j) (hj : j.Sound) (array : Bool) :
    ∃ w', w.push? array = some w' ∧ w'.Holds (j.push array) := by
  unfold push?
  split
  · next hfull =>
    rw [hw.depth] at hfull
    exact ⟨w, rfl, by rwa [JsonNesting.push_of_le hfull]⟩
  · next hfull =>
    rw [hw.depth, Nat.not_le] at hfull
    have hbits := hj.arrays_lt
    rw [hw.depth, bit?_of_lt hfull, JsonNesting.push_of_lt hj hfull]
    refine ⟨_, rfl, rfl, ?_⟩
    rw [← hw.arrays] at hbits ⊢
    cases array with
    | true => exact toNat_or_twoPow hfull hbits
    | false =>
      -- The bit that is masked out was clear.
      have hmask := toNat_and_not_twoPow hfull
        (Nat.lt_trans hbits (Nat.pow_lt_pow_succ Nat.one_lt_two))
      rw [Nat.mod_eq_of_lt hbits] at hmask
      exact hmask

/-- The innermost bracket has its bit in the word. -/
theorem top_lt (hj : j.Sound) : j.depth - 1 < 32 := by
  have hle : j.depth ≤ 32 := hj.depth_le
  omega

theorem Holds.pop (hw : w.Holds j) (hj : j.Sound) : ∃ w', w.pop? = some w' ∧ w'.Holds j.pop := by
  unfold pop? JsonNesting.pop
  rw [hw.depth]
  split
  · exact ⟨w, rfl, hw⟩
  · next hdepth =>
    have hlt := top_lt hj
    have hbits := hj.arrays_lt
    rw [← Nat.sub_add_cancel (Nat.pos_of_ne_zero hdepth)] at hbits
    rw [bit?_of_lt hlt]
    refine ⟨_, rfl, rfl, ?_⟩
    rw [JsonNesting.clearBit_eq_mod hbits, ← hw.arrays]
    exact toNat_and_not_twoPow hlt (hw.arrays ▸ hbits)

/-- The innermost bracket is read off the word. -/
theorem Holds.topIsArray (hw : w.Holds j) (hj : j.Sound) :
    w.topIsArray? = some j.topIsArray := by
  unfold topIsArray? JsonNesting.topIsArray
  rw [hw.depth]
  split
  · next hdepth => rw [hdepth]; rfl
  · next hdepth =>
    have hlt := top_lt hj
    have hne : BitVec.twoPow 32 (j.depth - 1) ≠ 0#32 := fun h => by
      have hbit := congrArg (·.getLsbD (j.depth - 1)) h
      simp [hlt] at hbit
    rw [bit?_of_lt hlt, Option.map_some, BitVec.and_twoPow, ← BitVec.testBit_toNat, hw.arrays,
      bne_iff_ne.mpr hdepth, Bool.true_and]
    cases j.arrays.testBit (j.depth - 1) with
    | false => rfl
    | true => rw [if_pos rfl, bne_iff_ne.mpr hne]

/-- **No shift is too long**: a bracket on a word that holds a nesting has a result, and it holds the
    nesting behind the bracket. -/
theorem Holds.onBracket (hw : w.Holds j) (hj : j.Sound) (b : Bracket) :
    ∃ w', w.onBracket? b = some w' ∧ w'.Holds (b.onNesting j) := by
  cases b with
  | opened array => exact hw.push hj array
  | closed => exact hw.pop hj

theorem Holds.run (hw : w.Holds j) (hj : j.Sound) (bs : List Bracket) :
    ∃ w', bs.foldlM onBracket? w = some w' ∧ w'.Holds (bs.foldl Bracket.onNesting j) := by
  induction bs generalizing w j with
  | nil => exact ⟨w, rfl, hw⟩
  | cons b bs ih =>
    obtain ⟨w', hstep, hw'⟩ := hw.onBracket hj b
    rw [List.foldlM_cons, hstep]
    exact ih hw' (Bracket.sound_onNesting hj b)

end NestingWord

/-! ## What nestings answer -/

/-- **A nesting that answers as a stack does.** -/
structure JsonNesting.Answers (j : JsonNesting) (s : List Bool) : Prop where
  depth : j.depth = s.length
  isEmpty : j.isEmpty = s.isEmpty
  topIsArray : j.topIsArray = (s.head? == some true)
  topIsObject : j.topIsObject = (s.head? == some false)
  /-- A bracket can be opened unless the stack is full, -/
  push_isSome : ∀ array, (j.push? array).isSome = decide (s.length < 32)
  /-- and then nothing changes, -/
  push_of_full : s.length = 32 → ∀ array, j.push array = j
  /-- as when there is nothing to close. -/
  pop_of_nil : s = [] → j.pop = j

theorem JsonNesting.answers_stack (j : JsonNesting) : j.Answers j.stack := by
  refine ⟨j.length_stack.symm, ?_, ?_, ?_, fun array => ?_, fun hfull array => ?_, fun hnil => ?_⟩
  · obtain ⟨depth, bits⟩ := j
    cases depth <;> rfl
  · obtain ⟨depth, bits⟩ := j
    cases depth with
    | zero => rfl
    | succ depth =>
      show bits.testBit depth = (some (bits.testBit depth) == some true)
      cases bits.testBit depth <;> rfl
  · obtain ⟨depth, bits⟩ := j
    cases depth with
    | zero => rfl
    | succ depth =>
      show (!bits.testBit depth) = (some (bits.testBit depth) == some false)
      cases bits.testBit depth <;> rfl
  · rw [length_stack, push?]
    split
    · next hfull => exact (decide_eq_false (Nat.not_lt.mpr hfull)).symm
    · next hroom => exact (decide_eq_true (Nat.not_le.mp hroom)).symm
  · rw [length_stack] at hfull
    exact push_of_le (Nat.le_of_eq hfull.symm) array
  · have hdepth : j.depth = 0 := by rw [← length_stack, hnil, List.length_nil]
    rw [pop, if_pos hdepth]

/-- **A nesting is a stack of at most 32 brackets**, whatever was opened and closed before: it gives
    the answers of the stack, it fits a word of 32 bits in which no shift is too long, and it is equal
    to another one exactly if the stacks are.  So modes that differ in nothing else are equal exactly
    if they stand in the same brackets. -/
theorem Bracket.nestingOf_canonical (bs : List Bracket) :
    (stackOf bs).length ≤ 32 ∧ (nestingOf bs).Answers (stackOf bs) ∧
    (∃ w, NestingWord.of? bs = some w ∧ w.Holds (nestingOf bs) ∧
      w.topIsArray? = some (nestingOf bs).topIsArray) ∧
    ∀ others, (nestingOf bs = nestingOf others ↔ stackOf bs = stackOf others) ∧
      ∀ m : Mode, (({ m with json := nestingOf bs } : Mode) == { m with json := nestingOf others }) =
        (stackOf bs == stackOf others) := by
  have hsound := sound_nestingOf bs
  obtain ⟨w, hword, hw⟩ := NestingWord.Holds.run (w := ⟨0, 0#32⟩) ⟨rfl, rfl⟩
    JsonNesting.empty_sound bs
  refine ⟨?_, ?_, ⟨w, hword, hw, hw.topIsArray hsound⟩, fun others => ?_⟩
  · rw [← stack_nestingOf bs, JsonNesting.length_stack]
    exact hsound.depth_le
  · rw [← stack_nestingOf bs]
    exact (nestingOf bs).answers_stack
  have heq : nestingOf bs = nestingOf others ↔ stackOf bs = stackOf others := by
    rw [← stack_nestingOf, ← stack_nestingOf]
    exact ⟨congrArg JsonNesting.stack, JsonNesting.eq_of_stack_eq hsound (sound_nestingOf others)⟩
  refine ⟨heq, fun m => ?_⟩
  rw [Bool.eq_iff_iff, beq_iff_eq, beq_iff_eq, ← heq]
  exact ⟨congrArg Mode.json, fun h => by rw [h]⟩

/-- The bit of a closed array does not come back with the object that is opened in its place. -/
example : Bracket.nestingOf [.opened true, .closed, .opened false] =
    Bracket.nestingOf [.opened false] := by decide

end LayeredSyntax
