/-
  CONTINUING — over which line ends the value of a macro goes on.

  The value of a macro is the rest of its line, and goes on over the end of a line that asks for it
  with a mark of continuation (`AsksOn`).  The step that looks for the mark drops the white space
  behind all that was passed, and line ends are white space: so it looks at the last line that is
  not blank, which need not be the last line.

  1. `valueLines` — the lines of a value: a carriage return takes the line feed behind it along.
  2. **The crux (`Behind.asks_iff`)**: a text asks to be continued when its last line that is not
     blank does (`Continued`).  The text is followed line by line.  What stands in front of the line
     that is being read ends in a line end, and a mark cannot reach over that.
  3. `exists_valueEnds`: at every line end inside of a value the lines in front of it are continued,
     and at the line end behind it they are not.

  So a blank line goes on as the line in front of it does (`scan?_macroValue`), and the last line of
  a value never asks for more.  Where no line behind the first one is blank, the value goes on over
  a line end exactly when the line in front asks for it (`scan?_macroValue_of_not_blank`).
-/
import Mathlib.Data.List.Basic
import Mathlib.Data.List.TakeWhile
import LayeredSyntax.Proofs.Lexicon.LookingAhead

namespace LayeredSyntax

/-! ## Lines of a value -/

/-- The lines of a text behind the characters `current` of its first line, given in reverse. -/
def linesBehind (current : List Char) : List Char → List (List Char)
  | [] => [current.reverse]
  | '\r' :: '\n' :: cs => current.reverse :: linesBehind [] cs
  | c :: cs =>
    if isLineEnd c then current.reverse :: linesBehind [] cs else linesBehind (c :: current) cs

/-- **The lines of a value.** -/
def valueLines (cs : List Char) : List (List Char) := linesBehind [] cs

theorem linesBehind_cons (current : List Char) (c : Char) (cs : List Char) :
    linesBehind current (c :: cs) =
      if c = '\r' ∧ cs.head? = some '\n' then current.reverse :: linesBehind [] (cs.drop 1)
      else if isLineEnd c then current.reverse :: linesBehind [] cs
      else linesBehind (c :: current) cs := by
  by_cases hc : c = '\r'
  · cases cs with
    | nil => simp [linesBehind, hc]
    | cons d cs => by_cases hd : d = '\n' <;> simp [linesBehind, hc, hd]
  · simp [linesBehind, hc]

/-- A line of white space. -/
def BlankLine (line : List Char) : Prop := ∀ c ∈ line, isBlank c = true

instance (line : List Char) : Decidable (BlankLine line) :=
  inferInstanceAs (Decidable (∀ c ∈ line, isBlank c = true))

theorem BlankLine.reverse {line : List Char} (h : BlankLine line) : BlankLine line.reverse :=
  fun c hc => h c (List.mem_reverse.mp hc)

/-- **A line that ends in the mark of continuation**, in any case, but for white space. -/
def AsksOn (line : List Char) : Prop :=
  ∃ stem mark blanks, line = stem ++ (mark ++ blanks) ∧
    mark.map Char.toLower = continuationMark.toList ∧ BlankLine blanks

/-- Lines of which the last one that is not blank asks to go on. -/
def Continued (lines : List (List Char)) : Prop :=
  ∃ front line blanks, lines = front ++ line :: blanks ∧ AsksOn line ∧ ∀ b ∈ blanks, BlankLine b

/-! ## Looking for the mark -/

theorem isBlank_of_isLineEnd {c : Char} (h : isLineEnd c = true) : isBlank c = true := by
  rcases Bool.or_eq_true_iff.mp h with h | h <;> obtain rfl := eq_of_beq h <;> rfl

/-- White space has no case. -/
theorem toLower_of_isBlank {c : Char} (h : isBlank c = true) : c.toLower = c := by
  unfold Char.toLower
  rw [dif_neg]
  rintro ⟨hle, hge⟩
  have hle : 65 ≤ c.toNat := hle
  have hge : c.toNat ≤ 90 := hge
  simp only [isBlank, Bool.or_eq_true, Bool.and_eq_true, decide_eq_true_eq, beq_iff_eq] at h
  omega

theorem notMem_mark_of_isBlank {c : Char} (h : isBlank c = true) :
    c.toLower ∉ continuationMark.toList := by
  rw [toLower_of_isBlank h]
  intro hmem
  have hmark : (continuationMark.toList.all fun c => !isBlank c) = true := by decide
  have hnot := List.all_eq_true.mp hmark c hmem
  rw [h] at hnot
  cases hnot

/-- The mark in reverse. -/
theorem startsNoCase_mark (cs : List Char) :
    startsNoCase (String.ofList continuationMark.toList.reverse) cs = true ↔
      (cs.take 10).map Char.toLower = continuationMark.toList.reverse := by
  unfold startsNoCase
  rw [beq_iff_eq]
  exact Iff.rfl

/-- The mark cannot reach over white space. -/
theorem startsNoCase_mark_append {cs ds : List Char} (h : ∀ c ∈ ds.head?, isBlank c = true) :
    startsNoCase (String.ofList continuationMark.toList.reverse) (cs ++ ds) =
      startsNoCase (String.ofList continuationMark.toList.reverse) cs := by
  rw [Bool.eq_iff_iff, startsNoCase_mark, startsNoCase_mark, List.take_append]
  by_cases hlength : 10 ≤ cs.length
  · rw [Nat.sub_eq_zero_of_le hlength, List.take_zero, List.append_nil]
  · cases ds with
    | nil => rw [List.take_nil, List.append_nil]
    | cons d ds =>
      obtain ⟨k, hk⟩ := Nat.exists_eq_succ_of_ne_zero (show 10 - cs.length ≠ 0 by omega)
      rw [hk]
      constructor
      · intro hmark
        refine absurd ?_ (notMem_mark_of_isBlank (h d rfl))
        rw [← List.mem_reverse, ← hmark]
        exact List.mem_map_of_mem (List.mem_append_right _ List.mem_cons_self)
      · intro hmark
        have hcount := congrArg List.length hmark
        rw [List.length_map, List.length_take, List.length_reverse] at hcount
        have hten : continuationMark.toList.length = 10 := by decide
        omega

/-- What is looked for behind the white space at the end of a line. -/
theorem asksToContinue_reverse (line : List Char) :
    asksToContinue line.reverse = true ↔ AsksOn line := by
  unfold asksToContinue
  rw [startsNoCase_mark]
  constructor
  · intro hmark
    refine ⟨((line.reverse.dropWhile isBlank).drop 10).reverse,
      ((line.reverse.dropWhile isBlank).take 10).reverse,
      (line.reverse.takeWhile isBlank).reverse, ?_, ?_, ?_⟩
    · rw [← List.reverse_append, ← List.reverse_append, List.append_assoc, List.take_append_drop,
        List.takeWhile_append_dropWhile, List.reverse_reverse]
    · rw [List.map_reverse, hmark, List.reverse_reverse]
    · exact fun c hc => List.mem_takeWhile_imp (List.mem_reverse.mp hc)
  · rintro ⟨stem, mark, blanks, rfl, hmark, hblanks⟩
    have hlength : mark.reverse.length = 10 := by
      have hcount := congrArg List.length hmark
      rw [List.length_map] at hcount
      rw [List.length_reverse, hcount]
      rfl
    have hblank : ∀ c ∈ blanks.reverse, isBlank c = true := BlankLine.reverse hblanks
    have hhead : ∀ c ∈ mark, isBlank c = false := by
      intro c hc
      refine Bool.eq_false_iff.mpr fun hblank => notMem_mark_of_isBlank hblank ?_
      exact hmark ▸ List.mem_map_of_mem hc
    rw [List.reverse_append, List.reverse_append, List.append_assoc,
      List.dropWhile_append_of_pos hblank]
    have hstop : (mark.reverse ++ stem.reverse).dropWhile isBlank = mark.reverse ++ stem.reverse := by
      cases hrev : mark.reverse with
      | nil => rw [hrev] at hlength; cases hlength
      | cons c cs =>
        have hc := hhead c (List.mem_reverse.mp (hrev ▸ List.mem_cons_self))
        rw [List.cons_append, List.dropWhile_cons_of_neg (by simp [hc])]
    rw [hstop, ← hlength, List.take_left, List.map_reverse, hmark]

instance (line : List Char) : Decidable (AsksOn line) :=
  decidable_of_iff _ (asksToContinue_reverse line)

/-- A line that asks to go on is not blank. -/
theorem AsksOn.not_blank {line : List Char} (h : AsksOn line) : ¬ BlankLine line := by
  obtain ⟨stem, mark, blanks, rfl, hmark, _⟩ := h
  intro hblank
  cases mark with
  | nil => cases hmark
  | cons c mark =>
    refine notMem_mark_of_isBlank (hblank c ?_) (hmark ▸ List.mem_cons_self)
    exact List.mem_append_right _ List.mem_cons_self

/-- The last line asks to go on, or it is blank and those in front are continued. -/
theorem continued_concat {lines : List (List Char)} {line : List Char} :
    Continued (lines ++ [line]) ↔ AsksOn line ∨ BlankLine line ∧ Continued lines := by
  constructor
  · rintro ⟨front, l, blanks, heq, hasks, hblanks⟩
    rcases List.eq_nil_or_concat' blanks with rfl | ⟨blanks, b, rfl⟩
    · obtain ⟨_, hlast⟩ := List.append_inj' heq rfl
      obtain rfl := List.singleton_inj.mp hlast
      exact .inl hasks
    · rw [← List.cons_append, ← List.append_assoc] at heq
      obtain ⟨rfl, hlast⟩ := List.append_inj' heq rfl
      obtain rfl := List.singleton_inj.mp hlast
      exact .inr ⟨hblanks _ (List.mem_append_right _ List.mem_cons_self), front, l, blanks, rfl,
        hasks, fun b hb => hblanks b (List.mem_append_left _ hb)⟩
  · rintro (hasks | ⟨hblank, front, l, blanks, rfl, hasks, hblanks⟩)
    · exact ⟨lines, line, [], rfl, hasks, fun _ h => absurd h List.not_mem_nil⟩
    · refine ⟨front, l, blanks ++ [line], by rw [List.append_assoc, List.cons_append], hasks, ?_⟩
      intro b hb
      rcases List.mem_append.mp hb with hb | hb
      · exact hblanks b hb
      · exact List.mem_singleton.mp hb ▸ hblank

theorem not_continued_nil : ¬ Continued [] := by
  rintro ⟨front, line, blanks, heq, _⟩
  exact absurd heq.symm (List.append_ne_nil_of_right_ne_nil _ (List.cons_ne_nil _ _))

/-! ## Line after line -/

/-- What stands in front of a line, in reverse: the lines `done`, and the line end behind them. -/
structure Behind (before : List Char) (done : List (List Char)) : Prop where
  asks : asksToContinue before = true ↔ Continued done
  ends : ∀ c ∈ before.head?, isLineEnd c = true

namespace Behind

variable {before current : List Char} {done : List (List Char)}

theorem nil : Behind [] [] where
  asks := iff_of_false (by decide) not_continued_nil
  ends := fun _ h => absurd h (Option.not_mem_none _)

/-- **A text asks to be continued when its last line that is not blank does.** -/
theorem asks_iff (h : Behind before done) (current : List Char) :
    asksToContinue (current ++ before) = true ↔ Continued (done ++ [current.reverse]) := by
  rw [continued_concat, ← asksToContinue_reverse, List.reverse_reverse]
  by_cases hblank : BlankLine current
  · have hnot : ¬ asksToContinue current = true := fun hasks =>
      ((asksToContinue_reverse current.reverse).mp (by rwa [List.reverse_reverse])).not_blank
        hblank.reverse
    rw [iff_false_intro hnot, false_or, and_iff_right hblank.reverse, ← h.asks]
    unfold asksToContinue
    rw [List.dropWhile_append_of_pos hblank]
  · have hnot : ¬ BlankLine current.reverse := fun hrev =>
      hblank (current.reverse_reverse ▸ hrev.reverse)
    rw [iff_false_intro (fun hand => hnot hand.1 : ¬ (_ ∧ Continued done)), or_false]
    unfold asksToContinue
    have hrest : (current.dropWhile isBlank).isEmpty = false := by
      rw [Bool.eq_false_iff, ne_eq, List.isEmpty_iff, List.dropWhile_eq_nil_iff]
      exact hblank
    rw [List.dropWhile_append, hrest, if_neg Bool.false_ne_true,
      startsNoCase_mark_append fun c hc => isBlank_of_isLineEnd (h.ends c hc)]

/-- Behind the end of a line. -/
theorem lineEnd (h : Behind before done) {ends : List Char} (hne : ends ≠ [])
    (hends : ∀ c ∈ ends, isLineEnd c = true) :
    Behind (ends ++ (current ++ before)) (done ++ [current.reverse]) where
  asks := by
    rw [← h.asks_iff current]
    unfold asksToContinue
    rw [List.dropWhile_append_of_pos fun c hc => isBlank_of_isLineEnd (hends c hc)]
  ends := by
    cases ends with
    | nil => exact absurd rfl hne
    | cons d ends =>
      intro c hc
      exact Option.some.inj hc ▸ hends d List.mem_cons_self

end Behind

/-! ## Where a value ends -/

/-- **Where a value ends**: behind the lines `done` the lines of a value go on over every line end
    that they are continued at, up to one where they are not, or to the end of the text. -/
structure ValueEnds (done lines : List (List Char)) (rest : List Char) : Prop where
  continued : ∀ i, 0 < i → i < lines.length → Continued (done ++ lines.take i)
  ends : rest ≠ [] → (∃ c ∈ rest.head?, isLineEnd c = true) ∧ ¬ Continued (done ++ lines)

namespace ValueEnds

variable {done lines : List (List Char)} {line rest : List Char}

/-- The first line is the last one. -/
theorem single
    (h : rest ≠ [] → (∃ c ∈ rest.head?, isLineEnd c = true) ∧ ¬ Continued (done ++ [line])) :
    ValueEnds done [line] rest where
  continued := fun _ hpos hlt => absurd hlt (Nat.not_lt.mpr hpos)
  ends := h

/-- One more line in front. -/
theorem cons (hline : Continued (done ++ [line])) (h : ValueEnds (done ++ [line]) lines rest) :
    ValueEnds done (line :: lines) rest where
  continued := by
    intro i hpos hlt
    obtain ⟨i, rfl⟩ := Nat.exists_eq_succ_of_ne_zero (Nat.ne_of_gt hpos)
    rcases Nat.eq_zero_or_pos i with rfl | hpos
    · exact hline
    · have hstep := h.continued i hpos (Nat.lt_of_succ_lt_succ hlt)
      rwa [List.append_assoc, List.singleton_append] at hstep
  ends := by
    intro hrest
    have hstep := h.ends hrest
    rwa [List.append_assoc, List.singleton_append] at hstep

/-- Every line but the last asks to go on, or is a blank line behind others. -/
theorem asks_or_blank (h : ValueEnds [] lines rest) {i : Nat} (hlast : i + 1 < lines.length)
    (hline : lines[i]? = some line) : AsksOn line ∨ 0 < i ∧ BlankLine line := by
  have hcont := h.continued (i + 1) (Nat.succ_pos i) hlast
  rw [List.nil_append, List.take_add_one, hline] at hcont
  rcases continued_concat.mp hcont with hasks | ⟨hblank, hfront⟩
  · exact .inl hasks
  · refine .inr ⟨Nat.pos_of_ne_zero ?_, hblank⟩
    rintro rfl
    exact not_continued_nil hfront

/-- The last line does not ask for more, unless the text is at its end. -/
theorem not_asks (h : ValueEnds [] lines rest) (hrest : rest ≠ [])
    (hline : line ∈ lines.getLast?) : ¬ AsksOn line := by
  intro hasks
  obtain ⟨front, rfl⟩ := List.getLast?_eq_some_iff.mp hline
  exact (h.ends hrest).2 (continued_concat.mpr (.inl hasks))

end ValueEnds

/-- **The value behind a text** ends where its lines are not continued. -/
theorem exists_valueEnds {before : List Char} {done : List (List Char)} (h : Behind before done)
    (current : List Char) (k : Nat) (cs : List Char) : ∃ value rest, cs = value ++ rest ∧
      valueLength (current ++ before) k cs = k + value.length ∧
      ValueEnds done (linesBehind current value) rest := by
  generalize hpassed : current ++ before = passed
  -- At a line end the line that is being read joins those that are done.
  fun_induction valueLength passed k cs generalizing before current done with
  | case1 passed k => exact ⟨[], [], rfl, rfl, .single fun hrest => absurd rfl hrest⟩
  | case2 passed k cs hasks ih =>
    subst hpassed
    have hends : ∀ c ∈ ['\n', '\r'], isLineEnd c = true :=
      List.forall_mem_cons.mpr ⟨rfl, List.forall_mem_singleton.mpr rfl⟩
    obtain ⟨value, rest, rfl, hlength, hvalue⟩ :=
      ih (h.lineEnd (List.cons_ne_nil _ _) hends) [] (List.nil_append _)
    refine ⟨'\r' :: '\n' :: value, rest, rfl, ?_, .cons ((h.asks_iff current).mp hasks) hvalue⟩
    rw [hlength, List.length_cons, List.length_cons]
    omega
  | case3 passed k cs hasks =>
    subst hpassed
    refine ⟨[], _, rfl, rfl, .single fun _ => ⟨⟨'\r', rfl, rfl⟩, ?_⟩⟩
    rwa [← h.asks_iff]
  | case4 passed k c cs hnot hend hasks ih =>
    subst hpassed
    have hends : ∀ d ∈ [c], isLineEnd d = true := fun d hd => List.mem_singleton.mp hd ▸ hend
    obtain ⟨value, rest, rfl, hlength, hvalue⟩ :=
      ih (h.lineEnd (List.cons_ne_nil _ _) hends) [] (List.nil_append _)
    refine ⟨c :: value, rest, rfl, ?_, ?_⟩
    · rw [hlength, List.length_cons]
      omega
    · have hpair : ¬(c = '\r' ∧ value.head? = some '\n') := by
        rintro ⟨rfl, hhead⟩
        obtain ⟨value, rfl⟩ := List.head?_eq_some_iff.mp hhead
        exact hnot _ rfl rfl
      rw [linesBehind_cons, if_neg hpair, if_pos hend]
      exact .cons ((h.asks_iff current).mp hasks) hvalue
  | case5 passed k c cs hnot hend hasks =>
    subst hpassed
    refine ⟨[], _, rfl, rfl, .single fun _ => ⟨⟨c, rfl, hend⟩, ?_⟩⟩
    rwa [← h.asks_iff]
  | case6 passed k c cs hnot hend ih =>
    subst hpassed
    obtain ⟨value, rest, rfl, hlength, hvalue⟩ := ih h (c :: current) List.cons_append
    refine ⟨c :: value, rest, rfl, ?_, ?_⟩
    · rw [hlength, List.length_cons]
      omega
    · have hpair : ¬(c = '\r' ∧ value.head? = some '\n') := by
        rintro ⟨rfl, _⟩
        exact hend rfl
      rw [linesBehind_cons, if_neg hpair, if_neg hend]
      exact hvalue

/-! ## Tokens -/

namespace Reading

/-- A step of another kind is not the one that was taken. -/
theorem not_of_kind_ite {k : TokenKind} {b : Prop} [Decidable b] {r s : Reading} (hr : r.kind ≠ k)
    (h : (if b then r else s).kind = k) : ¬ b := by
  intro hb
  rw [if_pos hb] at h
  exact hr h

/-- What becomes of a step keeps its length, where it keeps a kind other than an error. -/
theorem of_settleBlock_kind {r : Reading} {k : TokenKind} (hk : k ≠ .error)
    (h : r.atLeastOne.settleBlock.kind = k) :
    r.kind = k ∧ r.atLeastOne.settleBlock.length = r.length := by
  have hsettle : ∀ s : Reading, s.settleBlock.kind = s.kind ∧ s.settleBlock.length = s.length := by
    intro s
    unfold settleBlock
    split <;> exact ⟨rfl, rfl⟩
  rw [(hsettle _).1] at h
  rw [(hsettle _).2]
  unfold atLeastOne at h ⊢
  split at h
  · exact absurd h.symm hk
  · next hlength => exact ⟨h, by rw [if_neg hlength]⟩

end Reading

/-- In the place of a macro's value only the value is raw text. -/
theorem readCode_of_rawText [Limits] {m : Mode} {c : Char} {cs : List Char}
    (hplace : m.position = .macroValue) (hraw : (readCode m c cs).kind = .rawText) :
    readCode m c cs = ⟨.rawText, valueLength [] 0 cs, m⟩ := by
  unfold readCode at hraw ⊢
  rw [hplace] at hraw ⊢
  have hlineEnd : (if m.newlineIsSignificant then readLineEnd m cs else readSpace m cs).kind ≠
      .rawText := by
    split <;> exact TokenKind.noConfusion
  have hblock : (readBlockComment cs m).kind ≠ .rawText := by
    unfold readBlockComment
    split <;> exact TokenKind.noConfusion
  have hends := Reading.not_of_kind_ite hlineEnd hraw
  rw [if_neg hends] at hraw ⊢
  have hspace := Reading.not_of_kind_ite TokenKind.noConfusion hraw
  rw [if_neg hspace] at hraw ⊢
  have hline := Reading.not_of_kind_ite TokenKind.noConfusion hraw
  rw [if_neg hline] at hraw ⊢
  have hnotBlock := Reading.not_of_kind_ite hblock hraw
  rw [if_neg hnotBlock] at hraw ⊢
  have hhash := Reading.not_of_kind_ite TokenKind.noConfusion hraw
  rw [if_neg hhash]

variable {m : Mode} {cs : List Char} {r : Reading}

/-- **The value of a macro** goes on over the ends of lines that are continued, and over no others:
    a line is continued when it asks for it, or when it is blank and the line in front is
    continued. -/
theorem scan?_macroValue [Limits] (h : scan? m cs = some r)
    (hlayer : m.layer = .core ∨ m.layer = .expr)
    (hplace : m.position = .macroValue) (hraw : r.kind = .rawText) :
    ValueEnds [] (valueLines (cs.take r.length)) (cs.drop r.length) := by
  cases cs with
  | nil => cases h
  | cons c cs =>
    obtain rfl := Option.some.inj h
    have hcode : readLayer m c (c :: cs) = readCode m c (c :: cs) := by
      unfold readLayer
      rcases hlayer with hl | hl <;> rw [hl]
    rw [hcode] at hraw ⊢
    obtain ⟨hkind, hlength⟩ := Reading.of_settleBlock_kind TokenKind.noConfusion hraw
    rw [hlength, readCode_of_rawText hplace hkind]
    obtain ⟨value, rest, heq, hvalue, hends⟩ := exists_valueEnds .nil [] 0 (c :: cs)
    rw [List.nil_append, Nat.zero_add] at hvalue
    dsimp only
    rw [hvalue, heq, List.take_left, List.drop_left]
    exact hends

/-- **Without blank lines behind its first one**, a value goes on over the end of a line exactly
    when the line asks for it. -/
theorem scan?_macroValue_of_not_blank [Limits] (h : scan? m cs = some r)
    (hlayer : m.layer = .core ∨ m.layer = .expr) (hplace : m.position = .macroValue)
    (hraw : r.kind = .rawText)
    (hfull : ∀ line ∈ (valueLines (cs.take r.length)).tail, ¬ BlankLine line) :
    (∀ line ∈ (valueLines (cs.take r.length)).dropLast, AsksOn line) ∧
      (r.length < cs.length →
        ∀ line ∈ (valueLines (cs.take r.length)).getLast?, ¬ AsksOn line) := by
  have hends := scan?_macroValue h hlayer hplace hraw
  generalize valueLines (cs.take r.length) = lines at hfull hends ⊢
  constructor
  · intro line hline
    obtain ⟨i, hi⟩ := List.getElem?_of_mem hline
    rw [List.getElem?_dropLast] at hi
    split at hi
    · next hlt =>
      rcases hends.asks_or_blank (by omega) hi with hasks | ⟨hpos, hblank⟩
      · exact hasks
      · refine absurd hblank (hfull line ?_)
        obtain ⟨i, rfl⟩ := Nat.exists_eq_succ_of_ne_zero (Nat.ne_of_gt hpos)
        exact List.mem_of_getElem? (List.getElem?_tail.trans hi)
    · cases hi
  · intro hlt line hline
    exact hends.not_asks (List.ne_nil_of_length_pos (by rw [List.length_drop]; omega)) hline

/-- A blank line does not ask to go on, and goes on where the line in front does. -/
example : valueLength [] 0 "##continue\n\nb\nc".toList = 13 ∧
    valueLines ("##continue\n\nb\nc".toList.take 13) = ["##continue".toList, [], ['b']] ∧
    ¬ AsksOn [] := by
  decide +kernel

end LayeredSyntax
