/-
  LINES AND POSITIONS — looking a place up gives what walking there would give.

  The lines of a text are found in one walk over its places (`startsFrom`).  The walk finds a start
  behind every line feed and nowhere else, so it finds what `startsOf` lists (`startsFrom_eq`): a line
  begins where the text begins or right behind a line feed (`lineStart_begins`).

  To look a place up, the characters in front of it are cut behind their last line feed (`LineCut`):
  what stands in front of the cut are finished lines, and what stands behind it is the part of the
  running line that has been read.  The lines that begin at or before the place are those in front of
  it (`lineIndex_width`), the last of them begins at the cut (`LineCut.lineStart_eq`), and the
  characters from there to the place are counted one by one (`countUpTo?_eq`).

  **The crux (`positionAt_width`)**: so the position that a document looks up for a place between two
  characters is the position that `Position.after` reaches by walking over all characters in front
  of the place, which counts the same line feeds and characters (`LineCut.after_eq`).
-/
import LayeredSyntax.Source.Document

namespace LayeredSyntax

/-! ## The size of a text -/

/-- The bytes of a text are the width of its characters. -/
theorem utf8ByteSize_eq_width (s : String) : s.utf8ByteSize = width s.toList := by
  obtain ⟨cs, rfl⟩ : ∃ cs, s = String.ofList cs := ⟨s.toList, String.ofList_toList.symm⟩
  rw [String.toList_ofList]
  induction cs with
  | nil => rfl
  | cons c cs ih =>
    rw [String.ofList_cons, String.utf8ByteSize_append, String.utf8ByteSize_singleton, ih, width_cons]

/-- Of two texts that begin the same text, the one that is not wider begins the other one. -/
theorem exists_append_of_width_le {a b c d : List Char} (h : a ++ b = c ++ d)
    (hle : width a ≤ width c) : ∃ u, c = a ++ u := by
  rcases List.append_eq_append_iff.mp h with ⟨u, hc, _⟩ | ⟨u, ha, _⟩
  · exact ⟨u, hc⟩
  · rw [ha, width_append] at hle
    have hnil : u = [] := width_eq_zero_iff.mp (by omega)
    exact ⟨[], by rw [ha, hnil, List.append_nil, List.append_nil]⟩

/-- Walking over the characters of a text from its start leads past their bytes. -/
theorem Position.origin_after_offset (cs : List Char) :
    (Position.origin.after cs).offset = width cs :=
  (Position.after_offset _ _).trans (Nat.zero_add _)

/-! ## Where lines begin -/

/-- Where lines begin in a run that stands behind `before` bytes: behind each of its line feeds. -/
def startsOf (before : Nat) : List Char → List Nat
  | [] => []
  | c :: cs =>
    let behind := before + c.utf8Size
    if c = '\n' then behind :: startsOf behind cs else startsOf behind cs

theorem startsOf_append (before : Nat) (u v : List Char) :
    startsOf before (u ++ v) = startsOf before u ++ startsOf (before + width u) v := by
  induction u generalizing before with
  | nil => rfl
  | cons c u ih =>
    rw [List.cons_append, startsOf, startsOf, ih, width_cons, ← Nat.add_assoc]
    split <;> rfl

/-- One line begins for each line feed. -/
theorem length_startsOf (before : Nat) (cs : List Char) :
    (startsOf before cs).length = cs.count '\n' := by
  induction cs generalizing before with
  | nil => rfl
  | cons c cs ih =>
    rw [startsOf]
    split
    · next hc => rw [List.length_cons, ih, hc, List.count_cons_self]
    · next hc => rw [ih, List.count_cons_of_ne hc]

/-- No line begins in a run without line feeds. -/
theorem startsOf_eq_nil (before : Nat) {cs : List Char} (h : '\n' ∉ cs) :
    startsOf before cs = [] := by
  rw [← List.length_eq_zero_iff, length_startsOf, List.count_eq_zero.mpr h]

/-- A line begins behind a line feed. -/
theorem exists_of_mem_startsOf {before start : Nat} {cs : List Char}
    (h : start ∈ startsOf before cs) :
    ∃ a b, cs = a ++ '\n' :: b ∧ start = before + width a + 1 := by
  induction cs generalizing before with
  | nil => exact absurd h List.not_mem_nil
  | cons c cs ih =>
    rw [startsOf] at h
    have hlater : start ∈ startsOf (before + c.utf8Size) cs →
        ∃ a b, c :: cs = a ++ '\n' :: b ∧ start = before + width a + 1 := fun h => by
      obtain ⟨a, b, rfl, hstart⟩ := ih h
      exact ⟨c :: a, b, rfl, by rw [hstart, width_cons]; omega⟩
    split at h
    · next hc =>
      rcases List.mem_cons.mp h with hfirst | h
      · exact ⟨[], cs, by rw [hc]; rfl, by rw [hfirst, hc]; rfl⟩
      · exact hlater h
    · exact hlater h

theorem bounds_of_mem_startsOf {before start : Nat} {cs : List Char}
    (h : start ∈ startsOf before cs) : before < start ∧ start ≤ before + width cs := by
  obtain ⟨a, b, rfl, rfl⟩ := exists_of_mem_startsOf h
  have hfeed : ('\n').utf8Size = 1 := rfl
  rw [width_append, width_cons, hfeed]
  omega

/-! ## The walk over a text -/

section Walking

variable {text : String} {a b : List Char} {c : Char}

theorem utf8GetAux_width (i : String.Pos.Raw) (a b : List Char) (c : Char) :
    String.Pos.Raw.utf8GetAux (a ++ c :: b) i ⟨i.byteIdx + width a⟩ = c := by
  induction a generalizing i with
  | nil => exact if_pos rfl
  | cons d a ih =>
    have hd := d.utf8Size_pos
    have hne : i ≠ ⟨i.byteIdx + width (d :: a)⟩ := fun h => by
      have hidx := congrArg String.Pos.Raw.byteIdx h
      rw [width_cons] at hidx
      dsimp only at hidx
      omega
    refine (if_neg hne).trans ?_
    have hlater := ih (i + d)
    rwa [show (i + d).byteIdx + width a = i.byteIdx + width (d :: a) by
      rw [width_cons, ← Nat.add_assoc]; rfl] at hlater

/-- **Behind some characters of a text stands the one that follows.** -/
theorem get_width (h : text.toList = a ++ c :: b) :
    String.Pos.Raw.get text ⟨width a⟩ = c := by
  have hget := utf8GetAux_width 0 a b c
  rwa [← h, show (0 : String.Pos.Raw).byteIdx + width a = width a from Nat.zero_add _] at hget

theorem next_width (h : text.toList = a ++ c :: b) :
    String.Pos.Raw.next text ⟨width a⟩ = ⟨width (a ++ [c])⟩ := by
  show String.Pos.Raw.mk (width a + (String.Pos.Raw.get text ⟨width a⟩).utf8Size) = _
  rw [get_width h, width_append, width_cons, width_nil, Nat.add_zero]

namespace Document

/-- **The walk over a text finds where its lines begin.** -/
theorem startsFrom_eq (starts : Array Nat) (h : text.toList = a ++ b) :
    (startsFrom text ⟨width a⟩ starts).toList = starts.toList ++ startsOf (width a) b := by
  have hsize : text.utf8ByteSize = width a + width b := by
    rw [utf8ByteSize_eq_width, h, width_append]
  induction b generalizing a starts with
  | nil =>
    have hend : String.Pos.Raw.atEnd text ⟨width a⟩ = true := decide_eq_true (Nat.le_of_eq hsize)
    rw [startsFrom, dif_pos hend, startsOf, List.append_nil]
  | cons c b ih =>
    have hc := c.utf8Size_pos
    have hstop : width (a ++ [c]) = width a + c.utf8Size := by
      rw [width_append, width_cons, width_nil, Nat.add_zero]
    have hlater := ih (a := a ++ [c])
      (if c = '\n' then starts.push (width (a ++ [c])) else starts) (by rw [h]; simp)
      (by rw [hsize, hstop, width_cons, Nat.add_assoc])
    have hopen : ¬ String.Pos.Raw.atEnd text ⟨width a⟩ = true := fun hend => by
      have hle : text.utf8ByteSize ≤ width a := of_decide_eq_true hend
      rw [hsize, width_cons] at hle
      omega
    rw [startsFrom, dif_neg hopen]
    show (startsFrom text (String.Pos.Raw.next text ⟨width a⟩)
      (if String.Pos.Raw.get text ⟨width a⟩ = '\n' then
        starts.push (String.Pos.Raw.next text ⟨width a⟩).byteIdx else starts)).toList = _
    rw [next_width h, get_width h, hlater, startsOf, hstop]
    split
    · rw [Array.toList_push, List.append_assoc]
      rfl
    · rfl

theorem starts_ofText (text : String) : (ofText text).starts.toList = 0 :: startsOf 0 text.toList :=
  startsFrom_eq (a := []) #[0] rfl

/-- A document is its text with the lines that begin in it. -/
theorem ofText_eq (text : String) :
    ofText text = ⟨text, (0 :: startsOf 0 text.toList).toArray⟩ :=
  congrArg (Document.mk text) (Array.toList_inj.mp (starts_ofText text))

/-- **Characters are counted up to where one stops.** -/
theorem countUpTo?_eq {u : List Char} (count : Nat) (h : text.toList = a ++ (u ++ b)) :
    countUpTo? text (width a + width u) ⟨width a⟩ count = some (count + u.length) := by
  induction u generalizing a count with
  | nil =>
    rw [width_nil, Nat.add_zero, countUpTo?, if_neg (Nat.lt_irrefl _), if_pos rfl]
    rfl
  | cons c u ih =>
    have hc := c.utf8Size_pos
    have hstop : width (a ++ [c]) + width u = width a + width (c :: u) := by
      simp only [width_append, width_cons, width_nil]
      omega
    have hlater := ih (a := a ++ [c]) (count + 1) (by rw [h]; simp)
    rw [countUpTo?, if_pos (by rw [width_cons]; dsimp only; omega), next_width h, ← hstop, hlater,
      List.length_cons, Nat.add_assoc, Nat.add_comm 1]

end Document

end Walking

/-! ## The last line feed of a run -/

/-- **A run is cut behind its last line feed**, or at its start when it has none. -/
structure LineCut (run front line : List Char) : Prop where
  whole : run = front ++ line
  unbroken : '\n' ∉ line
  begins : front = [] ∨ ∃ a, front = a ++ ['\n']

theorem exists_lineCut (run : List Char) : ∃ front line, LineCut run front line := by
  induction run with
  | nil => exact ⟨[], [], rfl, List.not_mem_nil, .inl rfl⟩
  | cons c cs ih =>
    obtain ⟨front, line, rfl, hline, rfl | ⟨a, rfl⟩⟩ := ih
    · by_cases hc : c = '\n'
      · exact ⟨['\n'], line, by rw [hc]; rfl, hline, .inr ⟨[], rfl⟩⟩
      · refine ⟨[], c :: line, rfl, fun h => ?_, .inl rfl⟩
        rcases List.mem_cons.mp h with h | h
        · exact hc h.symm
        · exact hline h
    · exact ⟨c :: (a ++ ['\n']), line, rfl, hline, .inr ⟨c :: a, rfl⟩⟩

namespace LineCut

variable {run front line front' line' : List Char}

/-- No cut stands behind another one: it would have a line feed behind the first one. -/
theorem eq_nil_of_append (h : LineCut run front line) {middle : List Char}
    (h' : LineCut run (front ++ middle) line') : middle = [] := by
  have hline : line = middle ++ line' := by
    have hwhole := h.whole.symm.trans h'.whole
    rw [List.append_assoc] at hwhole
    exact List.append_cancel_left hwhole
  rcases List.eq_nil_or_concat middle with hnil | ⟨before, c, rfl⟩
  · exact hnil
  obtain hnil | ⟨a, hend⟩ := h'.begins
  · simp at hnil
  · have hc : c = '\n' := by simpa using congrArg List.getLast? hend
    exact absurd (by rw [hline, hc]; simp) h.unbroken

/-- **There is one such cut only.** -/
theorem unique (h : LineCut run front line) (h' : LineCut run front' line') :
    front = front' ∧ line = line' := by
  have hfront : front = front' := by
    rcases List.append_eq_append_iff.mp (h.whole.symm.trans h'.whole) with
      ⟨middle, rfl, _⟩ | ⟨middle, rfl, _⟩
    · rw [h.eq_nil_of_append h', List.append_nil]
    · rw [h'.eq_nil_of_append h, List.append_nil]
  subst hfront
  exact ⟨rfl, List.append_cancel_left (h.whole.symm.trans h'.whole)⟩

end LineCut

/-! ## The line of a place -/

namespace Document

variable {text : String} {u v : List Char}

/-- The lines that begin at or before a place are those of the characters in front of it. -/
theorem takeWhile_starts (h : text.toList = u ++ v) :
    (ofText text).starts.toList.takeWhile (· ≤ width u) = 0 :: startsOf 0 u := by
  have hbefore : ∀ s ∈ 0 :: startsOf 0 u, decide (s ≤ width u) = true := fun s hs =>
    decide_eq_true <| (List.mem_cons.mp hs).elim (fun hzero => hzero ▸ Nat.zero_le _) fun hs => by
      have := (bounds_of_mem_startsOf hs).2
      omega
  have hbehind : (startsOf (0 + width u) v).takeWhile (· ≤ width u) = [] := by
    cases hv : startsOf (0 + width u) v with
    | nil => rfl
    | cons s ss =>
      have := (bounds_of_mem_startsOf (hv ▸ List.mem_cons_self : s ∈ startsOf (0 + width u) v)).1
      exact List.takeWhile_cons_of_neg (by simp; omega)
  rw [starts_ofText, h, startsOf_append, ← List.cons_append,
    List.takeWhile_append_of_pos hbefore, hbehind, List.append_nil]

/-- A line is numbered by the line feeds in front of it. -/
theorem lineIndex_width (h : text.toList = u ++ v) :
    (ofText text).lineIndex (width u) = u.count '\n' := by
  rw [lineIndex, takeWhile_starts h, List.length_cons, length_startsOf, Nat.add_sub_cancel]

/-- The line of a byte is the last one that begins early enough; the first one does. -/
theorem getLast?_takeWhile_starts (text : String) (offset : Nat) :
    ((ofText text).starts.toList.takeWhile (· ≤ offset)).getLast? =
      some ((ofText text).lineStart offset) := by
  let early := (ofText text).starts.toList.takeWhile (· ≤ offset)
  have hlast : early.length - 1 < early.length := by
    have hzero : 0 ∈ early := by
      show 0 ∈ (ofText text).starts.toList.takeWhile (· ≤ offset)
      rw [starts_ofText, List.takeWhile_cons_of_pos (by simp)]
      exact List.mem_cons_self
    have := List.length_pos_of_mem hzero
    omega
  have hget : (ofText text).starts[early.length - 1]? = some early[early.length - 1] := by
    rw [← Array.getElem?_toList]
    exact List.prefix_iff_getElem?.mp (List.takeWhile_prefix _) _ hlast
  show early.getLast? = some ((ofText text).starts[early.length - 1]?.getD 0)
  rw [hget, List.getLast?_eq_getElem?]
  exact List.getElem?_eq_getElem hlast

/-- The line of a byte, on the boundary of a character or inside one, begins at or before it, with
    the text or behind a line feed. -/
theorem lineStart_begins (text : String) (offset : Nat) :
    (ofText text).lineStart offset ≤ offset ∧ ((ofText text).lineStart offset = 0 ∨
      ∃ a b, text.toList = a ++ '\n' :: b ∧ (ofText text).lineStart offset = width a + 1) := by
  have hlast := List.mem_of_getLast? (getLast?_takeWhile_starts text offset)
  refine ⟨of_decide_eq_true (List.all_eq_true.mp List.all_takeWhile _ hlast :), ?_⟩
  have hmem := (List.takeWhile_sublist _).subset hlast
  rw [starts_ofText] at hmem
  refine (List.mem_cons.mp hmem).imp_right fun hbehind => ?_
  obtain ⟨a, b, htext, hstart⟩ := exists_of_mem_startsOf hbehind
  exact ⟨a, b, htext, by rw [hstart, Nat.zero_add]⟩

end Document

namespace LineCut

variable {run front line : List Char}

/-- **The line of a place begins behind the last line feed in front of it.** -/
theorem lineStart_eq (h : LineCut run front line) {text : String} {rest : List Char}
    (htext : text.toList = run ++ rest) :
    (Document.ofText text).lineStart (width run) = width front := by
  have hstarts : startsOf 0 run = startsOf 0 front := by
    rw [h.whole, startsOf_append, startsOf_eq_nil _ h.unbroken, List.append_nil]
  have hlast := Document.getLast?_takeWhile_starts text (width run)
  rw [Document.takeWhile_starts htext, hstarts] at hlast
  refine (Option.some.inj (hlast.symm.trans ?_))
  obtain rfl | ⟨a, rfl⟩ := h.begins
  · rfl
  · have hfeed : startsOf (0 + width a) ['\n'] = [width (a ++ ['\n'])] := by
      rw [width_append, Nat.zero_add]
      rfl
    rw [startsOf_append, hfeed, ← List.cons_append, List.getLast?_concat]

end LineCut

/-! ## The position of a place -/

namespace Position

/-- A walk passes as many lines as there are line feeds. -/
theorem after_line (p : Position) (cs : List Char) :
    (p.after cs).line = p.line + .ofNat (cs.count '\n') := by
  induction cs generalizing p with
  | nil => exact (UInt32.add_zero _).symm
  | cons c cs ih =>
    show ((p.step c).after cs).line = _
    rw [ih, step]
    by_cases hc : c = '\n'
    · rw [if_pos hc, hc, List.count_cons_self, UInt32.ofNat_add,
        UInt32.add_comm (.ofNat (cs.count '\n')), ← UInt32.add_assoc]
      rfl
    · rw [if_neg hc, List.count_cons_of_ne hc]

/-- Within a line a walk passes as many columns as there are characters. -/
theorem after_column (p : Position) {cs : List Char} (h : '\n' ∉ cs) :
    (p.after cs).column = p.column + .ofNat cs.length := by
  induction cs generalizing p with
  | nil => exact (UInt32.add_zero _).symm
  | cons c cs ih =>
    obtain ⟨hc, hcs⟩ := not_or.mp fun hmem => h (List.mem_cons.mpr hmem)
    show ((p.step c).after cs).column = _
    rw [ih _ hcs, step, if_neg (Ne.symm hc), List.length_cons, UInt32.ofNat_add,
      UInt32.add_comm (.ofNat cs.length), ← UInt32.add_assoc]
    rfl

end Position

/-- **The position behind a run**: the line counts its line feeds, the column the characters behind the
    last one. -/
theorem LineCut.after_eq {run front line : List Char} (h : LineCut run front line) :
    Position.origin.after run =
      ⟨width run, .ofNat (run.count '\n') + 1, .ofNat line.length + 1⟩ := by
  have hline := Position.after_line .origin run
  have hcolumn : (Position.origin.after run).column = 1 + .ofNat line.length := by
    have hfront : (Position.origin.after front).column = 1 := by
      obtain rfl | ⟨a, rfl⟩ := h.begins
      · rfl
      · rw [Position.after_append]
        rfl
    rw [h.whole, Position.after_append, Position.after_column _ h.unbroken, hfront]
  have hoffset := Position.origin_after_offset run
  rw [UInt32.add_comm] at hline hcolumn
  generalize Position.origin.after run = p at hline hcolumn hoffset
  obtain ⟨offset, line', column⟩ := p
  subst hline hcolumn hoffset
  rfl

namespace Document

/-- **A position that is looked up is the one that is reached by walking there.** -/
theorem positionAt_width {text : String} {u v : List Char} (h : text.toList = u ++ v) :
    (ofText text).positionAt (width u) = Position.origin.after u := by
  obtain ⟨front, line, hcut⟩ := exists_lineCut u
  have hsize : min (width u) (ofText text).size = width u := by
    refine Nat.min_eq_left ?_
    show width u ≤ text.utf8ByteSize
    rw [utf8ByteSize_eq_width, h, width_append]
    exact Nat.le_add_right _ _
  have hcolumn : countUpTo? text (width u) ⟨width front⟩ 0 = some line.length := by
    have hcount := countUpTo?_eq (a := front) (u := line) (b := v) 0
      (by rw [h, hcut.whole, List.append_assoc])
    rwa [← width_append, ← hcut.whole, Nat.zero_add] at hcount
  show Position.mk _ _ (.ofNat ((countUpTo? text _ _ 0).getD _) + 1) = _
  rw [hsize, hcut.lineStart_eq h, lineIndex_width h, hcolumn, hcut.after_eq]
  rfl

end Document

end LayeredSyntax
