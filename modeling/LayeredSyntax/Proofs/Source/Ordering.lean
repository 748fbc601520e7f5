/-
  LINES AND COLUMNS — what they count, and the order that they put places in.

  A place of a text is shown to a reader as a line and a column (`Position.place`).  The line counts
  the line feeds in front of the place, the column the characters behind the last of them
  (`LineCut.after_eq`); both are numbers of 32 bits, so they are what is counted modulo `2 ^ 32`.
  Where the counts fit (`Document.FitsAt`) they are exact, and they fit at every offset below
  `2 ^ 32 - 1`.

  **The crux (`LineCut.lt_of_append`)**: more characters lead to a later line when there is a line feed
  among them, and to a later column of the same line otherwise.  So places that fit come in the order
  of their offsets.  A line of `2 ^ 32` characters ends where it begins
  (`positionAt_wraps_longLine`): there its column has come around.
-/
import LayeredSyntax.Proofs.Source.Lines
import Mathlib.Data.Prod.Lex
import Mathlib.Order.Monotone.Basic

namespace LayeredSyntax

/-! ## The order of counts -/

/-- Every character takes a byte. -/
theorem length_le_width (cs : List Char) : cs.length ≤ width cs := by
  induction cs with
  | nil => exact Nat.le_refl _
  | cons c cs ih =>
    have := c.utf8Size_pos
    rw [List.length_cons, width_cons]
    omega

namespace LineCut

variable {run front line more front' line' : List Char}

/-- Characters without a line feed stand on the same line. -/
theorem append (h : LineCut run front line) (hmore : '\n' ∉ more) :
    LineCut (run ++ more) front (line ++ more) where
  whole := by rw [h.whole, List.append_assoc]
  unbroken hmem := (List.mem_append.mp hmem).elim h.unbroken hmore
  begins := h.begins

/-- **More characters lead to a later line, or to a later column of the same one.** -/
theorem lt_of_append (h : LineCut run front line) (h' : LineCut (run ++ more) front' line')
    (hmore : more ≠ []) :
    toLex (run.count '\n', line.length) < toLex ((run ++ more).count '\n', line'.length) := by
  rw [Prod.Lex.toLex_lt_toLex, List.count_append]
  by_cases hfeed : '\n' ∈ more
  · exact .inl (Nat.lt_add_of_pos_right (List.count_pos_iff.mpr hfeed))
  · obtain ⟨-, rfl⟩ := h'.unique (h.append hfeed)
    refine .inr ⟨by rw [List.count_eq_zero.mpr hfeed, Nat.add_zero], ?_⟩
    rw [List.length_append]
    exact Nat.lt_add_of_pos_right (List.length_pos_iff.mpr hmore)

end LineCut

/-! ## The order of places -/

/-- **Line and column** as a reader compares them, the line first. -/
def Position.place (p : Position) : Nat ×ₗ Nat := toLex (p.line.toNat, p.column.toNat)

namespace Document

/-- **Whether the line and the column of a boundary fit their 32 bits.** -/
def FitsAt (text : String) (o : Nat) : Prop :=
  ∃ before after front line, splitAtByte? o text.toList = some (before, after) ∧
    LineCut before front line ∧ 1 + before.count '\n' < UInt32.size ∧ 1 + line.length < UInt32.size

variable {text : String} {before after front line : List Char}

/-- The line and the column of a place are what they count, modulo `2 ^ 32`. -/
theorem positionAt_toNat (htext : text.toList = before ++ after)
    (hcut : LineCut before front line) :
    ((ofText text).positionAt (width before)).line.toNat = (1 + before.count '\n') % UInt32.size ∧
      ((ofText text).positionAt (width before)).column.toNat = (1 + line.length) % UInt32.size := by
  rw [positionAt_width htext, hcut.after_eq, Nat.add_comm 1, Nat.add_comm 1]
  exact ⟨(UInt32.toNat_add _ _).trans (Nat.mod_add_mod _ _ _),
    (UInt32.toNat_add _ _).trans (Nat.mod_add_mod _ _ _)⟩

/-- Both fit where fewer than `2 ^ 32 - 1` bytes stand in front. -/
theorem fitsAt_of_lt {o : Nat} (h : isBoundary o text.toList) (hlt : o + 1 < UInt32.size) :
    FitsAt text o := by
  obtain ⟨⟨before, after⟩, hsplit⟩ := Option.isSome_iff_exists.mp h
  obtain ⟨front, line, hcut⟩ := exists_lineCut before
  have hwidth := (splitAtByte?_eq_some_iff.mp hsplit).2
  have hlength := length_le_width before
  have hfeeds := List.count_le_length (a := '\n') (l := before)
  have hline : line.length ≤ before.length := by
    rw [hcut.whole, List.length_append]
    exact Nat.le_add_left _ _
  exact ⟨before, after, front, line, hsplit, hcut, by omega, by omega⟩

/-- **Places that fit come in the order of their offsets.** -/
theorem place_strictMonoOn (text : String) :
    StrictMonoOn (fun o => ((ofText text).positionAt o).place) {o | FitsAt text o} := by
  rintro o ⟨u, v, front, line, hsplit, hcut, hfeeds, hcolumn⟩
    o' ⟨u', v', front', line', hsplit', hcut', hfeeds', hcolumn'⟩ hlt
  obtain ⟨htext, rfl⟩ := splitAtByte?_eq_some_iff.mp hsplit
  obtain ⟨htext', rfl⟩ := splitAtByte?_eq_some_iff.mp hsplit'
  obtain ⟨more, rfl⟩ := exists_append_of_width_le (htext.symm.trans htext') hlt.le
  have hmore : more ≠ [] := by
    rintro rfl
    rw [List.append_nil] at hlt
    exact lt_irrefl _ hlt
  have hexact := positionAt_toNat htext hcut
  have hexact' := positionAt_toNat htext' hcut'
  rw [Nat.mod_eq_of_lt hfeeds, Nat.mod_eq_of_lt hcolumn] at hexact
  rw [Nat.mod_eq_of_lt hfeeds', Nat.mod_eq_of_lt hcolumn'] at hexact'
  have hcounts := hcut.lt_of_append hcut' hmore
  simp only [Position.place, hexact, hexact', Prod.Lex.toLex_lt_toLex] at hcounts ⊢
  omega

/-! ### A line that is too long -/

/-- A text of one line, with as many characters as bytes. -/
def longLine (n : Nat) : String := String.ofList (List.replicate n 'a')

theorem lineCut_longLine (n : Nat) :
    LineCut (List.replicate n 'a') [] (List.replicate n 'a') :=
  ⟨rfl, fun h => absurd (List.eq_of_mem_replicate h) (by decide), .inl rfl⟩

theorem width_longLine (n : Nat) : width (List.replicate n 'a') = n := by
  induction n with
  | zero => rfl
  | succ n ih => rw [List.replicate_succ, width_cons, ih, Nat.add_comm]; rfl

theorem splitAtByte?_longLine (n : Nat) :
    splitAtByte? n (longLine n).toList = some (List.replicate n 'a', []) :=
  splitAtByte?_eq_some_iff.mpr
    ⟨by rw [longLine, String.toList_ofList, List.append_nil], width_longLine n⟩

theorem positionAt_longLine (n : Nat) :
    (ofText (longLine n)).positionAt n = ⟨n, 1, .ofNat n + 1⟩ := by
  have hposition := positionAt_width (splitAtByte?_eq_some_iff.mp (splitAtByte?_longLine n)).1
  rw [(lineCut_longLine n).after_eq, width_longLine, List.length_replicate,
    List.count_eq_zero.mpr (lineCut_longLine n).unbroken] at hposition
  exact hposition

/-! ### Every place -/

/-- **Lines and columns are exact and keep the order.**  At each boundary of a character the line is
    one more than the line feeds in front of it and the column one more than the characters between
    the last of them and the boundary, both modulo `2 ^ 32`, and the line begins right behind that
    line feed or with the text.  Both counts fit where fewer than `2 ^ 32 - 1` bytes stand in front.
    Of two boundaries where they fit the one behind has the later line and column, so no two of them
    have the same ones. -/
theorem positionAt_exact (text : String) :
    (∀ o before after, splitAtByte? o text.toList = some (before, after) →
      ∃ front line, LineCut before front line ∧
        ((ofText text).positionAt o).offset = o ∧
        ((ofText text).positionAt o).line.toNat = (1 + before.count '\n') % UInt32.size ∧
        ((ofText text).positionAt o).column.toNat = (1 + line.length) % UInt32.size ∧
        (ofText text).lineStart o = width front) ∧
    (∀ o, isBoundary o text.toList → o + 1 < UInt32.size → FitsAt text o) ∧
    StrictMonoOn (fun o => ((ofText text).positionAt o).place) {o | FitsAt text o} ∧
    Set.InjOn (fun o => ((ofText text).positionAt o).place) {o | FitsAt text o} := by
  refine ⟨fun o before after h => ?_, fun _ => fitsAt_of_lt, place_strictMonoOn text,
    (place_strictMonoOn text).injOn⟩
  obtain ⟨htext, rfl⟩ := splitAtByte?_eq_some_iff.mp h
  obtain ⟨front, line, hcut⟩ := exists_lineCut before
  obtain ⟨hline, hcolumn⟩ := positionAt_toNat htext hcut
  refine ⟨front, line, hcut, ?_, hline, hcolumn, hcut.lineStart_eq htext⟩
  rw [positionAt_width htext, Position.origin_after_offset]

/-- **Places in the second line** of a text with a character of two bytes: in front of its only
    character and behind it. -/
theorem positionAt_exact_secondLine :
    splitAtByte? 4 "é\nb".toList = some (['é', '\n', 'b'], []) ∧
    ((ofText "é\nb").positionAt 4).line.toNat = 2 ∧
    ((ofText "é\nb").positionAt 4).column.toNat = 2 ∧ (ofText "é\nb").lineStart 4 = 3 ∧
    FitsAt "é\nb" 3 ∧ FitsAt "é\nb" 4 ∧ 3 < 4 ∧
    ((ofText "é\nb").positionAt 3).place < ((ofText "é\nb").positionAt 4).place := by
  have hsplit : splitAtByte? 4 "é\nb".toList = some (['é', '\n', 'b'], []) := by decide
  have hcut : LineCut ['é', '\n', 'b'] ['é', '\n'] ['b'] :=
    ⟨rfl, by decide, .inr ⟨['é'], rfl⟩⟩
  obtain ⟨hexact, hfits, hordered, _⟩ := positionAt_exact "é\nb"
  obtain ⟨front, line, hline, _, hfeeds, hcolumn, hstart⟩ := hexact 4 _ _ hsplit
  obtain ⟨rfl, rfl⟩ := hline.unique hcut
  have hthree : FitsAt "é\nb" 3 := hfits 3 (by decide) (by decide)
  have hfour : FitsAt "é\nb" 4 := hfits 4 (by decide) (by decide)
  exact ⟨hsplit, hfeeds, hcolumn, hstart, hthree, hfour, by decide,
    hordered hthree hfour (by decide)⟩

/-- **The column comes around at the end of a line of `2 ^ 32` characters**: it is not one more than
    the characters of the line, and the end has the line and the column of the start. -/
theorem positionAt_wraps_longLine :
    splitAtByte? 4294967296 (longLine 4294967296).toList =
      some (List.replicate 4294967296 'a', []) ∧
    LineCut (List.replicate 4294967296 'a') [] (List.replicate 4294967296 'a') ∧
    ((ofText (longLine 4294967296)).positionAt 4294967296).column.toNat ≠
      1 + (List.replicate 4294967296 'a').length ∧
    isBoundary 0 (longLine 4294967296).toList = true ∧
    isBoundary 4294967296 (longLine 4294967296).toList = true ∧
    ((ofText (longLine 4294967296)).positionAt 0).place =
      ((ofText (longLine 4294967296)).positionAt 4294967296).place := by
  have hsplit := splitAtByte?_longLine 4294967296
  have hstart : splitAtByte? 0 (longLine 4294967296).toList =
      some ([], (longLine 4294967296).toList) :=
    splitAtByte?_eq_some_iff.mpr ⟨(List.nil_append _).symm, width_nil⟩
  have hend : (ofText (longLine 4294967296)).positionAt 4294967296 = ⟨4294967296, 1, 1⟩ := by
    have haround : UInt32.ofNat 4294967296 + 1 = 1 := by decide
    rw [positionAt_longLine, haround]
  have hbegin : (ofText (longLine 4294967296)).positionAt 0 = ⟨0, 1, 1⟩ :=
    positionAt_width (splitAtByte?_eq_some_iff.mp hstart).1
  refine ⟨hsplit, lineCut_longLine _, ?_, ?_, ?_, ?_⟩
  · rw [hend, List.length_replicate]
    decide
  · rw [isBoundary, hstart, Option.isSome_some]
  · rw [isBoundary, hsplit, Option.isSome_some]
  · rw [hbegin, hend]
    rfl

end Document

end LayeredSyntax
