/-
  WIDTH — how many bytes of UTF-8 a run of characters takes, and cutting a run at a byte offset.

  Offsets in the library are byte offsets, while texts are read as lists of characters.  The two
  views meet here:

  1. `width` — the bytes of a run; it is additive over appending (`width_append`).
  2. `splitAtByte?` — the run before and the run from a byte offset on, or nothing when the offset
     lies inside a character or past the end.  **The crux** (`splitAtByte?_eq_some_iff`): a cut
     succeeds exactly at the widths of the prefixes, and then gives that prefix.
-/
namespace LayeredSyntax

/-! ## The width of a run -/

/-- Bytes that a run of characters takes in UTF-8. -/
def width (cs : List Char) : Nat := cs.foldl (fun n c => n + c.utf8Size) 0

theorem foldl_utf8Size (cs : List Char) (n : Nat) :
    cs.foldl (fun n c => n + c.utf8Size) n = n + width cs := by
  induction cs generalizing n with
  | nil => simp [width]
  | cons c cs ih =>
    have h1 := ih (n + c.utf8Size)
    have h2 := ih (0 + c.utf8Size)
    simp only [width, List.foldl_cons] at *
    omega

@[simp] theorem width_nil : width [] = 0 := rfl

@[simp] theorem width_cons (c : Char) (cs : List Char) :
    width (c :: cs) = c.utf8Size + width cs := by
  show (c :: cs).foldl (fun n c => n + c.utf8Size) 0 = _
  rw [List.foldl_cons, foldl_utf8Size, Nat.zero_add]

@[simp] theorem width_append (a b : List Char) : width (a ++ b) = width a + width b := by
  induction a with
  | nil => simp
  | cons c a ih => simp [ih]; omega

/-- A run that takes no bytes has no characters. -/
theorem width_eq_zero_iff {cs : List Char} : width cs = 0 ↔ cs = [] := by
  cases cs with
  | nil => simp
  | cons c cs =>
    have := c.utf8Size_pos
    simp; omega

/-! ## Cutting at a byte offset -/

/-- The cut of `splitAtByte?`, with the characters already passed in reverse. -/
def splitFrom? (before : List Char) (n : Nat) : List Char → Option (List Char × List Char)
  | [] => if n = 0 then some (before.reverse, []) else none
  | c :: cs =>
    if n = 0 then some (before.reverse, c :: cs)
    else if c.utf8Size ≤ n then splitFrom? (c :: before) (n - c.utf8Size) cs
    else none

/-- **Cut a run at a byte offset**: what stands before it and what follows, or nothing when the
    offset is not the boundary of a character of the run. -/
def splitAtByte? (n : Nat) (cs : List Char) : Option (List Char × List Char) :=
  splitFrom? [] n cs

theorem splitFrom?_eq_some_iff {before cs a b : List Char} {n : Nat} :
    splitFrom? before n cs = some (a, b) ↔
      ∃ p, a = before.reverse ++ p ∧ cs = p ++ b ∧ width p = n := by
  induction cs generalizing before n with
  | nil =>
    rw [splitFrom?]
    by_cases hn : n = 0
    · simp only [if_pos hn, Option.some.injEq, Prod.mk.injEq, List.nil_eq_append_iff]
      constructor
      · rintro ⟨rfl, rfl⟩
        exact ⟨[], by simp, ⟨rfl, rfl⟩, hn.symm⟩
      · rintro ⟨p, rfl, ⟨rfl, rfl⟩, _⟩
        simp
    · simp only [if_neg hn, List.nil_eq_append_iff]
      constructor
      · intro h; cases h
      · rintro ⟨p, _, ⟨rfl, _⟩, h⟩; exact absurd h.symm hn
  | cons c cs ih =>
    have hc := c.utf8Size_pos
    rw [splitFrom?]
    by_cases hn : n = 0
    · simp only [if_pos hn, Option.some.injEq, Prod.mk.injEq]
      constructor
      · rintro ⟨rfl, rfl⟩
        exact ⟨[], by simp, by simp, hn.symm⟩
      · rintro ⟨p, rfl, hp, h⟩
        rw [hn, width_eq_zero_iff] at h
        subst h
        simpa using hp
    · rw [if_neg hn]
      by_cases hle : c.utf8Size ≤ n
      · rw [if_pos hle, ih]
        constructor
        · rintro ⟨p, rfl, rfl, h⟩
          exact ⟨c :: p, by simp, by simp, by simp; omega⟩
        · rintro ⟨p, rfl, hp, h⟩
          cases p with
          | nil => exact absurd h.symm hn
          | cons d p =>
            obtain ⟨rfl, rfl⟩ : c = d ∧ cs = p ++ b := by simpa using hp
            exact ⟨p, by simp, rfl, by simp at h; omega⟩
      · rw [if_neg hle]
        constructor
        · intro h; cases h
        · rintro ⟨p, _, hp, h⟩
          cases p with
          | nil => exact absurd h.symm hn
          | cons d p =>
            obtain ⟨rfl, rfl⟩ : c = d ∧ cs = p ++ b := by simpa using hp
            simp at h; omega

/-- A cut at `n` bytes succeeds exactly when a prefix of that width exists, and gives it. -/
theorem splitAtByte?_eq_some_iff {n : Nat} {cs a b : List Char} :
    splitAtByte? n cs = some (a, b) ↔ cs = a ++ b ∧ width a = n := by
  rw [splitAtByte?, splitFrom?_eq_some_iff]
  constructor
  · rintro ⟨p, rfl, rfl, h⟩
    exact ⟨by simp, by simpa using h⟩
  · rintro ⟨rfl, h⟩
    exact ⟨a, by simp, rfl, h⟩

/-- Cutting right after a prefix gives that prefix back. -/
@[simp] theorem splitAtByte?_width_append (a b : List Char) :
    splitAtByte? (width a) (a ++ b) = some (a, b) :=
  splitAtByte?_eq_some_iff.mpr ⟨rfl, rfl⟩

/-- Whether a byte offset is the boundary of a character of the run. -/
def isBoundary (n : Nat) (cs : List Char) : Bool := (splitAtByte? n cs).isSome

/-- The characters between two byte offsets; nothing when they do not mark off a part of the run. -/
def sliceBytes? (start stop : Nat) (cs : List Char) : Option (List Char) := do
  let (_, tail) ← splitAtByte? start cs
  if stop < start then none
  let (inner, _) ← splitAtByte? (stop - start) tail
  return inner

/-- The part of a text between two byte offsets, or the empty text when they do not mark off a
    part of it. -/
def sliceText (text : String) (start stop : Nat) : String :=
  match sliceBytes? start stop text.toList with
  | some inner => String.ofList inner
  | none => ""

/-! ## Running the program -/

example : splitAtByte? 2 ['é', 'a'] = some (['é'], ['a']) := by decide
example : splitAtByte? 1 ['é', 'a'] = none := by decide
example : sliceBytes? 2 3 ['é', 'a', 'b'] = some ['a'] := by decide

end LayeredSyntax
