/-
  LOCAL READING — which part of a text has a say in a token.

  A token is read at a byte of a text, in a mode.  What is read is its kind, the byte behind it and
  the mode for what follows (`Scanned`).

  1. **Nothing in front of the token has a part in it** (`scanned?_width`): reading takes the
     characters ahead, and the bytes passed only move the end.
  2. **Nothing behind the end of its line has one**, as long as the token ends there.  A token that
     goes on past a line feed takes the line feed along, so its bytes tell which of the two it is
     (`length_le_of_width_take`).

  Together they say what reading an edited text again may take over: the mode and the rest of the
  line are all that a token depends on (`scanned?_local`).
-/
import LayeredSyntax.Proofs.Token.Resuming

namespace LayeredSyntax

/-- What is read at a byte of a text. -/
structure Scanned where
  kind : TokenKind
  /-- The byte behind the token. -/
  stop : Nat
  /-- The mode for what follows. -/
  next : Mode
deriving DecidableEq

/-- The same token, read some bytes further on. -/
def Scanned.shift (s : Scanned) (bytes : Nat) : Scanned := { s with stop := bytes + s.stop }

section

variable [Limits]

/-- **Read one token at a byte of a text.** -/
def scanned? (text : String) (start : Nat) (m : Mode) : Option Scanned := do
  let r ← scanAt? text start m
  let stop ← r.stopFrom? text start
  return ⟨r.kind, stop, r.next⟩

/-- Reading takes the characters ahead; those passed only count for the end. -/
theorem scanned?_width {text : String} {before ahead : List Char}
    (htext : text.toList = before ++ ahead) (m : Mode) :
    scanned? text (width before) m = (scan? m ahead).map fun r =>
      ⟨r.kind, width before + width (ahead.take r.length), r.next⟩ := by
  have hcut : splitAtByte? (width before) text.toList = some (before, ahead) := by
    rw [htext, splitAtByte?_width_append]
  have hscan : scanAt? text (width before) m = scan? m ahead := by
    unfold scanAt?
    rw [hcut]
    rfl
  unfold scanned?
  rw [hscan]
  cases hr : scan? m ahead with
  | none => rfl
  | some r =>
    have hstop : r.stopFrom? text (width before) =
        some (width before + width (ahead.take r.length)) := by
      unfold Reading.stopFrom?
      rw [hcut, Option.bind_some, if_pos (scan?_within hr).length_le]
    show (r.stopFrom? text (width before)).bind _ = _
    rw [hstop]
    rfl

/-- From the start of a text nothing has been passed. -/
theorem scanned?_zero (text : String) (m : Mode) : scanned? text 0 m =
    (scan? m text.toList).map fun r => ⟨r.kind, width (text.toList.take r.length), r.next⟩ := by
  have h := scanned?_width (List.nil_append text.toList).symm m
  simpa only [width_nil, Nat.zero_add] using h

omit [Limits] in
/-- What ends in front of a character by its bytes does so by its characters. -/
theorem length_le_of_width_take {before ahead : List Char} {c : Char} {n : Nat}
    (h : width ((before ++ c :: ahead).take n) ≤ width before) : n ≤ before.length := by
  by_contra hlt
  -- Past the end of `before` the character is counted too.
  obtain ⟨k, rfl⟩ := Nat.exists_eq_add_of_lt (Nat.lt_of_not_le hlt)
  have htake : (before ++ c :: ahead).take (before.length + k + 1) = before ++ c :: ahead.take k := by
    rw [Nat.add_assoc, List.take_length_add_append, List.take_succ_cons]
  rw [htake, width_append, width_cons] at h
  have := c.utf8Size_pos
  omega

/-- **Reading is local in both directions**, in every mode.  What stands in front of a token only
    moves its end; and what stands behind a line feed has no part in a token that ends in front of
    it. -/
theorem scanned?_local (m : Mode) :
    (∀ u v : String, v ≠ "" → ∃ s, scanned? v 0 m = some s ∧
      scanned? (u ++ v) u.utf8ByteSize m = some (s.shift u.utf8ByteSize)) ∧
    ∀ (w x y : String) (s : Scanned), scanned? (w ++ "\n" ++ x) 0 m = some s →
      s.stop ≤ w.utf8ByteSize → scanned? (w ++ "\n" ++ y) 0 m = some s := by
  constructor
  · intro u v hv
    obtain ⟨r, hr⟩ : ∃ r, scan? m v.toList = some r := by
      cases hcs : v.toList with
      | nil => exact absurd (String.toList_eq_nil_iff.mp hcs) hv
      | cons c cs => exact ⟨_, rfl⟩
    refine ⟨⟨r.kind, width (v.toList.take r.length), r.next⟩, ?_, ?_⟩
    · rw [scanned?_zero, hr]
      rfl
    · rw [utf8ByteSize_eq_width, scanned?_width String.toList_append, hr]
      rfl
  · intro w x y s hs hstop
    have hlist : ∀ z : String, (w ++ "\n" ++ z).toList = w.toList ++ '\n' :: z.toList := by
      intro z
      rw [String.toList_append, String.toList_append, List.append_assoc]
      rfl
    rw [scanned?_zero, hlist] at hs
    rw [scanned?_zero, hlist]
    obtain ⟨r, hr, rfl⟩ := Option.map_eq_some_iff.mp hs
    rw [utf8ByteSize_eq_width] at hstop
    have hle : r.length ≤ w.toList.length := length_le_of_width_take hstop
    have halike := AlikeFor.of_append w.toList x.toList y.toList
    rw [scan?_of_alikeFor halike hr hle, Option.map_some, halike.take hle]

end

/-- A block comment ends at its first closer: neither a line in front of it nor a second closer on
    the next line changes that. -/
theorem scanned?_local_comment :
    let comment : Scanned := ⟨.blockComment, 8, .core⟩
    "/* é */" ≠ "" ∧ (∃ s, scanned? "/* é */" 0 .core = some s ∧
      scanned? ("é\n" ++ "/* é */") "é\n".utf8ByteSize .core =
        some (s.shift "é\n".utf8ByteSize)) ∧
    scanned? ("/* é */" ++ "\n" ++ "*/") 0 .core = some comment ∧
    comment.stop ≤ "/* é */".utf8ByteSize ∧
    scanned? ("/* é */" ++ "\n" ++ "x") 0 .core = some comment := by
  intro comment
  have hne : "/* é */" ≠ "" := by decide
  have hread : scanned? ("/* é */" ++ "\n" ++ "*/") 0 .core = some comment := by decide +kernel
  have hstop : comment.stop ≤ "/* é */".utf8ByteSize := by decide
  obtain ⟨hbefore, hbehind⟩ := scanned?_local .core
  exact ⟨hne, hbefore _ _ hne, hread, hstop, hbehind _ _ "x" _ hread hstop⟩

end LayeredSyntax
