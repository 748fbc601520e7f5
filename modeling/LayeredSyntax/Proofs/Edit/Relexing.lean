/-
  READING AGAIN — reading an edited text only where it changed gives what reading all of it gives.

  An edit that fits cuts both texts into three pieces, of which only the one in the middle differs
  (`Edit.Cuts`).  The tokens of the new text are found in three stretches:

  1. The old tokens that are kept stand in front of the edited line.  They end in front of the line
     feed that the line begins behind, and there the texts agree (`lexes_kept`).
  2. Behind them tokens are read, and put behind the kept ones, until an old token fits
     (`Rereading.Sound`).
  3. An old token fits when it was read from the same characters in the same mode.  It and all that
     follow are the tokens of the rest, moved by the growth of the text (`exists_moved`).

  **The crux**: `Lexes` says of each stretch that it leads from one place of the new text to the
  next, whether its tokens were read or taken over, so that the stretches can be put together.
-/
import Mathlib
import LayeredSyntax.Edit.Relex
import LayeredSyntax.Proofs.Source.Lines
import LayeredSyntax.Proofs.Token.Lexing
import LayeredSyntax.Proofs.Token.Streams

namespace LayeredSyntax

/-! ## Edits that fit -/

/-- **What an edit does to a text**: what stands in front of it and what stands behind it stays. -/
def Edit.Cuts (e : Edit) (old new : List Char) : Prop :=
  ∃ front replaced inserted back, old = front ++ (replaced ++ back) ∧
    new = front ++ (inserted ++ back) ∧ width front = e.start ∧
    width (front ++ replaced) = e.oldStop ∧ width (front ++ inserted) = e.newStop

theorem Edit.replace_spec {old new text : String} {start stop : Nat} {e : Edit}
    (h : Edit.replace old start stop text = some (e, new)) (hle : start ≤ stop)
    (hstop : stop ≤ old.utf8ByteSize) : ∃ front replaced back,
      old.toList = front ++ (replaced ++ back) ∧ new.toList = front ++ (text.toList ++ back) ∧
        width front = start ∧ width replaced = stop - start := by
  unfold Edit.replace at h
  rw [Nat.min_eq_left (Nat.le_trans hle hstop), Nat.min_eq_left hstop] at h
  dsimp only at h
  rw [Nat.max_eq_right hle] at h
  obtain ⟨⟨front, rest⟩, hfront, h⟩ := Option.bind_eq_some_iff.mp h
  obtain ⟨⟨replaced, back⟩, hreplaced, h⟩ := Option.bind_eq_some_iff.mp h
  obtain ⟨hold, hwidth⟩ := splitAtByte?_eq_some_iff.mp hfront
  obtain ⟨hrest, hsize⟩ := splitAtByte?_eq_some_iff.mp hreplaced
  refine ⟨front, replaced, back, hold.trans (congrArg (front ++ ·) hrest), ?_, hwidth, hsize⟩
  cases h
  rw [String.toList_append, String.toList_append, String.toList_ofList, String.toList_ofList,
    List.append_assoc]

theorem Edit.le_of_check {e : Edit} {old new : String} (h : e.check old new = .ok ()) :
    e.start ≤ e.oldStop ∧ e.start ≤ e.newStop ∧ e.oldStop ≤ old.utf8ByteSize ∧
      old.utf8ByteSize - (e.oldStop - e.start) + (e.newStop - e.start) = new.utf8ByteSize := by
  unfold Edit.check at h
  dsimp only at h
  split at h
  · cases h
  split at h
  · cases h
  split at h
  · cases h
  split at h
  · cases h
  next hsize => exact ⟨by omega, by omega, by omega, Decidable.not_not.mp hsize⟩

/-- An edit that passes its check, and whose new text is the old one with its range replaced, cuts
    both texts. -/
theorem Edit.cuts_of_check {e : Edit} {old new text : String} (hcheck : e.check old new = .ok ())
    (hreplace : (Edit.replace old e.start e.oldStop text).map (·.2) = some new) :
    e.Cuts old.toList new.toList := by
  obtain ⟨hstart, hnew, hstop, hsize⟩ := Edit.le_of_check hcheck
  obtain ⟨⟨e', _⟩, hsome, rfl⟩ := Option.map_eq_some_iff.mp hreplace
  obtain ⟨front, replaced, back, hold, hnew', hfront, hreplaced⟩ :=
    Edit.replace_spec hsome hstart hstop
  refine ⟨front, replaced, text.toList, back, hold, hnew', hfront, ?_, ?_⟩
  · rw [width_append]
    omega
  · rw [utf8ByteSize_eq_width, utf8ByteSize_eq_width, hold, hnew'] at hsize
    simp only [width_append] at hsize ⊢
    omega

/-! ## Taking tokens over -/

theorem walkTo_self {offset : Nat} {p : Position} (h : p.offset = offset) (cs : List Char) :
    walkTo offset p cs = (p, cs) := by
  cases cs with
  | nil => rfl
  | cons c cs => rw [walkTo, if_neg (by omega)]

/-- A stretch that begins where the walk stands. -/
theorem stretchFrom_eq (d : Document) {p : Position} {start stop : Nat} {text rest : List Char}
    (hstart : p.offset = start) (hstop : (p.after text).offset = stop) :
    stretchFrom d p (text ++ rest) start stop =
      ⟨String.ofList text, ⟨p, p.after text⟩, p.after text, rest⟩ := by
  have hwidth : stop - start = width text := by
    rw [← hstop, ← hstart, Position.after_offset]
    omega
  unfold stretchFrom
  rw [walkTo_self hstart]
  dsimp only
  rw [if_pos hstart, hwidth, splitAtByte?_width_append]

/-- What one token takes, and where reading stands behind it. -/
theorem Token.read?_behind [Limits] {p : Position} {m : Mode} {cs : List Char} {s : TokenStep}
    (h : Token.read? p m cs = some s) : ∃ kind text, cs = text ++ s.rest ∧
      s.token = ⟨kind, String.ofList text, ⟨p, p.after text⟩, m⟩ ∧
      Reader.behind s = ⟨p.after text, s.next, s.rest⟩ := by
  obtain ⟨kind, text, _, hcs, htoken⟩ := Token.read?_spec h
  refine ⟨kind, text, hcs, htoken, ?_⟩
  unfold Reader.behind
  rw [htoken]

/-- **Tokens that stand where they stood** are kept as they are. -/
theorem appendKept_of_cut (d : Document) (done : Array Token) {p : Position} {text : List Char}
    {ts : List Token} (h : Cut p text ts) (rest : List Char) :
    appendKept d done p (text ++ rest) ts = done ++ ts.toArray := by
  induction h generalizing done with
  | nil => exact Array.append_empty.symm
  | @cons p text more m kind ts _ _ ih =>
    have hstretch : stretchFrom d p (text ++ (more ++ rest)) p.offset (p.after text).offset =
        ⟨String.ofList text, ⟨p, p.after text⟩, p.after text, more ++ rest⟩ :=
      stretchFrom_eq d rfl rfl
    rw [List.append_assoc]
    show appendKept d (done.push ⟨kind, (stretchFrom d p _ p.offset (p.after text).offset).text,
      ⟨p, p.after text⟩, m⟩) (stretchFrom d p _ p.offset (p.after text).offset).place
      (stretchFrom d p _ p.offset (p.after text).offset).ahead ts = _
    rw [hstretch]
    dsimp only
    rw [ih, List.push_append_toArray]

theorem appendKept_of_lexes [Limits] (d : Document) (done : Array Token) {r r' : Reader}
    {ts : List Token}
    (h : Lexes r ts r') : appendKept d done r.place r.ahead ts = done ++ ts.toArray := by
  obtain ⟨text, htext, _, hcut⟩ := h.cut
  rw [htext]
  exact appendKept_of_cut d done hcut _

/-- The place in the new text of a place that moved with what stands behind the edit. -/
theorem Edit.toNew_eq {e : Edit} {old new : Nat} (hmoved : (new : Int) = old + e.growth)
    (hbehind : e.newStop ≤ new) : e.toNew old = new := by
  unfold Edit.growth at hmoved
  unfold Edit.toNew
  omega

/-- **Tokens that stand further on** are put where they stand now. -/
theorem appendMoved_of_cut (d : Document) (e : Edit) (done : Array Token) {p : Position}
    {text : List Char} {ts ts' : List Token} (h : Cut p text ts')
    (hmoved : List.Forall₂ (Token.MovedBy e.growth) ts ts') (hbehind : e.newStop ≤ p.offset)
    (rest : List Char) :
    appendMoved d e done p (text ++ rest) ts = done ++ ts'.toArray := by
  induction h generalizing done ts with
  | nil =>
    cases hmoved
    exact Array.append_empty.symm
  | @cons p text more m kind ts' _ _ ih =>
    obtain _ | @⟨t, _, ts, _, ht, hts⟩ := hmoved
    have hstop : e.newStop ≤ (p.after text).offset := by
      rw [Position.after_offset]
      exact Nat.le_add_right_of_le hbehind
    have hstretch : stretchFrom d p (text ++ (more ++ rest)) (e.toNew t.start) (e.toNew t.stop) =
        ⟨String.ofList text, ⟨p, p.after text⟩, p.after text, more ++ rest⟩ := by
      rw [Edit.toNew_eq ht.start hbehind, Edit.toNew_eq ht.stop hstop]
      exact stretchFrom_eq d rfl rfl
    have hsame : Token.mk t.kind (String.ofList text) ⟨p, p.after text⟩ t.mode =
        ⟨kind, String.ofList text, ⟨p, p.after text⟩, m⟩ := by
      rw [← ht.kind, ← ht.mode]
    rw [List.append_assoc, appendMoved, hstretch]
    dsimp only
    rw [hsame, ih _ hts hstop, List.push_append_toArray]

section

variable [Limits]

theorem appendMoved_of_lexes (d : Document) (e : Edit) (done : Array Token) {r r' : Reader}
    {ts ts' : List Token} (h : Lexes r ts' r')
    (hmoved : List.Forall₂ (Token.MovedBy e.growth) ts ts')
    (hbehind : e.newStop ≤ r.place.offset) :
    appendMoved d e done r.place r.ahead ts = done ++ ts'.toArray := by
  obtain ⟨text, htext, _, hcut⟩ := h.cut
  rw [htext]
  exact appendMoved_of_cut d e done hcut hmoved hbehind _

/-! ## The tokens that are kept -/

/-- **The tokens that are kept lead to the same place in both texts**: they end in front of the
    edited line. -/
theorem lexes_kept {m : Mode} {e : Edit} {old new : String} {before later : List Token}
    {r : Reader} (hcuts : e.Cuts old.toList new.toList)
    (hlexes : Lexes (.atStart m old.toList) (before ++ later) r)
    (hbefore : ∀ t ∈ before, t.stop < (Document.ofText old).lineStart e.start) :
    ∃ p mode cs cs', Lexes (.atStart m old.toList) before ⟨p, mode, cs⟩ ∧
      Lexes ⟨p, mode, cs⟩ later r ∧ Lexes (.atStart m new.toList) before ⟨p, mode, cs'⟩ := by
  obtain ⟨⟨p, mode, cs⟩, hold, hlater⟩ := hlexes.split
  cases before with
  | nil =>
    cases hold
    exact ⟨_, _, _, new.toList, .nil _, hlater, .nil _⟩
  | cons t ts =>
    obtain ⟨hanchor, hzero | ⟨u, v, hu, hstart⟩⟩ := Document.lineStart_begins old e.start
    · have := hbefore t List.mem_cons_self
      omega
    obtain ⟨front, replaced, inserted, back, hcut, hcut', hfront, _, _⟩ := hcuts
    -- The line feed in front of the edited line stands in front of the edit.
    obtain ⟨w, rfl⟩ : ∃ w, front = u ++ ['\n'] ++ w := by
      refine exists_append_of_width_le (b := v) (d := replaced ++ back) ?_ ?_
      · rw [← hcut, hu, List.append_assoc]
        rfl
      · have hfeed : width ['\n'] = 1 := rfl
        rw [width_append, hfeed]
        omega
    have halike : AlikeFor u.length old.toList new.toList := by
      rw [hu, hcut', List.append_assoc, List.append_assoc]
      exact .of_append u v _
    -- The kept tokens take characters in front of it.
    have hle : old.toList.length ≤ u.length + cs.length := by
      obtain ⟨taken, htaken, _, hwidth⟩ := hold.consumed_atStart
      have hbound : p.offset ≤ width u := hold.offset_le (Nat.zero_le _) fun t ht => by
        have := hbefore t ht
        omega
      obtain ⟨u', rfl⟩ := exists_append_of_width_le (htaken.symm.trans hu) (hwidth ▸ hbound)
      rw [htaken, List.length_append, List.length_append]
      omega
    obtain ⟨cs', hnew⟩ := hold.ofAlikeFor halike hle
    exact ⟨p, mode, cs, cs', hold, hlater, hnew⟩

/-! ## Reading on until an old token fits -/

/-- **What is true of reading on**: the tokens lead on from a place of the new text, either to its
    end or to a place behind the edit where an old token fits. -/
def Rereading.Sound (e : Edit) (first : Reader) (later : List Token) (r : Rereading) : Prop :=
  ∃ mode, Lexes first r.tokens.toList ⟨r.place, mode, r.ahead⟩ ∧
    match r.rest with
    | none => r.ahead = []
    | some rest => ∃ skipped t ts, later = skipped ++ rest ∧ rest = t :: ts ∧
        e.newStop ≤ r.place.offset ∧ t.start = e.toOld r.place.offset ∧ t.mode = mode

omit [Limits] in
/-- Old tokens that begin too early are left out of a suffix of the old tokens. -/
theorem exists_skipped {later old : List Token} (h : ∃ skipped, later = skipped ++ old)
    (behind : Prop) [Decidable behind] (start : Nat) : ∃ skipped,
      later = skipped ++ if behind then old.dropWhile (·.start < start) else old := by
  obtain ⟨skipped, rfl⟩ := h
  split
  · refine ⟨skipped ++ old.takeWhile (·.start < start), ?_⟩
    rw [List.append_assoc, List.takeWhile_append_dropWhile]
  · exact ⟨skipped, rfl⟩

/-- **Reading on puts tokens behind those that there are**, whatever these are. -/
theorem rereadFrom_read {e : Edit} {later : List Token} {tokens : Array Token} {reread : Nat}
    {old : List Token} {p : Position} {m : Mode} {cs : List Char} {r : Rereading}
    (h : rereadFrom e tokens reread old p m cs = some r)
    (hold : ∃ skipped, later = skipped ++ old) :
    ∃ read, r.tokens.toList = tokens.toList ++ read ∧
      Rereading.Sound e ⟨p, m, cs⟩ later { r with tokens := read.toArray } := by
  fun_induction rereadFrom e tokens reread old p m cs with
  | case1 tokens reread old p m cs hnone =>
    cases h
    exact ⟨[], (List.append_nil _).symm, m, .nil _, Token.eq_nil_of_read?_eq_none hnone⟩
  | case2 => cases h
  | case3 tokens reread old p m cs s hs hbound isBehind start rest fits hfits =>
    cases h
    obtain ⟨skipped, hskipped⟩ := exists_skipped hold isBehind start
    obtain ⟨_, _, _, htoken, _⟩ := Token.read?_behind hs
    have hplace : s.token.start = p.offset := by rw [htoken]; rfl
    obtain ⟨t, ht, hfit⟩ := (Option.any_eq_true _ _).mp hfits
    obtain ⟨ts, hts⟩ := List.head?_eq_some_iff.mp ht
    have hall : (isBehind ∧ t.start = start) ∧ t.mode = m := by simpa [fits] using hfit
    obtain ⟨⟨hbehind, hstart⟩, hmode⟩ := hall
    refine ⟨[], (List.append_nil _).symm, m, .nil _, skipped, t, ts, hskipped, hts, ?_, ?_, hmode⟩
    · rw [← hplace]
      exact hbehind
    · rw [← hplace]
      exact hstart
  | case4 tokens reread old p m cs s hs hbound isBehind start rest fits hfits _ ih =>
    obtain ⟨read, hread, mode, hlexes, hrest⟩ := ih h (exists_skipped hold isBehind start)
    refine ⟨s.token :: read, ?_, mode, .cons hs hlexes, hrest⟩
    rw [hread, Array.toList_push, List.append_assoc]
    rfl

/-- Reading on puts tokens behind those that there are, and keeps to what is true. -/
theorem rereadFrom_sound {e : Edit} {first : Reader} {later : List Token} {tokens : Array Token}
    {reread : Nat} {old : List Token} {p : Position} {m : Mode} {cs : List Char} {r : Rereading}
    (h : rereadFrom e tokens reread old p m cs = some r)
    (hlexes : Lexes first tokens.toList ⟨p, m, cs⟩) (hold : ∃ skipped, later = skipped ++ old) :
    r.Sound e first later ∧ ∃ read, r.tokens.toList = tokens.toList ++ read := by
  obtain ⟨read, hread, mode, hread', hrest⟩ := rereadFrom_read h hold
  exact ⟨⟨mode, by rw [hread]; exact hlexes.append hread', hrest⟩, read, hread⟩

end

/-! ## Where an old token fits -/

/-- Two cuts of a text at the same width are the same. -/
theorem append_inj_of_width {a b c d : List Char} (h : a ++ b = c ++ d)
    (hwidth : width a = width c) : a = c ∧ b = d := by
  obtain ⟨u, rfl⟩ := exists_append_of_width_le h (Nat.le_of_eq hwidth)
  rw [width_append] at hwidth
  obtain rfl : u = [] := width_eq_zero_iff.mp (by omega)
  rw [List.append_nil] at h ⊢
  exact ⟨rfl, List.append_cancel_left h⟩

/-- **Behind an edit both texts go on alike**: what is ahead at places that stand for one another is
    the same, and the places are as far apart as the text has grown. -/
theorem Edit.Cuts.ahead_eq {e : Edit} {old new a b cs ds : List Char} (h : e.Cuts old new)
    (hold : old = a ++ cs) (hnew : new = b ++ ds) (hbehind : e.newStop ≤ width b)
    (ha : width a = e.toOld (width b)) : cs = ds ∧ ((width b : Int) - width a = e.growth) := by
  obtain ⟨front, replaced, inserted, back, rfl, rfl, _, hreplaced, hinserted⟩ := h
  -- The place is behind what was inserted, and what lies between is the same in both texts.
  have hnew' : (front ++ inserted) ++ back = b ++ ds := (List.append_assoc ..).trans hnew
  obtain ⟨w, rfl⟩ := exists_append_of_width_le hnew' (by omega)
  obtain rfl : back = w ++ ds := by
    rw [List.append_assoc (front ++ inserted)] at hnew'
    exact List.append_cancel_left hnew'
  have hold' : (front ++ replaced ++ w) ++ ds = a ++ cs := by
    rw [← hold]
    simp only [List.append_assoc]
  rw [width_append] at hbehind ha
  have hwidth : width (front ++ replaced ++ w) = width a := by
    rw [width_append]
    unfold Edit.toOld at ha
    omega
  refine ⟨(append_inj_of_width hold' hwidth).2.symm, ?_⟩
  rw [width_append]
  unfold Edit.toOld at ha
  unfold Edit.growth
  omega

section

variable [Limits]

/-- **From an old token that fits on, the new tokens are the old ones, moved**: what is ahead is the
    same text there, and the mode is the same. -/
theorem exists_moved (front : List Token) {m mode : Mode} {e : Edit} {old new cs : List Char}
    {p : Position} {t : Token} {ts tokens : List Token} {r : Reader} (hcuts : e.Cuts old new)
    (hold : Lexes (.atStart m old) (front ++ t :: ts) r)
    (hnew : Lexes (.atStart m new) tokens ⟨p, mode, cs⟩) (hbehind : e.newStop ≤ p.offset)
    (hstart : t.start = e.toOld p.offset) (hmode : t.mode = mode) :
    ∃ ts' q, Lexes ⟨p, mode, cs⟩ ts' { r with place := q } ∧
      List.Forall₂ (Token.MovedBy e.growth) (t :: ts) ts' := by
  obtain ⟨⟨q, mode', cs'⟩, hfront, hrest⟩ := hold.split
  obtain ⟨hplace, hmode'⟩ := hrest.head
  obtain rfl : mode = mode' := hmode.symm.trans hmode'
  have hq : q.offset = e.toOld p.offset := by
    rw [← hstart]
    exact (congrArg Position.offset hplace).symm
  obtain ⟨a, ha, _, hwa⟩ := hfront.consumed_atStart
  obtain ⟨b, hb, _, hwb⟩ := hnew.consumed_atStart
  obtain ⟨rfl, hgrowth⟩ := hcuts.ahead_eq ha hb (hwb ▸ hbehind) (by rw [← hwa, ← hwb, hq])
  obtain ⟨ts', q', hts', hmoved⟩ := hrest.moved p
  refine ⟨ts', q', hts', ?_⟩
  rw [← hgrowth, ← hwa, ← hwb]
  exact hmoved

/-! ## The answer -/

/-- **Whether the window that an answer names is right**: the positions in front of it and behind it
    have the same tokens in both streams, those behind it moved by the growth of the text. -/
structure Relexed.Agrees (r : Relexed) (old : TokenStream) (e : Edit) : Prop where
  firstChanged_le : r.firstChanged ≤ r.oldResume ∧ r.firstChanged ≤ r.newResume
  resume_le : r.oldResume ≤ old.size ∧ r.newResume ≤ r.stream.size
  front : r.stream.significantTokens.take r.firstChanged =
    old.significantTokens.take r.firstChanged
  back : List.Forall₂ (Token.MovedBy e.growth) (old.significantTokens.drop r.oldResume)
    (r.stream.significantTokens.drop r.newResume)

/-- Reading the whole text again takes nothing over. -/
theorem agrees_rereadAll (d : Document) (m : Mode) (old : TokenStream) (e : Edit)
    (hold : old.Regular) : (rereadAll d m old.size).Agrees old e := by
  have hlength : (TokenStream.read m d).significantTokens.length = (TokenStream.read m d).size :=
    (TokenStream.regular_read m d).length_significantTokens
  refine ⟨⟨Nat.zero_le _, Nat.zero_le _⟩, ⟨Nat.le_refl _, Nat.le_refl _⟩, rfl, ?_⟩
  show List.Forall₂ _ (old.significantTokens.drop old.size)
    ((TokenStream.read m d).significantTokens.drop (TokenStream.read m d).size)
  rw [← hold.length_significantTokens, ← hlength, List.drop_length, List.drop_length]
  exact .nil

omit [Limits] in
theorem countSignificant_eq (ts : List Token) :
    countSignificant ts = (ts.filter fun t => !t.isTrivia).length :=
  List.countP_eq_length_filter

omit [Limits] in
/-- A stream of kept tokens, tokens that were read and tokens that were moved agrees with the old
    one. -/
theorem agrees_of_stretches {old : TokenStream} {d d' : Document} {e : Edit} {r : Relexed}
    {olds news : Array Token} {before skipped rest read moved : List Token}
    (hold : old = .ofTokens d olds) (hnew : r.stream = .ofTokens d' news)
    (holds : olds.toList = before ++ (skipped ++ rest))
    (hnews : news.toList = before ++ read ++ moved)
    (hmoved : List.Forall₂ (Token.MovedBy e.growth) rest moved)
    (hfirst : r.firstChanged = countSignificant before)
    (hresume : r.oldResume = old.size - countSignificant rest)
    (hresume' : r.newResume = countSignificant (before ++ read)) : r.Agrees old e := by
  let keep : List Token → List Token := List.filter fun t => !t.isTrivia
  have hkept : old.significantTokens = keep before ++ keep skipped ++ keep rest := by
    rw [hold, TokenStream.significantTokens_ofTokens, holds, List.filter_append, List.filter_append,
      List.append_assoc]
  have hkept' : r.stream.significantTokens = keep before ++ keep read ++ keep moved := by
    rw [hnew, TokenStream.significantTokens_ofTokens, hnews, List.filter_append, List.filter_append]
  have hsize : old.size = (keep before).length + (keep skipped).length + (keep rest).length := by
    rw [← List.length_append, ← List.length_append, ← hkept, hold]
    exact (TokenStream.regular_ofTokens d olds).length_significantTokens.symm
  have hsize' : r.stream.size =
      (keep before).length + (keep read).length + (keep moved).length := by
    rw [← List.length_append, ← List.length_append, ← hkept', hnew]
    exact (TokenStream.regular_ofTokens d' news).length_significantTokens.symm
  have hfirst' : r.firstChanged = (keep before).length := hfirst.trans (countSignificant_eq _)
  have hold' : r.oldResume = (keep before ++ keep skipped).length := by
    rw [hresume, countSignificant_eq, hsize, List.length_append]
    exact Nat.add_sub_cancel ..
  have hnew' : r.newResume = (keep before ++ keep read).length := by
    rw [hresume', countSignificant_eq, List.filter_append]
  refine ⟨?_, ?_, ?_, ?_⟩
  · rw [hfirst', hold', hnew', List.length_append, List.length_append]
    exact ⟨Nat.le_add_right _ _, Nat.le_add_right _ _⟩
  · rw [hold', hnew', hsize, hsize', List.length_append, List.length_append]
    exact ⟨Nat.le_add_right _ _, Nat.le_add_right _ _⟩
  · rw [hkept, hkept', hfirst', List.append_assoc, List.append_assoc, List.take_left,
      List.take_left]
  · rw [hkept, hkept', hold', hnew', List.drop_left, List.drop_left]
    -- A moved token is trivia when the old one is.
    refine List.rel_filter (fun t t' ht => ?_) hmoved
    show (!t.kind.isTrivia) = true ↔ (!t'.kind.isTrivia) = true
    rw [ht.kind]

/-! ## Where reading is taken up -/

section TakingUp

variable {old : TokenStream} {e : Edit}

theorem keptBefore_le (old : TokenStream) (e : Edit) : keptBefore old e ≤
    (old.tokens.toList.takeWhile (·.stop < old.document.lineStart e.start)).length :=
  Nat.sub_le _ _

/-- The tokens that are kept end in front of the edited line. -/
theorem stop_lt_of_mem_kept (old : TokenStream) {t : Token}
    (h : t ∈ old.tokens.toList.take (keptBefore old e)) :
    t.stop < old.document.lineStart e.start := by
  let early := fun t : Token => decide (t.stop < old.document.lineStart e.start)
  have hmem : t ∈ old.tokens.toList.takeWhile early := by
    rw [← List.takeWhile_append_dropWhile (p := early) (l := old.tokens.toList),
      List.take_append_of_le_length (keptBefore_le old e)] at h
    exact List.mem_of_mem_take h
  exact of_decide_eq_true (List.all_eq_true.mp List.all_takeWhile t hmem)

/-- A token that reaches the edited line is not kept. -/
theorem keptBefore_lt {t : Token} (h : t ∈ old.tokens.toList)
    (hreach : old.document.lineStart e.start ≤ t.stop) :
    keptBefore old e < old.tokens.toList.length := by
  refine Nat.lt_of_le_of_lt (keptBefore_le old e) (Nat.lt_of_not_le fun hall => ?_)
  have hwhole := (List.takeWhile_sublist _).eq_of_length_le hall
  have hearly := of_decide_eq_true (List.all_eq_true.mp List.all_takeWhile t (hwhole.symm ▸ h))
  omega

/-- Only when there are no tokens at all none are left, as the last one reaches the edited line. -/
theorem tokens_eq_nil_of_drop {source : String}
    (hcut : Cut .origin source.toList old.tokens.toList) (hdocument : old.document = .ofText source)
    (hstart : e.start ≤ source.utf8ByteSize)
    (h : old.tokens.toList.drop (keptBefore old e) = []) : old.tokens.toList = [] := by
  by_contra hne
  obtain ⟨t, ht⟩ := Option.ne_none_iff_exists'.mp (mt List.getLast?_eq_none_iff.mp hne)
  have hstop := hcut.stop_of_getLast? ht
  have hreach : old.document.lineStart e.start ≤ t.stop := by
    rw [hdocument, hstop, Position.origin_after_offset, ← utf8ByteSize_eq_width]
    exact Nat.le_trans (Document.lineStart_begins source e.start).1 hstart
  have := keptBefore_lt (List.mem_of_getLast? ht) hreach
  rw [List.drop_eq_nil_iff] at h
  omega

/-- Reading is taken up where the kept tokens end. -/
theorem takeUp_eq {m mode : Mode} {p : Position} {cs text : List Char} {r : Reader}
    {source : String} (hcut : Cut .origin source.toList old.tokens.toList)
    (hdocument : old.document = .ofText source) (hstart : e.start ≤ source.utf8ByteSize)
    (hkept : Lexes (.atStart m text) (old.tokens.toList.take (keptBefore old e)) ⟨p, mode, cs⟩)
    (hlater : Lexes ⟨p, mode, cs⟩ (old.tokens.toList.drop (keptBefore old e)) r) :
    takeUp m (old.tokens.toList.drop (keptBefore old e)) = (p.offset, mode) := by
  cases hdrop : old.tokens.toList.drop (keptBefore old e) with
  | nil =>
    rw [tokens_eq_nil_of_drop hcut hdocument hstart hdrop, List.take_nil] at hkept
    cases hkept
    rfl
  | cons t ts =>
    rw [hdrop] at hlater
    obtain ⟨hplace, hmode⟩ := hlater.head
    show (t.span.start.offset, t.mode) = (p.offset, mode)
    rw [hplace, hmode]

/-- **What reading again comes to**, where the kept tokens take the front of the new text and reading
    is taken up behind it: the whole text is read, or reading goes on to the end, or it goes on to
    old tokens that fit again and are taken over. -/
theorem relex_cases {m mode : Mode} {new : String} {before later : List Token}
    {front ahead : List Char} (hbefore : old.tokens.toList.take (keptBefore old e) = before)
    (hlater : old.tokens.toList.drop (keptBefore old e) = later)
    (hkept : appendKept (.ofText new) #[] .origin new.toList before = before.toArray)
    (hnew : new.toList = front ++ ahead) (htakeUp : takeUp m later = (width front, mode)) :
    let d := Document.ofText new
    let answer := fun (news : Array Token) (reread oldResume newResume : Nat) =>
      if Limits.tokens ≤ news.size + 1 then rereadAll d m old.size
      else Relexed.mk (.ofTokens d news) reread (countSignificant before) oldResume newResume
        [(TokenStream.ofTokens d news).event]
    relex old e new m = rereadAll d m old.size ∨
      ∃ r, rereadFrom e before.toArray 0 later (Position.origin.after front) mode ahead = some r ∧
        ((r.rest = none ∧ relex old e new m =
            answer r.tokens r.reread old.size (countSignificant r.tokens.toList)) ∨
          ∃ rest, r.rest = some rest ∧ relex old e new m =
            answer (appendMoved d e r.tokens r.place r.ahead rest) r.reread
              (old.size - countSignificant rest) (countSignificant r.tokens.toList)) := by
  intro d answer
  have hextract : (old.tokens.extract 0 (keptBefore old e)).toList = before := by
    rw [Array.toList_extract, List.extract_eq_take_drop]
    exact hbefore
  have hahead : splitAtByte? (width front) new.toList = some (front, ahead) :=
    splitAtByte?_eq_some_iff.mpr ⟨hnew, rfl⟩
  unfold relex
  dsimp only
  rw [hextract, hlater, htakeUp]
  dsimp only
  rw [hkept, hahead, Document.positionAt_width hnew]
  dsimp only [Option.map_some, Option.getD_some]
  cases rereadFrom e before.toArray 0 later (Position.origin.after front) mode ahead with
  | none => exact .inl rfl
  | some r =>
    refine .inr ⟨r, rfl, ?_⟩
    dsimp only
    cases r.rest with
    | none => exact .inl ⟨rfl, rfl⟩
    | some rest => exact .inr ⟨rest, rfl, rfl⟩

end TakingUp

/-! ## Reading again -/

/-- Stretches that lead to the end of the new text are its tokens, unless there are too many. -/
theorem right_of_stretches {m : Mode} {e : Edit} {old new : String} {olds news : Array Token}
    {before skipped rest read moved : List Token} {last : Reader}
    (holds : olds.toList = before ++ (skipped ++ rest))
    (hnews : news.toList = before ++ read ++ moved)
    (hlexes : Lexes (.atStart m new.toList) news.toList last) (hend : last.ahead = [])
    (hmoved : List.Forall₂ (Token.MovedBy e.growth) rest moved) (reread : Nat)
    (events : List Event) :
    let previous := TokenStream.ofTokens (.ofText old) olds
    let answer := if Limits.tokens ≤ news.size + 1 then rereadAll (.ofText new) m previous.size
      else ⟨.ofTokens (.ofText new) news, reread, countSignificant before,
        previous.size - countSignificant rest, countSignificant (before ++ read), events⟩
    answer.stream = .read m (.ofText new) ∧ answer.Agrees previous e := by
  intro previous answer
  have hregular : previous.Regular := TokenStream.regular_ofTokens _ _
  by_cases hmany : Limits.tokens ≤ news.size + 1
  · have hanswer : answer = rereadAll (.ofText new) m previous.size := if_pos hmany
    rw [hanswer]
    exact ⟨rfl, agrees_rereadAll _ _ _ _ hregular⟩
  · have hanswer : answer = ⟨.ofTokens (.ofText new) news, reread, countSignificant before,
        previous.size - countSignificant rest, countSignificant (before ++ read), events⟩ :=
      if_neg hmany
    have htokens : tokenize m new = news := (tokenize_eq_iff (by omega)).mpr ⟨last, hlexes, hend⟩
    rw [hanswer]
    refine ⟨?_, agrees_of_stretches rfl rfl holds hnews hmoved rfl rfl rfl⟩
    show TokenStream.ofTokens _ news = .ofTokens _ (tokenize m new)
    rw [htokens]

/-- **Reading an edited text again gives what reading all of it gives**, and the window that the
    answer names is right. -/
theorem relex_read {m : Mode} {e : Edit} {old new text : String}
    (hcheck : e.check old new = .ok ())
    (hreplace : (Edit.replace old e.start e.oldStop text).map (·.2) = some new)
    (hsize : (tokenize m old).size < Limits.tokens) :
    let previous := TokenStream.read m (.ofText old)
    let answer := relex previous e new m
    answer.stream = TokenStream.read m (.ofText new) ∧ answer.Agrees previous e := by
  intro previous answer
  have hcuts := Edit.cuts_of_check hcheck hreplace
  have hstart : e.start ≤ old.utf8ByteSize := by
    obtain ⟨hle, -, hstop, -⟩ := Edit.le_of_check hcheck
    exact Nat.le_trans hle hstop
  obtain ⟨last, hlexes, hend⟩ := (tokenize_eq_iff hsize).mp rfl
  let before := (tokenize m old).toList.take (keptBefore previous e)
  let later := (tokenize m old).toList.drop (keptBefore previous e)
  have holds : (tokenize m old).toList = before ++ later := (List.take_append_drop _ _).symm
  rw [holds] at hlexes
  obtain ⟨p, mode, cs, cs', hold, hlater, hnew⟩ :=
    lexes_kept hcuts hlexes fun t ht => stop_lt_of_mem_kept previous ht
  obtain ⟨front, hfront, rfl, hwidth⟩ := hnew.consumed_atStart
  have htakeUp : takeUp m later = (width front, mode) := 
    hwidth ▸ takeUp_eq (cut_tokenize m old) rfl hstart hold hlater
  have hkept : appendKept (.ofText new) #[] .origin new.toList before = before.toArray :=
    (appendKept_of_lexes (.ofText new) #[] hnew).trans Array.empty_append
  have hbefore : previous.tokens.toList.take (keptBefore previous e) = before := rfl
  rcases relex_cases hbefore (show _ = later from rfl) hkept hfront htakeUp with
    hall | ⟨r, hr, ⟨hrest, hanswer⟩ | ⟨rest, hrest, hanswer⟩⟩
  · rw [show answer = _ from hall]
    exact ⟨rfl, agrees_rereadAll _ _ _ _ (TokenStream.regular_read m _)⟩
  · obtain ⟨⟨mode', hread, hfits⟩, read, hnews⟩ := rereadFrom_sound hr hnew ⟨[], rfl⟩
    rw [hrest] at hfits
    have holds' : (tokenize m old).toList = before ++ (later ++ []) := by
      rw [List.append_nil, ← holds]
    have hnews' : r.tokens.toList = before ++ read ++ [] := by rw [List.append_nil, hnews]
    rw [show answer = _ from hanswer, hnews]
    exact right_of_stretches holds' hnews' hread hfits .nil _ _
  · obtain ⟨⟨mode', hread, hfits⟩, read, hnews⟩ := rereadFrom_sound hr hnew ⟨[], rfl⟩
    rw [hrest] at hfits
    obtain ⟨skipped, t, ts, hlater', rfl, hbehind, hstart, hmode⟩ := hfits
    have holds' : (tokenize m old).toList = before ++ (skipped ++ t :: ts) := by
      rw [holds, ← hlater']
      rfl
    have hold' : Lexes (.atStart m old.toList) (before ++ skipped ++ t :: ts) last := by
      rw [List.append_assoc, ← hlater']
      exact hlexes
    obtain ⟨moved, q, hmoved, hsame⟩ := exists_moved (before ++ skipped) hcuts hold' hread
      hbehind hstart hmode
    have hall : (appendMoved (.ofText new) e r.tokens r.place r.ahead (t :: ts)).toList =
        r.tokens.toList ++ moved := by
      rw [show appendMoved _ e r.tokens r.place r.ahead (t :: ts) = r.tokens ++ moved.toArray from
        appendMoved_of_lexes _ e r.tokens hmoved hsame hbehind, Array.toList_append]
    have hnews' := hall.trans (congrArg (· ++ moved) hnews)
    have hwhole := hread.append hmoved
    rw [← hall] at hwhole
    rw [show answer = _ from hanswer, hnews]
    exact right_of_stretches holds' hnews' hwhole hend hsame _ _

end

/-- A number in the second of three lines becomes a string literal that is longer; one position in
    front of it and three behind it are taken over. -/
theorem relex_read_secondLine :
    let old := " w 1\n w 2\n q\n"
    let new := " w 1\n w \"é\"\n q\n"
    let e : Edit := ⟨8, 9, 12⟩
    let previous := TokenStream.read .core (.ofText old)
    let answer := relex previous e new .core
    e.check old new = .ok () ∧ (Edit.replace old e.start e.oldStop "\"é\"").map (·.2) = some new ∧
      (tokenize .core old).size < Limits.tokens ∧
      (answer.firstChanged, answer.oldResume) = (1, 5) ∧
      answer.stream = TokenStream.read .core (.ofText new) ∧ answer.Agrees previous e := by
  have hcheck : (Edit.mk 8 9 12).check " w 1\n w 2\n q\n" " w 1\n w \"é\"\n q\n" = .ok () := by
    rfl
  have hreplace : (Edit.replace " w 1\n w 2\n q\n" 8 9 "\"é\"").map (·.2) =
      some " w 1\n w \"é\"\n q\n" := by decide +kernel
  have hsize : (tokenize .core " w 1\n w 2\n q\n").size < Limits.tokens := by decide +kernel
  intro old new e previous answer
  have hwindow : (answer.firstChanged, answer.oldResume) = (1, 5) := by
    unfold answer previous e old new relex
    simp only [Document.ofText_eq]
    cbv
  exact ⟨hcheck, hreplace, hsize, hwindow, relex_read hcheck hreplace hsize⟩

end LayeredSyntax
