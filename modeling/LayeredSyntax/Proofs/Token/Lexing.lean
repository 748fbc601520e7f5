/-
  READING FROM PLACE TO PLACE — the tokens between two places of a text.

  `Reader` is where reading stands: the place, the mode there and the characters ahead.  `Lexes`
  relates two readers by the tokens that lead from the one to the other.  What leads from the start
  of a text to its end is what `tokenize` answers, unless there are too many tokens
  (`tokenize_eq_iff`).

  Two things make it possible to take tokens over from one text to another.

  1. **Nothing behind a line feed has a part in the tokens in front of it** (`Lexes.ofAlikeFor`):
     tokens that end in front of it are read from every text that agrees up to it.
  2. **A token does not know its place** (`Lexes.moved`): what is read from the same characters in
     the same mode elsewhere are the same tokens, moved.
-/
import Mathlib.Data.List.Forall2
import LayeredSyntax.Proofs.Lexicon.Steps
import LayeredSyntax.Proofs.Token.Tiling

namespace LayeredSyntax

/-- Where reading stands. -/
structure Reader where
  place : Position
  /-- The mode for the next token. -/
  mode : Mode
  /-- The characters ahead. -/
  ahead : List Char

namespace Reader

/-- Where the reading of a text begins. -/
def atStart (m : Mode) (text : List Char) : Reader := ⟨.origin, m, text⟩

/-- Where reading stands behind a token. -/
def behind (s : TokenStep) : Reader := ⟨s.token.span.stop, s.next, s.rest⟩

end Reader

section

variable [Limits]

/-- **The tokens that lead from one place to another one.** -/
inductive Lexes : Reader → List Token → Reader → Prop where
  | nil (r : Reader) : Lexes r [] r
  | cons {p : Position} {m : Mode} {cs : List Char} {s : TokenStep} {tokens : List Token}
      {r : Reader} (hs : Token.read? p m cs = some s) (h : Lexes (.behind s) tokens r) :
      Lexes ⟨p, m, cs⟩ (s.token :: tokens) r

namespace Lexes

variable {r r' r'' : Reader} {ts us : List Token}

/-! ## Taking readings apart and putting them together -/

theorem append (h : Lexes r ts r') (h' : Lexes r' us r'') : Lexes r (ts ++ us) r'' := by
  induction h with
  | nil => exact h'
  | cons hs _ ih => exact .cons hs (ih h')

theorem split (h : Lexes r (ts ++ us) r'') : ∃ r', Lexes r ts r' ∧ Lexes r' us r'' := by
  induction ts generalizing r with
  | nil => exact ⟨r, .nil r, h⟩
  | cons t ts ih =>
    cases h with
    | cons hs h =>
      obtain ⟨r', hts, hus⟩ := ih h
      exact ⟨r', .cons hs hts, hus⟩

/-- **What is read cuts the characters that it takes.** -/
theorem cut (h : Lexes r ts r') : ∃ text, r.ahead = text ++ r'.ahead ∧
    r'.place = r.place.after text ∧ Cut r.place text ts := by
  induction h with
  | nil r => exact ⟨[], rfl, rfl, .nil _⟩
  | @cons p m cs s tokens r hs _ ih =>
    obtain ⟨kind, text, hne, rfl, htoken⟩ := Token.read?_spec hs
    obtain ⟨rest, hrest, hplace, hcut⟩ := ih
    have hstop : (Reader.behind s).place = p.after text := by
      show s.token.span.stop = _
      rw [htoken]
    rw [hstop] at hplace hcut
    refine ⟨text ++ rest, ?_, ?_, ?_⟩
    · rw [List.append_assoc, ← hrest]
      rfl
    · rw [hplace, Position.after_append]
    · rw [htoken]
      exact .cons hne hcut

/-- The characters that some tokens take. -/
theorem consumed (h : Lexes r ts r') :
    ∃ text, r.ahead = text ++ r'.ahead ∧ r'.place = r.place.after text := by
  obtain ⟨text, htext, hplace, _⟩ := h.cut
  exact ⟨text, htext, hplace⟩

/-- The characters that were taken since the start of a text. -/
theorem consumed_atStart {m mode : Mode} {p : Position} {text ahead : List Char}
    (h : Lexes (.atStart m text) ts ⟨p, mode, ahead⟩) :
    ∃ taken, text = taken ++ ahead ∧ p = Position.origin.after taken ∧ p.offset = width taken := by
  obtain ⟨taken, htext, hplace⟩ := h.consumed
  have hp : p = Position.origin.after taken := hplace
  refine ⟨taken, htext, hp, ?_⟩
  rw [hp, Position.after_offset]
  exact Nat.zero_add _

/-- The first token stands where reading stands, and has its mode. -/
theorem head {t : Token} (h : Lexes r (t :: ts) r') :
    t.span.start = r.place ∧ t.mode = r.mode := by
  cases h with
  | cons hs _ =>
    obtain ⟨_, _, _, _, htoken⟩ := Token.read?_spec hs
    rw [htoken]
    exact ⟨rfl, rfl⟩

/-- Reading does not go on past a bound that no token goes past. -/
theorem offset_le (h : Lexes r ts r') {bound : Nat} (hplace : r.place.offset ≤ bound)
    (hts : ∀ t ∈ ts, t.stop ≤ bound) : r'.place.offset ≤ bound := by
  induction h with
  | nil => exact hplace
  | @cons p m cs s tokens r hs _ ih =>
    exact ih (hts s.token List.mem_cons_self) fun t ht => hts t (List.mem_cons_of_mem _ ht)

end Lexes

/-! ## Whole texts -/

/-- The token that takes what is left where reading was broken off. -/
def Reader.leftOver (r : Reader) : List Token :=
  if r.ahead = [] then [] else [overflowToken r.place r.mode r.ahead]

/-- **From every place the end is reached**, or the bound on the number of tokens is. -/
theorem tokenizeFrom_spec (done : Array Token) (p : Position) (m : Mode) (cs : List Char) :
    ∃ ts r, Lexes ⟨p, m, cs⟩ ts r ∧
      (tokenizeFrom done p m cs).toList = done.toList ++ (ts ++ r.leftOver) ∧
      (r.ahead = [] ∨ Limits.tokens ≤ done.size + ts.length + 1) := by
  fun_induction tokenizeFrom done p m cs with
  | case1 done p m cs hbound =>
    refine ⟨[], _, .nil _, ?_, .inr hbound.1⟩
    rw [Array.toList_push, Reader.leftOver, if_neg hbound.2]
    rfl
  | case2 done p m cs hbound hnone =>
    obtain rfl := Token.eq_nil_of_read?_eq_none hnone
    exact ⟨[], _, .nil _, (List.append_nil _).symm, .inl rfl⟩
  | case3 done p m cs hbound s hs _ ih =>
    obtain ⟨ts, r, hts, heq, hend⟩ := ih
    refine ⟨s.token :: ts, r, .cons hs hts, ?_, ?_⟩
    · rw [heq, Array.toList_push, List.append_assoc]
      rfl
    · rw [Array.size_push] at hend
      rw [List.length_cons]
      exact hend.imp_right fun h => by omega

/-- Below the bound the end is reached. -/
theorem lexes_tokenizeFrom {done : Array Token} {p : Position} {m : Mode} {cs : List Char}
    (h : (tokenizeFrom done p m cs).size < Limits.tokens) : ∃ ts r, Lexes ⟨p, m, cs⟩ ts r ∧
      r.ahead = [] ∧ (tokenizeFrom done p m cs).toList = done.toList ++ ts := by
  obtain ⟨ts, r, hts, heq, hend⟩ := tokenizeFrom_spec done p m cs
  have hnil : r.ahead = [] := by
    by_contra hne
    have hsize := congrArg List.length heq
    rw [Reader.leftOver, if_neg hne, List.length_append, List.length_append, List.length_singleton,
      Array.length_toList, Array.length_toList] at hsize
    have := hend.resolve_left hne
    omega
  refine ⟨ts, r, hts, hnil, ?_⟩
  rw [heq, Reader.leftOver, if_pos hnil, List.append_nil]

theorem tokenizeFrom_of_lexes (done : Array Token) {r r' : Reader} {ts : List Token}
    (h : Lexes r ts r') (hend : r'.ahead = []) (hsize : done.size + ts.length < Limits.tokens) :
    (tokenizeFrom done r.place r.mode r.ahead).toList = done.toList ++ ts := by
  induction h generalizing done with
  | nil r =>
    rw [tokenizeFrom, if_neg fun h => h.2 hend]
    split
    · exact (List.append_nil _).symm
    · next s hs =>
      rw [hend] at hs
      cases hs
  | @cons p m cs s ts r hs _ ih =>
    rw [List.length_cons] at hsize
    rw [tokenizeFrom, if_neg fun h => by omega]
    split
    · next hnone => cases hs.symm.trans hnone
    · next s' hs' =>
      cases hs.symm.trans hs'
      have hrest := ih (done.push s.token) hend (by rw [Array.size_push]; omega)
      rw [Array.toList_push, List.append_assoc] at hrest
      exact hrest

/-- **The tokens of a text lead from its start to its end.** -/
theorem tokenize_eq_iff {m : Mode} {text : String} {tokens : Array Token}
    (hsize : tokens.size < Limits.tokens) : tokenize m text = tokens ↔
      ∃ r, Lexes (.atStart m text.toList) tokens.toList r ∧ r.ahead = [] := by
  constructor
  · rintro rfl
    obtain ⟨ts, r, hts, hend, heq⟩ := lexes_tokenizeFrom hsize
    refine ⟨r, ?_, hend⟩
    unfold tokenize
    rw [heq]
    exact hts
  · rintro ⟨r, hlexes, hend⟩
    have hlength : (#[] : Array Token).size + tokens.toList.length < Limits.tokens := by
      rw [List.size_toArray, List.length_nil, Nat.zero_add]
      exact hsize
    have heq := tokenizeFrom_of_lexes #[] hlexes hend hlength
    exact Array.toList_inj.mp heq

/-! ## Other texts and other places -/

/-- A token that ends in front of a line feed is read from the other text too. -/
theorem Token.read?_of_alikeFor {p : Position} {m : Mode} {n : Nat} {cs ds : List Char}
    {s : TokenStep} (h : AlikeFor n cs ds) (hs : Token.read? p m cs = some s)
    (hle : cs.length ≤ n + s.rest.length) : ∃ k es, AlikeFor k s.rest es ∧
      k + cs.length = n + s.rest.length ∧ Token.read? p m ds = some { s with rest := es } := by
  unfold Token.read? at hs
  obtain ⟨r, hr, rfl⟩ := Option.map_eq_some_iff.mp hs
  have hlt := h.lt_length
  dsimp only at hle ⊢
  rw [List.length_drop] at hle
  have hrn : r.length ≤ n := by omega
  refine ⟨n - r.length, ds.drop r.length, h.drop hrn, ?_, ?_⟩
  · rw [List.length_drop]
    omega
  · unfold Token.read?
    rw [scan?_of_alikeFor h hr hrn, Option.map_some, h.take hrn]

/-- **Tokens in front of a line feed do not depend on what stands behind it.** -/
theorem Lexes.ofAlikeFor {r r' : Reader} {ts : List Token} (h : Lexes r ts r') {n : Nat}
    {ds : List Char} (halike : AlikeFor n r.ahead ds)
    (hle : r.ahead.length ≤ n + r'.ahead.length) :
    ∃ es, Lexes { r with ahead := ds } ts { r' with ahead := es } := by
  induction h generalizing n ds with
  | nil r => exact ⟨ds, .nil _⟩
  | @cons p m cs s ts r' hs h ih =>
    have hrest : r'.ahead.length ≤ s.rest.length := by
      obtain ⟨text, htext, _⟩ := h.consumed
      rw [show s.rest = text ++ r'.ahead from htext, List.length_append]
      exact Nat.le_add_left _ _
    obtain ⟨k, es, hes, hlength, hread⟩ :=
      Token.read?_of_alikeFor halike hs (Nat.le_trans hle (Nat.add_le_add_left hrest n))
    obtain ⟨es', hes'⟩ := ih hes (by
      show s.rest.length ≤ _
      have : cs.length ≤ n + r'.ahead.length := hle
      omega)
    exact ⟨es', Lexes.cons (s := { s with rest := es }) hread hes'⟩

/-- **A token that was moved**: the same token some bytes further on. -/
structure Token.MovedBy (bytes : Int) (t t' : Token) : Prop where
  kind : t'.kind = t.kind
  text : t'.text = t.text
  mode : t'.mode = t.mode
  start : (t'.start : Int) = t.start + bytes
  stop : (t'.stop : Int) = t.stop + bytes

/-- **The same characters in the same mode are the same tokens** at every place. -/
theorem Lexes.moved {r r' : Reader} {ts : List Token} (h : Lexes r ts r') (q : Position) :
    ∃ ts' q', Lexes { r with place := q } ts' { r' with place := q' } ∧
      List.Forall₂ (Token.MovedBy (q.offset - r.place.offset)) ts ts' := by
  induction h generalizing q with
  | nil r => exact ⟨[], q, .nil _, .nil⟩
  | @cons p m cs s ts r' hs _ ih =>
    unfold Token.read? at hs
    obtain ⟨a, ha, rfl⟩ := Option.map_eq_some_iff.mp hs
    let text := cs.take a.length
    have hread : Token.read? q m cs =
        some ⟨⟨a.kind, String.ofList text, ⟨q, q.after text⟩, m⟩, a.next, cs.drop a.length⟩ := by
      unfold Token.read?
      rw [ha]
      rfl
    obtain ⟨ts', q', hts', hmoved⟩ := ih (q.after text)
    -- The distance is the same behind the token as in front of it.
    have hstop : ((q.after text).offset : Int) = (p.after text).offset + (q.offset - p.offset) := by
      rw [Position.after_offset, Position.after_offset]
      omega
    have hdistance : ((q.after text).offset : Int) - (p.after text).offset =
        q.offset - p.offset := by omega
    refine ⟨_, q', .cons hread hts', .cons ⟨rfl, rfl, rfl, ?_, hstop⟩ ?_⟩
    · show (q.offset : Int) = p.offset + (q.offset - p.offset)
      omega
    · rw [← hdistance]
      exact hmoved

end

/-- A moved token is the same, wherever it stands now. -/
theorem Cut.moved {p : Position} {cs : List Char} {ts : List Token} (h : Cut p cs ts)
    (q : Position) : ∃ ts', Cut q cs ts' ∧
      List.Forall₂ (Token.MovedBy (q.offset - p.offset)) ts ts' := by
  induction h generalizing q with
  | nil => exact ⟨[], .nil q, .nil⟩
  | @cons p text rest m kind ts hne _ ih =>
    obtain ⟨ts', hts', hmoved⟩ := ih (q.after text)
    have hdistance : ((q.after text).offset : Int) - (p.after text).offset =
        q.offset - p.offset := by
      rw [Position.after_offset, Position.after_offset]
      omega
    rw [hdistance] at hmoved
    refine ⟨⟨kind, String.ofList text, ⟨q, q.after text⟩, m⟩ :: ts', .cons hne hts',
      .cons ⟨rfl, rfl, rfl, ?_, ?_⟩ hmoved⟩
    · show (q.offset : Int) = p.offset + (q.offset - p.offset)
      omega
    · show ((q.after text).offset : Int) = (p.after text).offset + (q.offset - p.offset)
      omega

end LayeredSyntax
