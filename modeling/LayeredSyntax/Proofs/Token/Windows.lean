/-
  WINDOWS — the same tokens at other positions.

  A position counts the tokens in front of it.  So where tokens stand in front of others or behind
  them, their positions follow from how many the others are, and **what is at the positions is the
  same** (`lead_front`, `lead_back`), trivia included.

  A stretch of a text comes again in another text when its tokens do, with the trivia between them
  and the token behind (`TokenStream.Recurs`): the same kinds, the same texts and the same modes,
  wherever they stand.
-/
import LayeredSyntax.Edit.Relex
import LayeredSyntax.Proofs.Token.Streams
import LayeredSyntax.Proofs.Tree.Reading

namespace LayeredSyntax

/-- What a token is, wherever it stands. -/
def Token.content (t : Token) : TokenKind × String × Mode := (t.kind, t.text, t.mode)

theorem Token.isTrivia_of_content {t t' : Token} (h : t'.content = t.content) :
    t'.isTrivia = t.isTrivia :=
  congrArg TokenKind.isTrivia (Prod.mk.inj h).1

theorem countSignificant_append (xs ys : List Token) :
    countSignificant (xs ++ ys) = countSignificant xs + countSignificant ys :=
  List.countP_append

theorem sliceOf_of_le {xs : List Token} (ys : List Token) {a b : Nat} (h : b ≤ xs.length) :
    sliceOf (xs ++ ys) a b = sliceOf xs a b := by
  unfold sliceOf
  rw [List.take_append_of_le_length h]

theorem sliceOf_add (xs ys : List Token) (a b : Nat) :
    sliceOf (xs ++ ys) (xs.length + a) (xs.length + b) = sliceOf ys a b := by
  unfold sliceOf
  rw [List.take_length_add_append, List.drop_length_add_append]

theorem sliceOf_split (xs : List Token) {a b : Nat} (h : a ≤ b) :
    xs = xs.take a ++ (sliceOf xs a b ++ xs.drop b) := by
  have htake : xs.take a = (xs.take b).take a := by rw [List.take_take, Nat.min_eq_left h]
  unfold sliceOf
  rw [htake, ← List.append_assoc, List.take_append_drop, List.take_append_drop]

namespace TokenStream

variable {d d' : Document} {xs ys : Array Token} {p i : Nat}

/-! ## Tokens in front of others -/

theorem size_ofTokens (d : Document) (xs : Array Token) :
    (ofTokens d xs).size = countSignificant xs.toList := by
  rw [← (regular_ofTokens d xs).length_significantTokens, significantTokens_ofTokens]
  exact List.countP_eq_length_filter.symm

theorem significant_append (d d' : Document) (xs ys : Array Token) :
    (ofTokens d' (xs ++ ys)).significant.toList = (ofTokens d xs).significant.toList ++
      (ofTokens d ys).significant.toList.map (xs.size + ·) := by
  rw [significant_ofTokens, significant_ofTokens, significant_ofTokens, Array.toList_append,
    List.zipIdx_append, List.filter_append, List.map_append]
  congr 1
  rw [Nat.zero_add, Array.length_toList, List.zipIdx_eq_map_add, List.filter_map, List.map_map,
    List.map_map]
  rfl

/-- Tokens keep their indices when others are put behind them. -/
theorem tokenIndex_front (d' : Document) (ys : Array Token) (h : p < (ofTokens d xs).size) :
    (ofTokens d' (xs ++ ys)).tokenIndex p = (ofTokens d xs).tokenIndex p ∧
      (ofTokens d xs).tokenIndex p < xs.size := by
  have hlt : p < (ofTokens d xs).significant.toList.length := h
  obtain ⟨hindex, t, ht, _⟩ := getElem?_significant h
  refine ⟨?_, (Array.getElem?_eq_some_iff.mp ht).1⟩
  unfold tokenIndex
  rw [← Array.getElem?_toList, significant_append d, List.getElem?_append_left hlt,
    Array.getElem?_toList]
  show ((ofTokens d xs).significant[p]?).getD _ = _
  rw [hindex]
  rfl

/-- Tokens behind others stand further on by as many as there are. -/
theorem tokenIndex_back (d d' : Document) (xs ys : Array Token) (i : Nat) :
    (ofTokens d' (xs ++ ys)).tokenIndex (countSignificant xs.toList + i) =
      xs.size + (ofTokens d ys).tokenIndex i := by
  have hlength : (ofTokens d xs).significant.toList.length = countSignificant xs.toList :=
    size_ofTokens d xs
  unfold tokenIndex
  rw [← Array.getElem?_toList, significant_append d, ← hlength,
    List.getElem?_append_right (Nat.le_add_right _ _), Nat.add_sub_cancel_left, List.getElem?_map,
    Array.getElem?_toList]
  show ((ofTokens d ys).significant[i]?.map _).getD (xs ++ ys).size = _
  cases (ofTokens d ys).significant[i]? with
  | none => exact Array.size_append
  | some k => rfl

theorem get?_ofTokens (d : Document) (xs : Array Token) (p : Nat) :
    (ofTokens d xs).get? p = (xs.toList.filter fun t => !t.isTrivia)[p]? := by
  rw [← (regular_ofTokens d xs).getElem?_significantTokens, significantTokens_ofTokens]

theorem get?_front (ys : Array Token) (h : p < (ofTokens d xs).size) :
    (ofTokens d' (xs ++ ys)).get? p = (ofTokens d xs).get? p := by
  have hlt : p < (xs.toList.filter fun t => !t.isTrivia).length := by
    rw [← List.countP_eq_length_filter]
    rw [size_ofTokens] at h
    exact h
  rw [get?_ofTokens, get?_ofTokens, Array.toList_append, List.filter_append,
    List.getElem?_append_left hlt]

theorem get?_back (d d' : Document) (xs ys : Array Token) (i : Nat) :
    (ofTokens d' (xs ++ ys)).get? (countSignificant xs.toList + i) = (ofTokens d ys).get? i := by
  rw [get?_ofTokens, get?_ofTokens, Array.toList_append, List.filter_append]
  unfold countSignificant
  rw [List.countP_eq_length_filter, List.getElem?_append_right (Nat.le_add_right _ _),
    Nat.add_sub_cancel_left]

/-- **The trivia in front of a token** that has others behind it. -/
theorem lead_front (ys : Array Token) (h : p < (ofTokens d xs).size) :
    (ofTokens d' (xs ++ ys)).lead p = (ofTokens d xs).lead p := by
  obtain ⟨hindex, hlt⟩ := tokenIndex_front d' ys h
  have hafter : (ofTokens d' (xs ++ ys)).indexAfter p = (ofTokens d xs).indexAfter p := by
    unfold indexAfter
    split
    · rfl
    · rw [(tokenIndex_front d' ys (by omega : p - 1 < (ofTokens d xs).size)).1]
  unfold lead
  rw [hindex, hafter]
  show sliceOf (xs ++ ys).toList _ _ = sliceOf xs.toList _ _
  rw [Array.toList_append, sliceOf_of_le _ (Nat.le_of_lt hlt)]

/-- **The trivia between tokens** that have others in front of them. -/
theorem lead_back (d d' : Document) (xs ys : Array Token) (hi : 0 < i) :
    (ofTokens d' (xs ++ ys)).lead (countSignificant xs.toList + i) = (ofTokens d ys).lead i := by
  obtain ⟨k, rfl⟩ : ∃ k, i = k + 1 := ⟨i - 1, by omega⟩
  have hafter : (ofTokens d' (xs ++ ys)).indexAfter (countSignificant xs.toList + (k + 1)) =
      xs.size + (ofTokens d ys).indexAfter (k + 1) := by
    rw [← Nat.add_assoc, indexAfter_succ, indexAfter_succ, tokenIndex_back d]
    exact Nat.add_assoc ..
  unfold lead
  rw [hafter, tokenIndex_back d]
  show sliceOf (xs ++ ys).toList _ _ = sliceOf ys.toList _ _
  rw [Array.toList_append, ← Array.length_toList, sliceOf_add]

/-- A token behind others has as many positions in front of it as these. -/
theorem tokenIndex_of_eq (d : Document) {front back : List Token} {t : Token}
    {tokens : Array Token} (htokens : tokens.toList = front ++ t :: back)
    (ht : t.isTrivia = false) :
    (ofTokens d tokens).tokenIndex (countSignificant front) = front.length := by
  have hsplit : tokens = front.toArray ++ (t :: back).toArray := by
    rw [← Array.toList_inj, Array.toList_append, htokens]
  have hzero : (ofTokens d (t :: back).toArray).tokenIndex 0 = 0 := by
    unfold tokenIndex
    rw [← Array.getElem?_toList, significant_ofTokens]
    simp only [List.zipIdx_cons, List.filter_cons, ht, Bool.not_false, if_true, List.map_cons,
      List.getElem?_cons_zero, Option.getD_some]
  rw [hsplit]
  exact (tokenIndex_back d d front.toArray _ 0).trans (by rw [hzero]; rfl)

/-- **A stretch that is cut out of the tokens.** -/
theorem stretch_ofTokens (d : Document) {front inside back : List Token} {tokens : Array Token}
    (htokens : tokens.toList = front ++ (inside ++ back)) (htrim : Trimmed inside)
    (hpos : 0 < countSignificant inside) :
    (ofTokens d tokens).stretch (countSignificant front)
      (countSignificant front + countSignificant inside) = inside := by
  have hne : inside ≠ [] := by
    rintro rfl
    exact absurd hpos (Nat.lt_irrefl 0)
  obtain ⟨t, more, hhead⟩ := List.exists_cons_of_ne_nil hne
  obtain ⟨last, hlast⟩ := Option.isSome_iff_exists.mp (List.getLast?_isSome.mpr hne)
  obtain ⟨init, hinit⟩ := List.getLast?_eq_some_iff.mp hlast
  have ht : t.isTrivia = false := htrim.1 t (by rw [hhead]; rfl)
  have hlast' : last.isTrivia = false := htrim.2 last hlast
  have hcount : countSignificant inside = countSignificant init + 1 := by
    rw [hinit, countSignificant_append]
    unfold countSignificant
    rw [List.countP_singleton, hlast']
    rfl
  -- The first token and the last one stand where the stretch begins and ends.
  have hfirst : (ofTokens d tokens).tokenIndex (countSignificant front) = front.length := by
    have hcut : tokens.toList = front ++ t :: (more ++ back) := by
      rw [htokens, hhead]
      rfl
    exact tokenIndex_of_eq d hcut ht
  have hafter : (ofTokens d tokens).indexAfter
      (countSignificant front + countSignificant inside) = front.length + inside.length := by
    have hcut : tokens.toList = front ++ init ++ last :: back := by
      rw [htokens, hinit, List.append_assoc, List.append_assoc]
      rfl
    have hindex := tokenIndex_of_eq d hcut hlast'
    rw [countSignificant_append] at hindex
    rw [hcount, ← Nat.add_assoc, indexAfter_succ, hindex, hinit, List.length_append,
      List.length_append]
    exact Nat.add_assoc ..
  unfold stretch
  rw [if_pos (by omega), hfirst, hafter]
  show sliceOf tokens.toList _ _ = inside
  rw [htokens]
  have hslice := sliceOf_add front (inside ++ back) 0 inside.length
  rw [Nat.add_zero] at hslice
  rw [hslice, sliceOf_of_le _ (Nat.le_refl _)]
  unfold sliceOf
  rw [List.take_length, List.drop_zero]

theorem mem_tokens_of_mem_stretch {s : TokenStream} {stop : Nat} {t : Token}
    (h : t ∈ s.stretch p stop) : t ∈ s.tokens.toList := by
  unfold stretch at h
  split at h
  · exact List.mem_of_mem_take (List.mem_of_mem_drop h)
  · exact absurd h List.not_mem_nil

/-! ## The same tokens elsewhere -/

section Congruence

variable (h : ys.toList.map Token.content = xs.toList.map Token.content)

include h in
/-- What is the same of all tokens is the same at all positions. -/
theorem tokenIndex_congr (p : Nat) :
    (ofTokens d' ys).tokenIndex p = (ofTokens d xs).tokenIndex p := by
  have hsame : ∀ (ts us : List Token) (done : Array Nat) (index : Nat),
      us.map Token.content = ts.map Token.content →
        significantFrom done index us = significantFrom done index ts := by
    intro ts
    induction ts with
    | nil =>
      intro us done index hall
      rw [List.map_eq_nil_iff.mp hall]
    | cons t ts ih =>
      intro us done index hall
      obtain ⟨u, rest, rfl, hhead, hrest⟩ := List.map_eq_cons_iff.mp hall
      unfold significantFrom
      rw [Token.isTrivia_of_content hhead, ih _ _ _ hrest]
  have hsize : ys.size = xs.size := by
    rw [← Array.length_toList, ← Array.length_toList, ← List.length_map (f := Token.content), h,
      List.length_map]
  unfold tokenIndex ofTokens
  dsimp only
  rw [hsame _ _ _ _ h, hsize]

include h in
theorem get?_congr (p : Nat) : ((ofTokens d' ys).get? p).map Token.content =
    ((ofTokens d xs).get? p).map Token.content := by
  have hfilter : ∀ (ts us : List Token), us.map Token.content = ts.map Token.content →
      (us.filter fun t => !t.isTrivia).map Token.content =
        (ts.filter fun t => !t.isTrivia).map Token.content := by
    intro ts
    induction ts with
    | nil =>
      intro us hall
      rw [List.map_eq_nil_iff.mp hall]
    | cons t ts ih =>
      intro us hall
      obtain ⟨u, rest, rfl, hhead, hrest⟩ := List.map_eq_cons_iff.mp hall
      rw [List.filter_cons, List.filter_cons, Token.isTrivia_of_content hhead]
      cases t.isTrivia with
      | true => exact ih _ hrest
      | false => exact congrArg₂ List.cons hhead (ih _ hrest)
  rw [get?_ofTokens, get?_ofTokens, ← List.getElem?_map, ← List.getElem?_map, hfilter _ _ h]

include h in
theorem lead_congr (p : Nat) : ((ofTokens d' ys).lead p).map Token.content =
    ((ofTokens d xs).lead p).map Token.content := by
  have hafter : (ofTokens d' ys).indexAfter p = (ofTokens d xs).indexAfter p := by
    unfold indexAfter
    rw [tokenIndex_congr h]
  unfold lead
  rw [hafter, tokenIndex_congr h]
  unfold sliceOf
  rw [List.map_drop, List.map_take, List.map_drop, List.map_take]
  show ((ys.toList.map _).take _).drop _ = ((xs.toList.map _).take _).drop _
  rw [h]

end Congruence

/-- **Whether `n` tokens of a stream come again in another one**, with the trivia between them and
    up to the token behind them, or the end. -/
structure Recurs (old new : TokenStream) (f p n : Nat) : Prop where
  tokens : ∀ i ≤ n, (new.get? (p + i)).map Token.content = (old.get? (f + i)).map Token.content
  trivia : ∀ i, 0 < i → i ≤ n →
    (new.triviaBefore (p + i)).map Token.content = (old.triviaBefore (f + i)).map Token.content

variable {old new : TokenStream} {f n : Nat}

theorem Regular.get?_isSome_iff (h : old.Regular) : (old.get? p).isSome = true ↔ p < old.size := by
  constructor
  · intro hsome
    obtain ⟨t, ht⟩ := Option.isSome_iff_exists.mp hsome
    obtain ⟨i, hi, _⟩ := Option.bind_eq_some_iff.mp ht
    exact (Array.getElem?_eq_some_iff.mp hi).1
  · intro hlt
    obtain ⟨t, ht, _⟩ := h.token p hlt
    exact Option.isSome_iff_exists.mpr ⟨t, ht⟩

/-- Tokens that come again do so within the other stream. -/
theorem Recurs.le (h : old.Recurs new f p n) (hold : old.Regular) (hnew : new.Regular)
    (hn : 0 < n) (hle : f + n ≤ old.size) : p + n ≤ new.size := by
  have hsome := hold.get?_isSome_iff.mpr (by omega : f + (n - 1) < old.size)
  have hsame := congrArg Option.isSome (h.tokens (n - 1) (Nat.sub_le _ _))
  rw [Option.isSome_map, Option.isSome_map, hsome] at hsame
  have := hnew.get?_isSome_iff.mp hsame
  omega

/-- **The whole stretch comes again.** -/
theorem Recurs.stretch (h : old.Recurs new f p n) (hold : old.Regular) (hnew : new.Regular)
    (hle : f + n ≤ old.size) (hle' : p + n ≤ new.size) :
    (new.stretch p (p + n)).map Token.content = (old.stretch f (f + n)).map Token.content := by
  induction n with
  | zero => rw [Nat.add_zero, Nat.add_zero, stretch_self, stretch_self]
  | succ n ih =>
    obtain ⟨t, ht, _⟩ := hold.token (f + n) (by omega)
    obtain ⟨t', ht', _⟩ := hnew.token (p + n) (by omega)
    have hone := hold.stretch_succ ht (by omega)
    have hone' := hnew.stretch_succ ht' (by omega)
    have hcontent : t'.content = t.content := by
      have hsame := h.tokens n (Nat.le_succ n)
      rw [ht, ht'] at hsame
      exact Option.some.inj hsame
    rcases Nat.eq_zero_or_pos n with rfl | hn
    · rw [Nat.zero_add, show new.stretch p (p + 1) = [t'] from hone',
        show old.stretch f (f + 1) = [t] from hone, List.map_singleton, List.map_singleton,
        hcontent]
    · have hfront : (new.stretch p (p + n)).map Token.content =
          (old.stretch f (f + n)).map Token.content :=
        ih ⟨fun i hi => h.tokens i (Nat.le_succ_of_le hi),
          fun i hi hi' => h.trivia i hi (Nat.le_succ_of_le hi')⟩ (by omega) (by omega)
      have hlead := h.trivia n hn (Nat.le_succ n)
      rw [triviaBefore_eq, triviaBefore_eq] at hlead
      rw [← Nat.add_assoc, ← Nat.add_assoc,
        ← hold.stretch_append (by omega : f < f + n) (Nat.lt_succ_self _) hle,
        ← hnew.stretch_append (by omega : p < p + n) (Nat.lt_succ_self _) hle', hone, hone']
      simp only [List.map_append, List.map_singleton, hfront, hlead, hcontent]

end TokenStream

end LayeredSyntax
