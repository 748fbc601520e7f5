/-
  POSITIONS IN A STREAM — tokens with their trivia, stretch by stretch.

  A stretch is what lies between two positions: their tokens and the trivia between these, but not
  the trivia in front of the first one nor behind the last one.  **Stretches lie side by side with
  the trivia between them** (`stretch_append`), and the stretch of all positions with the trivia at
  both ends is the whole stream (`whole`).

  What is needed of a stream for that is `Regular`: a position has a token that is no trivia, and
  between two neighbours there is nothing but trivia.  A stream that is made of tokens is regular.
-/
import LayeredSyntax.Token.Stream

namespace LayeredSyntax

/-- The tokens of some indices. -/
def sliceOf (tokens : List Token) (first stop : Nat) : List Token := (tokens.take stop).drop first

theorem sliceOf_append {tokens : List Token} {a b c : Nat} (hab : a ≤ b) (hbc : b ≤ c) :
    sliceOf tokens a b ++ sliceOf tokens b c = sliceOf tokens a c := by
  have htake : (tokens.take b).drop a = ((tokens.take c).drop a).take (b - a) := by
    rw [← List.drop_take, List.take_take, Nat.min_eq_left hbc]
  have hdrop : (tokens.take c).drop b = ((tokens.take c).drop a).drop (b - a) := by
    rw [List.drop_drop, Nat.add_sub_cancel' hab]
  unfold sliceOf
  rw [htake, hdrop, List.take_append_drop]

theorem sliceOf_self (tokens : List Token) (a : Nat) : sliceOf tokens a a = [] := by
  unfold sliceOf
  exact List.drop_eq_nil_of_le (List.length_take_le _ _)

theorem sliceOf_succ {tokens : List Token} {a : Nat} {t : Token} (h : tokens[a]? = some t) :
    sliceOf tokens a (a + 1) = [t] := by
  obtain ⟨hlt, hget⟩ := List.getElem?_eq_some_iff.mp h
  unfold sliceOf
  rw [List.take_succ_eq_append_getElem hlt, List.drop_left' (by rw [List.length_take]; omega), hget]

theorem mem_sliceOf {tokens : List Token} {a b : Nat} {t : Token} (h : t ∈ sliceOf tokens a b) :
    ∃ i, a ≤ i ∧ i < b ∧ tokens[i]? = some t := by
  unfold sliceOf at h
  obtain ⟨i, hi⟩ := List.mem_iff_getElem?.mp h
  rw [List.getElem?_drop, List.getElem?_take] at hi
  split at hi
  · next hlt => exact ⟨a + i, Nat.le_add_right _ _, hlt, hi⟩
  · cases hi

namespace TokenStream

variable {s : TokenStream} {p q first stop : Nat}

/-- The index behind the token of the position before. -/
def indexAfter (s : TokenStream) (p : Nat) : Nat := if p = 0 then 0 else s.tokenIndex (p - 1) + 1

/-- **What makes a stream regular.** -/
structure Regular (s : TokenStream) : Prop where
  token : ∀ p, p < s.size → ∃ t, s.get? p = some t ∧ s.tokens[s.tokenIndex p]? = some t ∧
    t.isTrivia = false
  index_le : ∀ p, p ≤ s.size → s.indexAfter p ≤ s.tokenIndex p
  index_end : s.tokenIndex s.size = s.tokens.size
  trivia : ∀ p i t, p ≤ s.size → s.indexAfter p ≤ i → i < s.tokenIndex p →
    s.tokens[i]? = some t → t.isTrivia = true

/-- The trivia in front of a position. -/
def lead (s : TokenStream) (p : Nat) : List Token :=
  sliceOf s.tokens.toList (s.indexAfter p) (s.tokenIndex p)

/-- **What lies between two positions.** -/
def stretch (s : TokenStream) (first stop : Nat) : List Token :=
  if first < stop then sliceOf s.tokens.toList (s.tokenIndex first) (s.indexAfter stop) else []

theorem triviaBefore_eq (s : TokenStream) (p : Nat) : s.triviaBefore p = s.lead p := by
  show (s.tokens.extract (s.indexAfter p) (s.tokenIndex p)).toList = s.lead p
  unfold lead sliceOf
  rw [Array.toList_extract, List.extract_eq_take_drop, List.drop_take]

theorem stretch_self (s : TokenStream) (p : Nat) : s.stretch p p = [] := if_neg (Nat.lt_irrefl p)

theorem indexAfter_succ (s : TokenStream) (p : Nat) : s.indexAfter (p + 1) = s.tokenIndex p + 1 :=
  rfl

/-- One position. -/
theorem Regular.stretch_succ (h : s.Regular) {t : Token} (hp : s.get? p = some t)
    (hlt : p < s.size) : s.stretch p (p + 1) = [t] := by
  obtain ⟨t', ht', hget, _⟩ := h.token p hlt
  obtain rfl : t = t' := Option.some.inj (hp.symm.trans ht')
  unfold stretch
  rw [if_pos (Nat.lt_succ_self p), indexAfter_succ]
  rw [← Array.getElem?_toList] at hget
  exact sliceOf_succ hget

/-- From a position to the index behind the one before a later position. -/
theorem Regular.index_le_after (h : s.Regular) (hlt : first < stop) (hle : stop ≤ s.size) :
    s.tokenIndex first + 1 ≤ s.indexAfter stop := by
  induction stop with
  | zero => exact absurd hlt (Nat.not_lt_zero _)
  | succ n ih =>
    rcases Nat.lt_succ_iff_lt_or_eq.mp hlt with hlt' | rfl
    · have := ih hlt' (Nat.le_of_succ_le hle)
      have := h.index_le n (Nat.le_of_succ_le hle)
      rw [indexAfter_succ]
      omega
    · exact Nat.le_refl _

/-- **Stretches lie side by side, with the trivia between them.** -/
theorem Regular.stretch_append (h : s.Regular) (hfirst : first < p) (hstop : p < stop)
    (hle : stop ≤ s.size) :
    s.stretch first p ++ s.lead p ++ s.stretch p stop = s.stretch first stop := by
  have hp : p ≤ s.size := by omega
  have hfp := h.index_le_after hfirst hp
  have hps := h.index_le_after hstop hle
  have hlead := h.index_le p hp
  unfold stretch lead
  rw [if_pos hfirst, if_pos hstop, if_pos (Nat.lt_trans hfirst hstop),
    sliceOf_append (by omega) hlead, sliceOf_append (by omega) (by omega)]

/-- **All positions, with the trivia at both ends, are the whole stream.** -/
theorem Regular.whole (h : s.Regular) (hpos : 0 < s.size) :
    s.lead 0 ++ s.stretch 0 s.size ++ s.lead s.size = s.tokens.toList := by
  have hin := h.index_le_after hpos (Nat.le_refl _)
  have hend := h.index_le s.size (Nat.le_refl _)
  have hzero : s.indexAfter 0 = 0 := rfl
  unfold stretch lead
  rw [if_pos hpos, hzero, sliceOf_append (Nat.zero_le _) (by omega),
    sliceOf_append (Nat.zero_le _) hend, h.index_end]
  unfold sliceOf
  rw [List.drop_zero]
  exact List.take_of_length_le (Nat.le_refl _)

/-- Where there are no positions, all is trivia. -/
theorem Regular.lead_of_empty (h : s.Regular) (hzero : s.size = 0) :
    s.lead 0 = s.tokens.toList := by
  have hend := h.index_end
  rw [hzero] at hend
  unfold lead sliceOf
  rw [hend]
  show (s.tokens.toList.take s.tokens.size).drop 0 = _
  rw [List.drop_zero]
  exact List.take_of_length_le (Nat.le_refl _)

theorem Regular.isTrivia_of_mem_lead (h : s.Regular) (hp : p ≤ s.size) {t : Token}
    (ht : t ∈ s.lead p) : t.isTrivia = true := by
  obtain ⟨i, hi, hlt, hget⟩ := mem_sliceOf ht
  rw [Array.getElem?_toList] at hget
  exact h.trivia p i t hp hi hlt hget

/-- A stretch begins with the token of its first position. -/
theorem Regular.head?_stretch (h : s.Regular) (hlt : first < stop) (hle : stop ≤ s.size) :
    (s.stretch first stop).head? = s.get? first := by
  obtain ⟨t, ht, hget, _⟩ := h.token first (by omega)
  have hin := h.index_le_after hlt hle
  rw [← Array.getElem?_toList] at hget
  unfold stretch sliceOf
  rw [if_pos hlt, ht, List.head?_drop, List.getElem?_take, if_pos (by omega), hget]

/-- A stretch ends with the token of its last position. -/
theorem Regular.getLast?_stretch (h : s.Regular) (hlt : first < stop) (hle : stop ≤ s.size) :
    (s.stretch first stop).getLast? = s.get? (stop - 1) := by
  obtain ⟨p, rfl⟩ : ∃ p, stop = p + 1 := ⟨stop - 1, by omega⟩
  obtain ⟨t, ht, hget, _⟩ := h.token p (by omega)
  have hfirst : s.tokenIndex first ≤ s.tokenIndex p := by
    rcases Nat.lt_succ_iff_lt_or_eq.mp hlt with hlt' | rfl
    · have := h.index_le_after hlt' (Nat.le_of_succ_le hle)
      have := h.index_le p (Nat.le_of_succ_le hle)
      omega
    · exact Nat.le_refl _
  rw [← Array.getElem?_toList] at hget
  unfold stretch
  rw [if_pos hlt, indexAfter_succ, ← sliceOf_append hfirst (Nat.le_succ _), sliceOf_succ hget,
    List.getLast?_concat, Nat.add_sub_cancel, ht]

/-- There is something between two positions. -/
theorem Regular.stretch_ne_nil (h : s.Regular) (hlt : first < stop) (hle : stop ≤ s.size) :
    s.stretch first stop ≠ [] := by
  intro hnil
  have hhead := h.head?_stretch hlt hle
  obtain ⟨t, ht, _⟩ := h.token first (Nat.lt_of_lt_of_le hlt hle)
  rw [hnil, ht] at hhead
  cases hhead

theorem getElem?_filterMap {α β : Type} {f : α → Option β} {xs : List α}
    (h : ∀ a ∈ xs, (f a).isSome) (p : Nat) : (xs.filterMap f)[p]? = xs[p]?.bind f := by
  induction xs generalizing p with
  | nil => rfl
  | cons a xs ih =>
    obtain ⟨b, hb⟩ := Option.isSome_iff_exists.mp (h a List.mem_cons_self)
    rw [List.filterMap_cons_some hb]
    cases p with
    | zero => exact hb.symm
    | succ p => exact ih (fun a' ha' => h a' (List.mem_cons_of_mem _ ha')) p

/-- The tokens that are no trivia, position by position. -/
theorem Regular.getElem?_significantTokens (h : s.Regular) (p : Nat) :
    s.significantTokens[p]? = s.get? p := by
  unfold significantTokens get?
  rw [getElem?_filterMap, Array.getElem?_toList]
  · rfl
  · intro i hi
    obtain ⟨p, hp, rfl⟩ := List.mem_iff_getElem.mp hi
    obtain ⟨t, ht, _⟩ := h.token p hp
    unfold get? at ht
    rw [Array.getElem?_eq_getElem hp] at ht
    exact Option.isSome_iff_exists.mpr ⟨t, ht⟩

theorem Regular.length_significantTokens (h : s.Regular) :
    s.significantTokens.length = s.size := by
  refine Nat.le_antisymm (List.length_filterMap_le _ _) (Nat.not_lt.mp fun hlt => ?_)
  obtain ⟨t, ht, _⟩ := h.token _ hlt
  rw [← h.getElem?_significantTokens, List.getElem?_eq_none (Nat.le_refl _)] at ht
  cases ht

/-! ## Streams that are made of tokens -/

theorem toList_significantFrom (ts : List Token) : ∀ (done : Array Nat) (index : Nat),
    (significantFrom done index ts).toList =
      done.toList ++ ((ts.zipIdx index).filter fun p => !p.1.isTrivia).map (·.2) := by
  induction ts with
  | nil =>
    intro done index
    exact (List.append_nil _).symm
  | cons t ts ih =>
    intro done index
    unfold significantFrom
    rw [ih, List.zipIdx_cons, List.filter_cons]
    cases t.isTrivia <;> simp

theorem significant_ofTokens (d : Document) (ts : Array Token) :
    (ofTokens d ts).significant.toList =
      ((ts.toList.zipIdx).filter fun p => !p.1.isTrivia).map (·.2) :=
  toList_significantFrom _ _ _

/-- Looking up the indices that tokens were counted with finds these tokens. -/
theorem filterMap_zipIdx (ts : Array Token) (keep : Token → Bool) :
    ∀ (us : List Token) (index : Nat), ts.toList.drop index = us →
      ((((us.zipIdx index).filter fun p => keep p.1).map (·.2)).filterMap fun i => ts[i]?) =
        us.filter keep := by
  intro us
  induction us with
  | nil => exact fun _ _ => rfl
  | cons t us ih =>
    intro index hdrop
    have hget : ts[index]? = some t := by
      rw [← Array.getElem?_toList, ← Nat.add_zero index, ← List.getElem?_drop, hdrop]
      rfl
    have hrest : ts.toList.drop (index + 1) = us := by
      rw [← List.drop_drop, hdrop]
      rfl
    have hus := ih (index + 1) hrest
    rw [List.zipIdx_cons, List.filter_cons, List.filter_cons]
    cases keep t with
    | true => rw [if_pos rfl, if_pos rfl, List.map_cons, List.filterMap_cons_some hget, hus]
    | false => rw [if_neg Bool.false_ne_true, if_neg Bool.false_ne_true, hus]

/-- The tokens of the positions are those that are no trivia, in order. -/
theorem significantTokens_ofTokens (d : Document) (ts : Array Token) :
    (ofTokens d ts).significantTokens = ts.toList.filter fun t => !t.isTrivia := by
  show (ofTokens d ts).significant.toList.filterMap (fun i => ts[i]?) = _
  rw [significant_ofTokens]
  exact filterMap_zipIdx ts (fun t => !t.isTrivia) ts.toList 0 rfl

/-- The indices of the positions are those of the tokens that are no trivia. -/
theorem mem_significant {d : Document} {ts : Array Token} {i : Nat} :
    i ∈ (ofTokens d ts).significant.toList ↔ ∃ t, ts[i]? = some t ∧ t.isTrivia = false := by
  rw [significant_ofTokens, List.mem_map]
  constructor
  · rintro ⟨⟨t, k⟩, h, rfl⟩
    obtain ⟨hmem, htriv⟩ := List.mem_filter.mp h
    have hget := List.mem_zipIdx_iff_getElem?.mp hmem
    rw [Array.getElem?_toList] at hget
    exact ⟨t, hget, by simpa using htriv⟩
  · rintro ⟨t, hget, htriv⟩
    rw [← Array.getElem?_toList] at hget
    have hmem : (t, i) ∈ ts.toList.zipIdx := List.mem_zipIdx_iff_getElem?.mpr hget
    exact ⟨(t, i), List.mem_filter.mpr ⟨hmem, by simpa using htriv⟩, rfl⟩

theorem pairwise_significant (d : Document) (ts : Array Token) :
    (ofTokens d ts).significant.toList.Pairwise (· < ·) := by
  rw [significant_ofTokens]
  have hsub : (((ts.toList.zipIdx).filter fun p => !p.1.isTrivia).map (·.2)).Sublist
      (ts.toList.zipIdx.map (·.2)) := List.filter_sublist.map _
  refine List.Pairwise.sublist hsub ?_
  rw [List.zipIdx_map_snd]
  exact List.pairwise_lt_range'

/-- The index of a position, and the token at it. -/
theorem getElem?_significant {d : Document} {ts : Array Token} {p : Nat}
    (hp : p < (ofTokens d ts).size) :
    (ofTokens d ts).significant[p]? = some ((ofTokens d ts).tokenIndex p) ∧
      ∃ t, ts[(ofTokens d ts).tokenIndex p]? = some t ∧ t.isTrivia = false := by
  have hget : (ofTokens d ts).significant[p]? = some ((ofTokens d ts).tokenIndex p) := by
    unfold tokenIndex
    rw [Array.getElem?_eq_getElem (show p < (ofTokens d ts).significant.size from hp)]
    rfl
  have hmem : (ofTokens d ts).tokenIndex p ∈ (ofTokens d ts).significant.toList := by
    rw [← Array.getElem?_toList] at hget
    exact List.mem_of_getElem? hget
  exact ⟨hget, mem_significant.mp hmem⟩

/-- **Later positions stand further back.** -/
theorem tokenIndex_lt {d : Document} {ts : Array Token} {p q : Nat} (h : p < q)
    (hq : q < (ofTokens d ts).size) :
    (ofTokens d ts).tokenIndex p < (ofTokens d ts).tokenIndex q := by
  have hp := Nat.lt_trans h hq
  have hpget := (getElem?_significant hp).1
  have hqget := (getElem?_significant hq).1
  rw [← Array.getElem?_toList] at hpget hqget
  obtain ⟨hplt, hpval⟩ := List.getElem?_eq_some_iff.mp hpget
  obtain ⟨hqlt, hqval⟩ := List.getElem?_eq_some_iff.mp hqget
  rw [← hpval, ← hqval]
  exact List.pairwise_iff_getElem.mp (pairwise_significant d ts) p q hplt hqlt h

/-- A token that is no trivia has a position. -/
theorem exists_tokenIndex {d : Document} {ts : Array Token} {i : Nat} {t : Token}
    (ht : ts[i]? = some t) (htrivia : t.isTrivia = false) :
    ∃ k < (ofTokens d ts).size, (ofTokens d ts).tokenIndex k = i := by
  obtain ⟨k, hk, hki⟩ := List.mem_iff_getElem.mp
    (mem_significant.mpr ⟨t, ht, htrivia⟩ : i ∈ (ofTokens d ts).significant.toList)
  have hlt : k < (ofTokens d ts).size := hk
  have hget := (getElem?_significant hlt).1
  rw [← Array.getElem?_toList, List.getElem?_eq_getElem hk, hki] at hget
  exact ⟨k, hlt, (Option.some.inj hget).symm⟩

/-- **A stream that is made of tokens is regular.** -/
theorem regular_ofTokens (d : Document) (ts : Array Token) : (ofTokens d ts).Regular := by
  have hend : (ofTokens d ts).tokenIndex (ofTokens d ts).size = ts.size := by
    unfold tokenIndex size
    rw [Array.getElem?_eq_none (Nat.le_refl _)]
    rfl
  refine ⟨fun p hp => ?_, fun p hp => ?_, hend, fun p i t hp hi hlt hget => ?_⟩
  · obtain ⟨hindex, t, ht, htrivia⟩ := getElem?_significant hp
    refine ⟨t, ?_, ht, htrivia⟩
    unfold get?
    rw [hindex]
    exact ht
  · -- The token before a position stands in front of the one at the position.
    unfold indexAfter
    split
    · exact Nat.zero_le _
    · rcases Nat.lt_or_eq_of_le hp with hlt | heq
      · exact tokenIndex_lt (by omega) hlt
      · have hpred : p - 1 < (ofTokens d ts).size := by omega
        obtain ⟨_, t, ht, _⟩ := getElem?_significant hpred
        have hbound := (Array.getElem?_eq_some_iff.mp ht).1
        rw [heq, hend, ← heq]
        omega
  · -- A token between two neighbours would have a position between them.
    cases htrivia : t.isTrivia with
    | true => rfl
    | false =>
      obtain ⟨k, hk, rfl⟩ := @exists_tokenIndex d ts _ _ hget htrivia
      rcases Nat.lt_or_ge k p with hkp | hkp
      · unfold indexAfter at hi
        rw [if_neg (by omega)] at hi
        rcases Nat.lt_or_eq_of_le (Nat.le_sub_one_of_lt hkp) with hbefore | rfl
        · have := @tokenIndex_lt d ts _ _ hbefore (by omega)
          omega
        · omega
      · rcases Nat.lt_or_eq_of_le hkp with hbehind | rfl
        · have := @tokenIndex_lt d ts _ _ hbehind hk
          omega
        · omega

theorem regular_read [Limits] (m : Mode) (d : Document) : (read m d).Regular := regular_ofTokens _ _

end TokenStream

end LayeredSyntax
