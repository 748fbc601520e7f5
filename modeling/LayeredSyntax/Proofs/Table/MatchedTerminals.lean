/-
  MATCHING AND THE TERMINALS OF A TABLE — which of the terminals that match a token are found.

  There are two ways to ask what a token can be taken for.  A terminal can be tested against the
  token (`Terminal.isMatch`), which is what taking a parse up again goes by; and the terminals of a
  token can be looked up by its kind and its text (`Table.terminalsFor`), which is what a parse goes
  by.

  1. Every terminal of a composed table has one number (`compositeOf_nodup`), so the entries of a
     class are told apart by their keys.
  2. Symbols are the exception: `"a"` and `"A"` are two terminals and match the same tokens, but
     they have one key.  **The later one is found** (`lookup_reverse_eq_some`), and the earlier one
     is not.
  3. So the two ways agree but for the symbols that a later one stands in front of
     (`Table.mem_terminalsFor_iff`), and agree altogether where no two symbols differ only in case
     (`Table.mem_terminalsFor_of_distinct`).

  What is not found is not lost, for the symbol in front of it matches the same tokens: a token that
  matches some terminal of the table is always taken for one (`Table.exists_mem_terminalsFor`).
-/
import LayeredSyntax.Proofs.Composition.ClimbingGrammar

namespace LayeredSyntax

/-! ## Every terminal has one number -/

namespace Composite

variable {grammars : List Grammar} {g : Grammar} {rule : String} {c d : Composite}

theorem number_nodup (h : c.terminals.toList.Nodup) (t : Terminal) :
    (c.number t).2.terminals.toList.Nodup := by
  by_cases hmem : t ∈ c.terminals.toList
  · have hsome : c.terminals.findIdx? (· == t) ≠ none := fun hnone =>
      absurd (Array.findIdx?_eq_none_iff.mp hnone t (Array.mem_toList_iff.mp hmem)) (by simp)
    obtain ⟨index, hindex⟩ := Option.ne_none_iff_exists'.mp hsome
    unfold number
    rw [hindex]
    exact h
  · rw [number_of_notMem hmem]
    show (c.terminals.push t).toList.Nodup
    rw [Array.toList_push]
    exact (List.nodup_append_comm.mp (List.nodup_cons.mpr ⟨hmem, h⟩ : ([t] ++ _).Nodup))

theorem lowerSymbol_nodup {s : Symbol} {sym : Sym} (hc : c.terminals.toList.Nodup)
    (h : lowerSymbol grammars g rule c s = .ok (sym, d)) : d.terminals.toList.Nodup := by
  obtain ⟨t, _, _, rfl⟩ | ⟨_, _, _, rfl⟩ := lowerSymbol_cases h
  · exact number_nodup hc t
  · exact hc

theorem lowerSymbols_nodup {ss : List Symbol} {done rhs : List Sym}
    (hc : c.terminals.toList.Nodup)
    (h : lowerSymbols grammars g rule c done ss = .ok (rhs, d)) : d.terminals.toList.Nodup := by
  induction ss generalizing c done with
  | nil =>
    cases h
    exact hc
  | cons s ss ih =>
    obtain ⟨⟨sym, e⟩, hs, h⟩ := Except.bind_eq_ok.mp h
    exact ih (lowerSymbol_nodup hc hs) h

theorem lowerAlternative_nodup {lhs : Nat} {a : Alternative} (hc : c.terminals.toList.Nodup)
    (h : lowerAlternative grammars g rule lhs c a = .ok d) : d.terminals.toList.Nodup := by
  unfold lowerAlternative at h
  obtain ⟨⟨rhs, e⟩, hrhs, h⟩ := Except.bind_eq_ok.mp h
  obtain ⟨prec, _, h⟩ := Except.bind_eq_ok.mp h
  have he : e.terminals.toList.Nodup := lowerSymbols_nodup hc hrhs
  dsimp only at h
  split at h
  · cases h
  · cases h
    exact he

theorem lowerRule_nodup {r : Rule} (hc : c.terminals.toList.Nodup)
    (h : lowerRule grammars g c r = .ok d) : d.terminals.toList.Nodup := by
  unfold lowerRule at h
  split at h
  · exact foldlM_keeps (P := fun d => d.terminals.toList.Nodup)
      (fun _ _ _ _ hb hstep => lowerAlternative_nodup hb hstep) c d hc h
  · cases h

/-- **Lowering gives every terminal one number.** -/
theorem lower_nodup {levels : MergedLevels} (h : lower grammars levels = .ok c) :
    c.terminals.toList.Nodup := by
  unfold lower at h
  obtain ⟨d, hd, h⟩ := Except.bind_eq_ok.mp h
  have hrules : d.terminals.toList.Nodup := by
    refine foldlM_keeps (P := fun d => d.terminals.toList.Nodup) ?_ _ d List.nodup_nil hd
    intro b g b' _ hb hstep
    unfold lowerGrammar at hstep
    exact foldlM_keeps (P := fun d => d.terminals.toList.Nodup)
      (fun _ _ _ _ hb hstep => lowerRule_nodup hb hstep) b b' hb hstep
  refine foldlM_keeps (P := fun d => d.terminals.toList.Nodup) ?_ d c hrules h
  intro b g b' _ hb hstep
  obtain ⟨start, hrooted⟩ := addRoot_rooted hstep
  rw [hrooted.terminals]
  exact hb

end Composite

theorem compositeOf_nodup {grammars : List Grammar} {c : Composite}
    (h : compositeOf grammars = .ok c) : c.terminals.toList.Nodup := by
  obtain ⟨_, levels, _, hlower⟩ := compositeOf_eq_ok h
  exact Composite.lower_nodup hlower

/-! ## Entries of a class -/

namespace Terminal

/-- The key of a terminal for a kind of tokens. -/
def kind? : Terminal → Option TokenKind
  | kind k => some k
  | _ => none

/-- The key of a symbol: its text in lower case. -/
def symbol? (t : Terminal) : Option String := t.operator?.map String.toLower

/-- The key of a keyword. -/
def keyword? : Terminal → Option String
  | keyword w => some w
  | _ => none

/-- The key of a command. -/
def command? : Terminal → Option String
  | command c => some c
  | _ => none

/-- The key of a directive. -/
def directive? : Terminal → Option String
  | directive d => some d
  | _ => none

variable {t : Terminal}

theorem kind?_eq_some {k : TokenKind} : t.kind? = some k ↔ t = .kind k := by
  cases t <;> simp [kind?]

theorem keyword?_eq_some {w : String} : t.keyword? = some w ↔ t = .keyword w := by
  cases t <;> simp [keyword?]

theorem command?_eq_some {c : String} : t.command? = some c ↔ t = .command c := by
  cases t <;> simp [command?]

theorem directive?_eq_some {d : String} : t.directive? = some d ↔ t = .directive d := by
  cases t <;> simp [directive?]

theorem symbol?_eq_some {key : String} : t.symbol? = some key ↔ ∃ s, t = .sym s ∧ s.toLower = key := by
  cases t <;> simp [symbol?, operator?]

/-- Two symbols differ in case at most. -/
def SameSymbol (t u : Terminal) : Prop := ∃ key, t.symbol? = some key ∧ u.symbol? = some key

end Terminal

namespace Matching

section

variable {κ : Type} {key? : Terminal → Option κ} {key : κ} {first : Nat} {ts : List Terminal}

/-- The terminals of a row that have a key of some class, with their numbers; the first one of the
    row stands at place `first`. -/
def entries (key? : Terminal → Option κ) (first : Nat) (ts : List Terminal) : List (κ × Nat) :=
  (ts.zipIdx first).filterMap fun p => (key? p.1).map (·, p.2 + 1)

theorem entries_cons (key? : Terminal → Option κ) (first : Nat) (t : Terminal)
    (ts : List Terminal) : entries key? first (t :: ts) =
      ((key? t).map (·, first + 1)).toList ++ entries key? (first + 1) ts := by
  unfold entries
  rw [List.zipIdx_cons, List.filterMap_cons]
  cases key? t <;> rfl

theorem mem_entries {x : Nat} : (key, x) ∈ entries key? 0 ts ↔
    ∃ i t, x = i + 1 ∧ ts[i]? = some t ∧ key? t = some key := by
  unfold entries
  rw [List.mem_filterMap]
  constructor
  · rintro ⟨⟨t, i⟩, hp, heq⟩
    obtain ⟨k, hk, heq⟩ := Option.map_eq_some_iff.mp heq
    obtain ⟨rfl, rfl⟩ := Prod.mk.inj heq
    exact ⟨i, t, rfl, List.mem_zipIdx_iff_getElem?.mp hp, hk⟩
  · rintro ⟨i, t, rfl, hget, hk⟩
    refine ⟨(t, i), List.mem_zipIdx_iff_getElem?.mpr hget, ?_⟩
    dsimp only
    rw [hk]
    rfl

/-- The numbers of entries go up. -/
theorem pairwise_entries : (entries key? first ts).Pairwise fun p q => p.2 < q.2 := by
  have hplaces : (ts.zipIdx first).Pairwise fun p q => p.2 < q.2 := by
    have hmap : ((ts.zipIdx first).map Prod.snd).Pairwise (· < ·) := by
      rw [List.zipIdx_map_snd]
      exact List.pairwise_lt_range'
    exact List.pairwise_map.mp hmap
  unfold entries
  rw [List.pairwise_filterMap]
  refine hplaces.imp fun hlt a ha b hb => ?_
  obtain ⟨_, _, rfl⟩ := Option.map_eq_some_iff.mp ha
  obtain ⟨_, _, rfl⟩ := Option.map_eq_some_iff.mp hb
  exact Nat.succ_lt_succ hlt

end

/-- **What is looked up is kept class by class**, the symbols from the last one on. -/
theorem foldl_add (m : Matching) (first : Nat) (ts : List Terminal) :
    (ts.zipIdx first).foldl (fun m p => m.add (p.2 + 1) p.1) m =
      ⟨m.kinds ++ entries Terminal.kind? first ts,
        (entries Terminal.symbol? first ts).reverse ++ m.symbols,
        m.keywords ++ entries Terminal.keyword? first ts,
        m.commands ++ entries Terminal.command? first ts,
        m.directives ++ entries Terminal.directive? first ts⟩ := by
  induction ts generalizing m first with
  | nil => simp [entries]
  | cons t ts ih =>
    rw [List.zipIdx_cons, List.foldl_cons, ih]
    simp only [entries_cons]
    cases t <;> simp [add, Terminal.kind?, Terminal.symbol?, Terminal.operator?,
      Terminal.keyword?, Terminal.command?, Terminal.directive?]

theorem ofTerminals_eq (ts : List Terminal) : ofTerminals ts =
    ⟨entries Terminal.kind? 0 ts, (entries Terminal.symbol? 0 ts).reverse,
      entries Terminal.keyword? 0 ts, entries Terminal.command? 0 ts,
      entries Terminal.directive? 0 ts⟩ := by
  unfold ofTerminals
  rw [foldl_add]
  simp only [empty, List.nil_append, List.append_nil]

end Matching

/-! ## Looking up -/

section

variable {κ : Type} [BEq κ] [LawfulBEq κ] {key : κ} {x : Nat} {xs : List (κ × Nat)}

/-- A key that is there is found. -/
theorem exists_lookup_of_mem (h : (key, x) ∈ xs) : ∃ y, xs.lookup key = some y := by
  cases hlookup : xs.lookup key with
  | some y => exact ⟨y, rfl⟩
  | none => exact absurd rfl (bne_iff_ne.mp (List.lookup_eq_none_iff.mp hlookup _ h))

/-- A key with one entry is found where it stands. -/
theorem lookup_eq_some_of_unique (hunique : ∀ y z, (key, y) ∈ xs → (key, z) ∈ xs → y = z) :
    xs.lookup key = some x ↔ (key, x) ∈ xs := by
  refine ⟨mem_of_lookup, fun hx => ?_⟩
  obtain ⟨y, hy⟩ := exists_lookup_of_mem hx
  rw [hy, hunique y x (mem_of_lookup hy) hx]

/-- **From behind, the last entry of a key is found.** -/
theorem lookup_reverse_eq_some (hxs : xs.Pairwise fun p q => p.2 < q.2) :
    xs.reverse.lookup key = some x ↔ (key, x) ∈ xs ∧ ∀ y, (key, y) ∈ xs → y ≤ x := by
  have hlast : ∀ {x}, xs.reverse.lookup key = some x → ∀ y, (key, y) ∈ xs → y ≤ x := by
    intro x hx y hy
    obtain ⟨front, back, hsplit, hfront⟩ := List.lookup_eq_some_iff.mp hx
    have hrev : (front ++ (key, x) :: back).Pairwise fun p q => q.2 < p.2 :=
      hsplit ▸ List.pairwise_reverse.mpr hxs
    have hmem : (key, y) ∈ front ++ (key, x) :: back := hsplit ▸ List.mem_reverse.mpr hy
    rcases List.mem_append.mp hmem with hmem | hmem
    · exact absurd rfl (bne_iff_ne.mp (hfront _ hmem))
    · rcases List.mem_cons.mp hmem with heq | hmem
      · exact Nat.le_of_eq (Prod.mk.inj heq).2
      · have hcons := (List.pairwise_append.mp hrev).2.1
        exact Nat.le_of_lt ((List.pairwise_cons.mp hcons).1 _ hmem)
  constructor
  · intro hx
    exact ⟨List.mem_reverse.mp (mem_of_lookup hx), hlast hx⟩
  · rintro ⟨hx, hmax⟩
    obtain ⟨y, hy⟩ := exists_lookup_of_mem (List.mem_reverse.mpr hx)
    rw [hy, Nat.le_antisymm (hmax y (List.mem_reverse.mp (mem_of_lookup hy))) (hlast hy x hx)]

end

namespace Matching

variable {ts : List Terminal} {t : Terminal} {x : Nat}

/-- Whether a terminal of a row has a number, and the same symbol does not stand further behind in
    another case. -/
def Found (ts : List Terminal) (x : Nat) (t : Terminal) : Prop :=
  ∃ i, x = i + 1 ∧ ts[i]? = some t ∧ ∀ j u, ts[j]? = some u → t.SameSymbol u → j ≤ i

/-- Only symbols share their key with others. -/
theorem found_iff_of_not_symbol (ht : t.symbol? = none) :
    Found ts x t ↔ ∃ i, x = i + 1 ∧ ts[i]? = some t := by
  constructor
  · rintro ⟨i, hx, hi, _⟩
    exact ⟨i, hx, hi⟩
  · rintro ⟨i, hx, hi⟩
    refine ⟨i, hx, hi, fun j u _ ⟨key, hkey, _⟩ => ?_⟩
    cases ht.symm.trans hkey

/-- Where a key belongs to one terminal, the terminal is found. -/
theorem lookup_entries {κ : Type} [BEq κ] [LawfulBEq κ] {key? : Terminal → Option κ} {key : κ}
    (hts : ts.Nodup) (ht : t.symbol? = none) (hkey : ∀ {u}, key? u = some key ↔ u = t) :
    (entries key? 0 ts).lookup key = some x ↔ Found ts x t := by
  have hmem : ∀ {y}, (key, y) ∈ entries key? 0 ts ↔ ∃ i, y = i + 1 ∧ ts[i]? = some t := by
    intro y
    rw [mem_entries]
    constructor
    · rintro ⟨i, u, hy, hget, hu⟩
      exact ⟨i, hy, hkey.mp hu ▸ hget⟩
    · rintro ⟨i, hy, hget⟩
      exact ⟨i, t, hy, hget, hkey.mpr rfl⟩
  rw [found_iff_of_not_symbol ht, lookup_eq_some_of_unique, hmem]
  intro y z hy hz
  obtain ⟨i, rfl, hi⟩ := hmem.mp hy
  obtain ⟨j, rfl, hj⟩ := hmem.mp hz
  have hlt := (List.getElem?_eq_some_iff.mp hi).1
  rw [(List.getElem?_inj hlt hts).mp (hi.trans hj.symm)]

/-- Of the symbols with one key the last one is found. -/
theorem lookup_symbols {key : String} :
    (entries Terminal.symbol? 0 ts).reverse.lookup key = some x ↔
      ∃ t, Found ts x t ∧ t.symbol? = some key := by
  rw [lookup_reverse_eq_some pairwise_entries]
  constructor
  · rintro ⟨hx, hlast⟩
    obtain ⟨i, t, rfl, hi, ht⟩ := mem_entries.mp hx
    refine ⟨t, ⟨i, rfl, hi, fun j u hj ⟨key', hkey', hu⟩ => ?_⟩, ht⟩
    obtain rfl := Option.some.inj (ht.symm.trans hkey')
    exact Nat.le_of_succ_le_succ (hlast _ (mem_entries.mpr ⟨j, u, rfl, hj, hu⟩))
  · rintro ⟨t, ⟨i, rfl, hi, hlast⟩, ht⟩
    refine ⟨mem_entries.mpr ⟨i, t, rfl, hi, ht⟩, fun y hy => ?_⟩
    obtain ⟨j, u, rfl, hj, hu⟩ := mem_entries.mp hy
    exact Nat.succ_le_succ (hlast j u hj ⟨key, ht, hu⟩)

/-- The texts of tokens are compared class by class. -/
theorem mem_byText (m : Matching) {k : TokenKind} {lower : String} : x ∈ m.byText k lower ↔
    (k.isSymbolic = true ∧ m.symbols.lookup lower = some x) ∨
    (k = .identifier ∧ m.keywords.lookup lower = some x) ∨
    (k = .command ∧ ∃ name, (name, x) ∈ m.commands ∧ spellsCommand name lower = true) ∨
    (k = .directive ∧ m.directives.lookup lower = some x) := by
  cases k <;> simp [byText, TokenKind.isSymbolic]

/-- **The terminals of a row that a token is taken for**: those that match, unless the same symbol
    stands further behind in another case. -/
theorem mem_terminalsFor_ofTerminals (hts : ts.Nodup) {k : TokenKind} {text : String} :
    x ∈ (ofTerminals ts).terminalsFor k text ↔
      ∃ t, Found ts x t ∧ t.isMatch k text text.toLower = true := by
  have hkind : (entries Terminal.kind? 0 ts).lookup k = some x ↔ Found ts x (.kind k) :=
    lookup_entries hts rfl Terminal.kind?_eq_some
  have hkeyword : (entries Terminal.keyword? 0 ts).lookup text.toLower = some x ↔
      Found ts x (.keyword text.toLower) := lookup_entries hts rfl Terminal.keyword?_eq_some
  have hdirective : (entries Terminal.directive? 0 ts).lookup text.toLower = some x ↔
      Found ts x (.directive text.toLower) := lookup_entries hts rfl Terminal.directive?_eq_some
  have hcommand : ∀ {name}, (name, x) ∈ entries Terminal.command? 0 ts ↔
      Found ts x (.command name) := by
    intro name
    rw [mem_entries, found_iff_of_not_symbol rfl]
    simp only [Terminal.command?_eq_some, exists_eq_right_right]
  unfold terminalsFor
  rw [List.mem_append, Option.mem_toList, mem_byText, ofTerminals_eq]
  dsimp only
  rw [hkind, hkeyword, hdirective, lookup_symbols]
  simp only [hcommand]
  constructor
  · rintro (h | ⟨hk, t, h, ht⟩ | ⟨rfl, h⟩ | ⟨rfl, name, h, hspells⟩ | ⟨rfl, h⟩)
    · exact ⟨_, h, beq_self_eq_true k⟩
    · obtain ⟨s, rfl, hs⟩ := Terminal.symbol?_eq_some.mp ht
      exact ⟨_, h, Bool.and_eq_true_iff.mpr ⟨hk, beq_iff_eq.mpr hs.symm⟩⟩
    · exact ⟨_, h, beq_self_eq_true text.toLower⟩
    · exact ⟨_, h, hspells⟩
    · exact ⟨_, h, beq_self_eq_true text.toLower⟩
  · rintro ⟨t, h, hmatch⟩
    cases t with
    | kind k' =>
      obtain rfl := eq_of_beq hmatch
      exact .inl h
    | sym s =>
      obtain ⟨hk, hs⟩ := Bool.and_eq_true_iff.mp hmatch
      exact .inr (.inl ⟨hk, _, h, congrArg some (eq_of_beq hs).symm⟩)
    | keyword w =>
      obtain ⟨hk, hw⟩ := Bool.and_eq_true_iff.mp hmatch
      obtain rfl := eq_of_beq hw
      exact .inr (.inr (.inl ⟨eq_of_beq hk, h⟩))
    | command c =>
      obtain ⟨hk, hspells⟩ := Bool.and_eq_true_iff.mp hmatch
      exact .inr (.inr (.inr (.inl ⟨eq_of_beq hk, c, h, hspells⟩)))
    | directive d =>
      obtain ⟨hk, hd⟩ := Bool.and_eq_true_iff.mp hmatch
      obtain rfl := eq_of_beq hd
      exact .inr (.inr (.inr (.inr ⟨eq_of_beq hk, h⟩)))

/-- Of two symbols that differ in case the one in front matches and is not found. -/
example : (Terminal.sym "&sql(").isMatch .embedOpen "&sql(" "&sql(" = true ∧
    (ofTerminals [.sym "&sql(", .sym "&SQL("]).terminalsFor .embedOpen "&sql(" = [2] :=
  ⟨by cbv, by cbv⟩

end Matching

/-! ## Tables -/

theorem Composite.terminal?_succ (c : Composite) (i : Nat) :
    c.terminal? (i + 1) = c.terminals.toList[i]? := by
  unfold terminal?
  rw [if_neg (show i + 1 ≠ endOfText from Nat.succ_ne_zero i), Nat.add_sub_cancel,
    Array.getElem?_toList]

namespace Table

variable {grammars : List Grammar} {t : Table} {k : TokenKind} {text : String} {x : Nat}

/-- Whether the symbol of a number stands further behind in another case. -/
def Hidden (t : Table) (x : Nat) : Prop :=
  ∃ y a b, x < y ∧ t.terminal? x = some a ∧ t.terminal? y = some b ∧ a.SameSymbol b

/-- **What a token is taken for**: the terminals of the table that match it, but for symbols that
    stand further behind in another case. -/
theorem mem_terminalsFor_iff (h : compose grammars = .ok t) : x ∈ t.terminalsFor k text ↔
    (∃ a, t.terminal? x = some a ∧ a.isMatch k text text.toLower = true) ∧ ¬ t.Hidden x := by
  obtain ⟨c, hc, rfl⟩ := exists_compositeOf h
  show x ∈ (Matching.ofTerminals c.terminals.toList).terminalsFor k text ↔ _
  rw [Matching.mem_terminalsFor_ofTerminals (compositeOf_nodup hc)]
  constructor
  · rintro ⟨a, ⟨i, rfl, hi, hlast⟩, hmatch⟩
    refine ⟨⟨a, (c.terminal?_succ i).trans hi, hmatch⟩, ?_⟩
    rintro ⟨y, a', b, hlt, ha', hb, hsame⟩
    obtain ⟨j, rfl⟩ := Nat.exists_eq_succ_of_ne_zero (Nat.ne_of_gt (Nat.zero_lt_of_lt hlt))
    obtain rfl := Option.some.inj (((c.terminal?_succ i).trans hi).symm.trans ha')
    have hle := hlast j b ((c.terminal?_succ j).symm.trans hb) hsame
    omega
  · rintro ⟨⟨a, ha, hmatch⟩, hnot⟩
    cases x with
    | zero => cases ha
    | succ i =>
      refine ⟨a, ⟨i, rfl, (c.terminal?_succ i).symm.trans ha, fun j b hj hsame => ?_⟩, hmatch⟩
      by_contra hlt
      exact hnot ⟨j + 1, a, b, by omega, ha, (c.terminal?_succ j).trans hj, hsame⟩

/-- **The two ways to match agree** where no two symbols differ only in case. -/
theorem mem_terminalsFor_of_distinct (h : compose grammars = .ok t)
    (hdistinct : ∀ x, ¬ t.Hidden x) : x ∈ t.terminalsFor k text ↔
      ∃ a, t.terminal? x = some a ∧ a.isMatch k text text.toLower = true := by
  rw [mem_terminalsFor_iff h, and_iff_left (hdistinct x)]

end Table

/-- The same symbol matches the same tokens. -/
theorem Terminal.SameSymbol.isMatch_eq {a b : Terminal} (h : a.SameSymbol b) (k : TokenKind)
    (text lower : String) : b.isMatch k text lower = a.isMatch k text lower := by
  obtain ⟨key, ha, hb⟩ := h
  obtain ⟨s, rfl, hs⟩ := Terminal.symbol?_eq_some.mp ha
  obtain ⟨s', rfl, hs'⟩ := Terminal.symbol?_eq_some.mp hb
  unfold isMatch sameNoCase
  dsimp only
  rw [hs, hs']

theorem Terminal.SameSymbol.trans {a b c : Terminal} (h : a.SameSymbol b) (h' : b.SameSymbol c) :
    a.SameSymbol c := by
  obtain ⟨key, ha, hb⟩ := h
  obtain ⟨key', hb', hc⟩ := h'
  obtain rfl := Option.some.inj (hb.symm.trans hb')
  exact ⟨key, ha, hc⟩

namespace Table

variable {grammars : List Grammar} {t : Table} {k : TokenKind} {text : String} {x : Nat}
  {a : Terminal}

theorem lt_terminalCount_of_terminal? (h : t.terminal? x = some a) : x < t.terminalCount := by
  cases x with
  | zero => cases h
  | succ i =>
    have hlt := (List.getElem?_eq_some_iff.mp ((Composite.terminal?_succ _ i).symm.trans h)).1
    rw [Array.length_toList] at hlt
    exact Nat.succ_lt_succ hlt

/-- **A token that matches a terminal is taken for it**, or for the same symbol in another case. -/
theorem exists_mem_terminalsFor (h : compose grammars = .ok t) (ha : t.terminal? x = some a)
    (hmatch : a.isMatch k text text.toLower = true) :
    ∃ y b, y ∈ t.terminalsFor k text ∧ t.terminal? y = some b ∧ (b = a ∨ a.SameSymbol b) := by
  -- What is hidden stands in front of what hides it, and there are finitely many terminals.
  induction hn : t.terminalCount - x using Nat.strongRecOn generalizing x a with
  | ind n ih =>
    by_cases hhidden : t.Hidden x
    · obtain ⟨y, a', b, hlt, ha', hb, hsame⟩ := hhidden
      obtain rfl := Option.some.inj (ha.symm.trans ha')
      have hcount := lt_terminalCount_of_terminal? hb
      obtain ⟨z, c, hz, hc, hcb⟩ := ih _ (by omega) hb ((hsame.isMatch_eq k _ _).trans hmatch) rfl
      refine ⟨z, c, hz, hc, .inr ?_⟩
      rcases hcb with rfl | hcb
      · exact hsame
      · exact hsame.trans hcb
    · exact ⟨x, a, (mem_terminalsFor_iff h).mpr ⟨⟨a, ha, hmatch⟩, hhidden⟩, ha, .inl rfl⟩

end Table

end LayeredSyntax
