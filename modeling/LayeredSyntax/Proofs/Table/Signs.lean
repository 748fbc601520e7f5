/-
  SIGNS AND TOKENS — how formulas are written as texts.

  Behind the grammar of expressions stand four sorts of signs: numbers, the two parentheses and the
  operators.  Each sign has a terminal, which is a class of tokens, and a number among the
  terminals of the composite.

  **A token is written for one sign at most** (`Sign.Written.unique`), since no two symbols have
  texts that are equal up to case, and the table takes it for the terminal of that sign and for
  nothing else (`mem_terminalsFor`).
-/
import LayeredSyntax.Proofs.Composition.ClimbingGrammar
import LayeredSyntax.Proofs.Tree.Formulas
import LayeredSyntax.Token.Basic

namespace LayeredSyntax

/-- The precedence of an operator by its number. -/
def precedenceIn (ops : List (String × Precedence)) (m : Fin ops.length) : Precedence := ops[m].2

variable {ops : List (String × Precedence)}

namespace Sign

/-- The class of tokens that are written for a sign. -/
def terminal (ops : List (String × Precedence)) : Sign (Fin ops.length) → Terminal
  | number => .kind .number
  | opening => .sym "("
  | closing => .sym ")"
  | operator m => .sym ops[m].1

/-- The number of the terminal of a sign. -/
def code {n : Nat} : Sign (Fin n) → Nat
  | number => 1
  | opening => 2
  | closing => 3
  | operator m => 4 + m

/-- Whether a token is written for a sign. -/
def Written (ops : List (String × Precedence)) (s : Sign (Fin ops.length)) (kind : TokenKind)
    (text : String) : Prop :=
  (s.terminal ops).isMatch kind text text.toLower = true

theorem code_inj {n : Nat} {s s' : Sign (Fin n)} (h : s.code = s'.code) : s = s' := by
  cases s <;> cases s' <;> simp only [code] at h <;> first | rfl | omega | skip
  exact congrArg operator (Fin.ext (by omega))

/-- The texts of the symbols, in the order of their terminals. -/
def texts (ops : List (String × Precedence)) : List String := "(" :: ")" :: ops.map (·.1)

/-- Apart from numbers a sign is a symbol, whose text stands in the place of its code. -/
theorem eq_number_or_sym (s : Sign (Fin ops.length)) : s = number ∨
    ∃ i text, s.code = i + 2 ∧ (texts ops)[i]? = some text ∧ s.terminal ops = .sym text := by
  cases s with
  | number => exact .inl rfl
  | opening => exact .inr ⟨0, "(", rfl, rfl, rfl⟩
  | closing => exact .inr ⟨1, ")", rfl, rfl, rfl⟩
  | operator m =>
    refine .inr ⟨m + 2, ops[m].1, by show 4 + (m : Nat) = _; omega, ?_, rfl⟩
    show (ops.map (·.1))[(m : Nat)]? = _
    rw [List.getElem?_map, List.getElem?_eq_getElem m.isLt]
    rfl

/-- Every text is that of a sign. -/
theorem exists_of_texts {i : Nat} {text : String} (h : (texts ops)[i]? = some text) :
    ∃ s : Sign (Fin ops.length), s.code = i + 2 ∧ s.terminal ops = .sym text := by
  match i, h with
  | 0, h => exact ⟨opening, rfl, congrArg Terminal.sym (Option.some.inj h)⟩
  | 1, h => exact ⟨closing, rfl, congrArg Terminal.sym (Option.some.inj h)⟩
  | m + 2, h =>
    have hop : (ops.map (·.1))[m]? = some text := h
    rw [List.getElem?_map] at hop
    obtain ⟨x, hx, rfl⟩ := Option.map_eq_some_iff.mp hop
    obtain ⟨hlt, hx⟩ := List.getElem?_eq_some_iff.mp hx
    refine ⟨operator ⟨m, hlt⟩, by show 4 + m = _; omega, ?_⟩
    show Terminal.sym ops[m].1 = _
    rw [hx]

/-- Where texts differ in any case, equal ones stand in one place. -/
theorem place_unique (h : ((texts ops).map String.toLower).Nodup) {i k : Nat} {a b : String}
    (ha : (texts ops)[i]? = some a) (hb : (texts ops)[k]? = some b)
    (hlower : a.toLower = b.toLower) : i = k := by
  have hi : ((texts ops).map String.toLower)[i]? = some a.toLower := by
    rw [List.getElem?_map, ha]
    rfl
  have hk : ((texts ops).map String.toLower)[k]? = some a.toLower := by
    rw [List.getElem?_map, hb, hlower]
    rfl
  obtain ⟨hlt, hi⟩ := List.getElem?_eq_some_iff.mp hi
  obtain ⟨hlt', hk⟩ := List.getElem?_eq_some_iff.mp hk
  exact (h.getElem_inj_iff).mp (hi.trans hk.symm)

theorem written_sym {s : Sign (Fin ops.length)} {kind : TokenKind} {text a : String}
    (hs : s.terminal ops = .sym a) :
    s.Written ops kind text ↔ kind.isSymbolic = true ∧ a.toLower = text.toLower := by
  unfold Written
  rw [hs]
  show (kind.isSymbolic && sameNoCase text a) = true ↔ _
  rw [Bool.and_eq_true]
  exact and_congr_right fun _ => beq_iff_eq.trans eq_comm

theorem written_number {kind : TokenKind} {text : String} :
    (number : Sign (Fin ops.length)).Written ops kind text ↔ kind = .number :=
  beq_iff_eq.trans eq_comm

/-- **A token is written for one sign at most.** -/
theorem Written.unique (h : ((texts ops).map String.toLower).Nodup) {s s' : Sign (Fin ops.length)}
    {kind : TokenKind} {text : String} (hs : s.Written ops kind text)
    (hs' : s'.Written ops kind text) : s = s' := by
  rcases s.eq_number_or_sym with rfl | ⟨i, a, hcode, ha, hterminal⟩
  · rcases s'.eq_number_or_sym with rfl | ⟨k, b, _, _, hterminal'⟩
    · rfl
    · -- Numbers are no symbols.
      obtain rfl := written_number.mp hs
      cases ((written_sym hterminal').mp hs').1
  · obtain ⟨hkind, hlower⟩ := (written_sym hterminal).mp hs
    rcases s'.eq_number_or_sym with rfl | ⟨k, b, hcode', hb, hterminal'⟩
    · obtain rfl := written_number.mp hs'
      cases hkind
    · have hlower' := ((written_sym hterminal').mp hs').2
      have hplace := place_unique h ha hb (hlower.trans hlower'.symm)
      exact code_inj (by omega)

end Sign

/-! ## What the table takes tokens for -/

/-- The symbols of a row of terminals, by their texts in lower case. -/
def symbolsFrom (first : Nat) (texts : List String) : List (String × Nat) :=
  (texts.zipIdx first).map fun p => (p.1.toLower, p.2 + 1)

/-- Adding symbols. -/
theorem foldl_add_sym (texts : List String) (first : Nat) (m : Matching) :
    ((texts.map Terminal.sym).zipIdx first).foldl (fun m p => m.add (p.2 + 1) p.1) m =
      { m with symbols := (symbolsFrom first texts).reverse ++ m.symbols } := by
  induction texts generalizing first m with
  | nil => rfl
  | cons text rest ih =>
    rw [List.map_cons, List.zipIdx_cons, List.foldl_cons, ih]
    unfold symbolsFrom
    rw [List.zipIdx_cons, List.map_cons, List.reverse_cons, List.append_assoc]
    rfl

/-- What tokens are compared with. -/
theorem ofTerminals_climbing {c : Composite} {id : GrammarId} (hc : c.Climbs id ops) :
    Matching.ofTerminals c.terminals.toList =
      ⟨[(.number, 1)], (symbolsFrom 1 (Sign.texts ops)).reverse, [], [], []⟩ := by
  have hterminals : c.terminals.toList =
      .kind .number :: (Sign.texts ops).map Terminal.sym := by
    rw [hc.terminals]
    unfold Sign.texts
    rw [List.map_cons, List.map_cons, List.map_map]
    rfl
  rw [hterminals]
  unfold Matching.ofTerminals
  rw [List.zipIdx_cons, List.foldl_cons, foldl_add_sym]
  exact congrArg (Matching.mk _ · _ _ _) (List.append_nil _)

/-- Symbols are looked up by their texts. -/
theorem lookup_symbolsFrom (h : ((Sign.texts ops).map String.toLower).Nodup) {lower : String}
    {x : Nat} : (symbolsFrom 1 (Sign.texts ops)).reverse.lookup lower = some x ↔
      ∃ i text, (Sign.texts ops)[i]? = some text ∧ text.toLower = lower ∧ x = i + 2 := by
  have hkeys : ((symbolsFrom 1 (Sign.texts ops)).reverse.map (·.1)).Nodup := by
    rw [List.map_reverse, List.nodup_reverse]
    unfold symbolsFrom
    rw [List.map_map]
    have hfst : (fun p : String × Nat => p.1.toLower) = String.toLower ∘ Prod.fst := rfl
    show (((Sign.texts ops).zipIdx 1).map fun p => p.1.toLower).Nodup
    rw [hfst, ← List.map_map, List.zipIdx_map_fst]
    exact h
  constructor
  · intro hlookup
    obtain ⟨⟨text, i⟩, hp, heq⟩ := List.mem_map.mp (List.mem_reverse.mp (mem_of_lookup hlookup))
    obtain ⟨hle, hget⟩ := List.mem_zipIdx_iff_le_and_getElem?_sub.mp hp
    obtain ⟨htext, hx⟩ := Prod.mk.inj heq
    exact ⟨i - 1, text, hget, htext, by dsimp only at hle hx; omega⟩
  · rintro ⟨i, text, hget, rfl, rfl⟩
    refine lookup_of_nodup hkeys (List.mem_reverse.mpr (List.mem_map.mpr ⟨(text, i + 1), ?_, rfl⟩))
    exact List.mem_zipIdx_iff_le_and_getElem?_sub.mpr ⟨Nat.le_add_left _ _, hget⟩

/-- Without keywords, commands and directives only symbols are compared by their texts. -/
theorem byText_of_symbols (kinds : List (TokenKind × Nat)) (symbols : List (String × Nat))
    (k : TokenKind) (lower : String) : Matching.byText ⟨kinds, symbols, [], [], []⟩ k lower =
      if k.isSymbolic then (symbols.lookup lower).toList else [] := by
  cases k <;> rfl

/-- **The table takes a token for the sign that it is written for.** -/
theorem mem_terminalsFor {c : Composite} {id : GrammarId} (hc : c.Climbs id ops) {k : TokenKind}
    {text : String} {x : Nat} : x ∈ (Table.ofComposite c).terminalsFor k text ↔
      ∃ s : Sign (Fin ops.length), x = s.code ∧ s.Written ops k text := by
  show x ∈ (Matching.ofTerminals c.terminals.toList).terminalsFor k text ↔ _
  rw [ofTerminals_climbing hc]
  unfold Matching.terminalsFor
  rw [byText_of_symbols, List.mem_append]
  constructor
  · rintro (hx | hx)
    · have hmem := mem_of_lookup (Option.mem_toList.mp hx)
      obtain ⟨rfl, rfl⟩ := Prod.mk.inj (List.mem_singleton.mp hmem)
      exact ⟨.number, rfl, Sign.written_number.mpr rfl⟩
    · split at hx
      · next hkind =>
        obtain ⟨i, a, hget, hlower, rfl⟩ :=
          (lookup_symbolsFrom hc.texts).mp (Option.mem_toList.mp hx)
        obtain ⟨s, hcode, hterminal⟩ := Sign.exists_of_texts hget
        exact ⟨s, hcode.symm, (Sign.written_sym hterminal).mpr ⟨hkind, hlower⟩⟩
      · exact absurd hx List.not_mem_nil
  · rintro ⟨s, rfl, hs⟩
    rcases s.eq_number_or_sym with rfl | ⟨i, a, hcode, hget, hterminal⟩
    · obtain rfl := Sign.written_number.mp hs
      exact .inl List.mem_cons_self
    · obtain ⟨hkind, hlower⟩ := (Sign.written_sym hterminal).mp hs
      refine .inr ?_
      rw [if_pos hkind, hcode]
      exact Option.mem_toList.mpr
        ((lookup_symbolsFrom hc.texts).mpr ⟨i, a, hget, hlower, rfl⟩)

end LayeredSyntax
