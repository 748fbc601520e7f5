/-
  LOWERED GRAMMARS — what is known of the numbers once grammars have been composed.

  Everything behind a composition works on numbers, and nothing there checks them again.  What it
  relies on is gathered in `Composite.WellFormed`:

  1. No production is empty, and every number in it is that of a terminal or of a rule.
  2. A root has one production, which holds the start of its grammar and nothing else; no
     production refers to a root.

  **The crux**: numbers are only ever given out at the end of a row, so what is in range stays in
  range while further rules and roots are put behind (`HasSymbol.mono`).  The rest is one step per
  function of the lowering, and a fold over it.
-/
import LayeredSyntax.Composition.Compose

namespace LayeredSyntax

/-! ## Steps that can fail -/

/-- Two steps that can fail have an answer when both have one. -/
theorem Except.bind_eq_ok {ε α β : Type} {x : Except ε α} {f : α → Except ε β} {b : β} :
    x >>= f = .ok b ↔ ∃ a, x = .ok a ∧ f a = .ok b := by
  cases x with
  | error e => simp [bind, Except.bind]
  | ok a => simp [bind, Except.bind]

/-- What every step of a fold keeps is kept by the fold. -/
theorem foldlM_keeps {ε α β : Type} {f : β → α → Except ε β} {P : β → Prop} {xs : List α}
    (step : ∀ b a b', a ∈ xs → P b → f b a = .ok b' → P b') :
    ∀ b b', P b → xs.foldlM f b = .ok b' → P b' := by
  induction xs with
  | nil =>
    intro b b' hb h
    obtain rfl : b = b' := by simpa [pure, Except.pure] using h
    exact hb
  | cons a xs ih =>
    intro b b' hb h
    rw [List.foldlM_cons] at h
    obtain ⟨c, hc, h⟩ := Except.bind_eq_ok.mp h
    exact ih (fun b a b' ha => step b a b' (List.mem_cons_of_mem _ ha)) c b'
      (step b a c List.mem_cons_self hb hc) h

/-- A check of all elements is a check of each. -/
theorem forM_eq_ok {ε α : Type} {f : α → Except ε Unit} {xs : List α} (h : xs.forM f = .ok ()) :
    ∀ x ∈ xs, f x = .ok () := by
  induction xs with
  | nil => intro x hx; cases hx
  | cons a xs ih =>
    simp only [List.forM_eq_forM, List.forM_cons] at h
    obtain ⟨_, ha, h⟩ := Except.bind_eq_ok.mp h
    intro x hx
    rcases List.mem_cons.mp hx with rfl | hx
    · exact ha
    · exact ih h x hx

namespace Composite

/-! ## Numbers in range -/

/-- Whether a symbol is the number of a terminal or of a rule. -/
def HasSymbol (c : Composite) : Sym → Prop
  | .t id => 0 < id ∧ id ≤ c.terminals.size
  | .n id => id < c.nonterminals.size ∧ (c.nonterminal id).isRoot = false

/-- What holds of the production of a rule. -/
structure HasProduction (c : Composite) (p : Production) : Prop where
  rhs_ne_nil : p.rhs ≠ []
  lhs_lt : p.lhs < c.nonterminals.size
  symbols : ∀ s ∈ p.rhs, c.HasSymbol s

/-- **What the numbers of a composite satisfy.** -/
structure WellFormed (c : Composite) : Prop where
  productions : ∀ p ∈ c.productions, c.HasProduction p
  /-- The production of a root holds the start and nothing else. -/
  root : ∀ r ∈ c.roots, ∃ p, c.productions[r.production]? = some p ∧ p.rhs = [.n r.start] ∧
    (c.nonterminal p.lhs).isRoot = true
  /-- There are no other productions of roots. -/
  of_root : ∀ i p, c.productions[i]? = some p → (c.nonterminal p.lhs).isRoot = true →
    ∃ r ∈ c.roots, r.production = i
  roots_nodup : (c.roots.map (·.production)).Nodup

/-- A nonterminal keeps its number when others are put behind. -/
theorem nonterminal_push {c d : Composite} {n : Nonterminal}
    (h : d.nonterminals = c.nonterminals.push n) {id : Nat} (hid : id < c.nonterminals.size) :
    d.nonterminal id = c.nonterminal id := by
  unfold nonterminal
  rw [h, Array.getElem?_push_lt hid, Array.getElem?_eq_getElem hid]

/-- What is in range stays in range when more terminals are known. -/
theorem HasSymbol.mono {c d : Composite} (hn : d.nonterminals = c.nonterminals)
    (ht : c.terminals.size ≤ d.terminals.size) {s : Sym} (h : c.HasSymbol s) : d.HasSymbol s := by
  cases s with
  | t id => exact ⟨h.1, Nat.le_trans h.2 ht⟩
  | n id =>
    have hsame : d.nonterminal id = c.nonterminal id := by unfold nonterminal; rw [hn]
    exact ⟨hn ▸ h.1, hsame ▸ h.2⟩

theorem HasProduction.mono {c d : Composite} (hn : d.nonterminals = c.nonterminals)
    (ht : c.terminals.size ≤ d.terminals.size) {p : Production} (h : c.HasProduction p) :
    d.HasProduction p :=
  ⟨h.rhs_ne_nil, hn ▸ h.lhs_lt, fun s hs => (h.symbols s hs).mono hn ht⟩

/-- What is in range stays in range when another nonterminal is put behind. -/
theorem HasProduction.push {c d : Composite} {n : Nonterminal}
    (hn : d.nonterminals = c.nonterminals.push n) (ht : d.terminals = c.terminals)
    {p : Production} (h : c.HasProduction p) : d.HasProduction p := by
  have hsize : d.nonterminals.size = c.nonterminals.size + 1 := by rw [hn, Array.size_push]
  refine ⟨h.rhs_ne_nil, by have := h.lhs_lt; omega, fun s hs => ?_⟩
  have hsym := h.symbols s hs
  cases s with
  | t id => exact ⟨hsym.1, by rw [ht]; exact hsym.2⟩
  | n id => exact ⟨by have := hsym.1; omega, by rw [nonterminal_push hn hsym.1]; exact hsym.2⟩

/-- The number of a rule is in range, and it is no root. -/
theorem ruleNumber?_hasSymbol {c : Composite} {g : GrammarId} {rule : String} {id : Nat}
    (h : c.ruleNumber? g rule = some id) : c.HasSymbol (.n id) := by
  obtain ⟨hlt, hmatch, _⟩ := Array.findIdx?_eq_some_iff_getElem.mp h
  refine ⟨hlt, ?_⟩
  simp only [Bool.and_eq_true, Bool.not_eq_true'] at hmatch
  unfold nonterminal
  rw [Array.getElem?_eq_getElem hlt]
  exact hmatch.2

/-! ## Lowering rules -/

/-- What lowering a part of a rule does to a composite: it can only add terminals. -/
structure Grows (c d : Composite) : Prop where
  nonterminals : d.nonterminals = c.nonterminals
  productions : d.productions = c.productions
  roots : d.roots = c.roots
  terminals : c.terminals.size ≤ d.terminals.size

theorem Grows.refl (c : Composite) : Grows c c := ⟨rfl, rfl, rfl, Nat.le_refl _⟩

theorem Grows.trans {c d e : Composite} (h : Grows c d) (h' : Grows d e) : Grows c e :=
  ⟨h'.nonterminals.trans h.nonterminals, h'.productions.trans h.productions,
    h'.roots.trans h.roots, Nat.le_trans h.terminals h'.terminals⟩

theorem number_grows (c : Composite) (t : Terminal) :
    Grows c (c.number t).2 ∧ (c.number t).2.HasSymbol (.t (c.number t).1) := by
  unfold number
  split
  · next index h =>
    obtain ⟨hlt, _⟩ := Array.findIdx?_eq_some_iff_getElem.mp h
    exact ⟨Grows.refl c, Nat.succ_pos _, hlt⟩
  · refine ⟨⟨rfl, rfl, rfl, ?_⟩, Nat.succ_pos _, ?_⟩
    · simp
    · simp

theorem slotNumber_hasSymbol {grammars : List Grammar} {c : Composite} {g : Grammar}
    {name : String} {id : Nat} (h : slotNumber grammars c g name = .ok id) :
    c.HasSymbol (.n id) := by
  unfold slotNumber at h
  split at h
  · cases h
  · split at h
    · cases h
    · split at h
      · next hnum => cases h; exact ruleNumber?_hasSymbol hnum
      · cases h

/-- **What lowering a symbol does**: a terminal is numbered, and anything else is some rule, whose
    number is looked up. -/
theorem lowerSymbol_cases {grammars : List Grammar} {g : Grammar} {rule : String}
    {c d : Composite} {s : Symbol} {sym : Sym}
    (h : lowerSymbol grammars g rule c s = .ok (sym, d)) :
    (∃ t, s = .terminal t ∧ sym = .t (c.number t).1 ∧ d = (c.number t).2) ∨
      ∃ id, sym = .n id ∧ c.HasSymbol (.n id) ∧ d = c := by
  cases s with
  | terminal t =>
    cases h
    exact .inl ⟨t, rfl, rfl, rfl⟩
  | rule name =>
    unfold lowerSymbol at h
    dsimp only at h
    split at h
    · next id hnum =>
      cases h
      exact .inr ⟨id, rfl, ruleNumber?_hasSymbol hnum, rfl⟩
    · cases h
  | slot name =>
    unfold lowerSymbol at h
    dsimp only at h
    cases hnum : slotNumber grammars c g name with
    | error e => rw [hnum] at h; cases h
    | ok id =>
      rw [hnum] at h
      cases h
      exact .inr ⟨id, rfl, slotNumber_hasSymbol hnum, rfl⟩

theorem lowerSymbol_grows {grammars : List Grammar} {g : Grammar} {rule : String}
    {c d : Composite} {s : Symbol} {sym : Sym}
    (h : lowerSymbol grammars g rule c s = .ok (sym, d)) :
    Grows c d ∧ d.HasSymbol sym := by
  obtain ⟨t, _, rfl, rfl⟩ | ⟨id, rfl, hid, rfl⟩ := lowerSymbol_cases h
  · exact number_grows c t
  · exact ⟨Grows.refl d, hid⟩

/-- The lowered symbols of a rule are in range, and there are as many as there were. -/
theorem lowerSymbols_grows {grammars : List Grammar} {g : Grammar} {rule : String}
    {ss : List Symbol} {c d : Composite} {done rhs : List Sym}
    (hdone : ∀ s ∈ done, c.HasSymbol s)
    (h : lowerSymbols grammars g rule c done ss = .ok (rhs, d)) :
    Grows c d ∧ (∀ s ∈ rhs, d.HasSymbol s) ∧ rhs.length = done.length + ss.length := by
  induction ss generalizing c done with
  | nil =>
    cases h
    exact ⟨Grows.refl _, fun s hs => hdone s (List.mem_reverse.mp hs), by simp⟩
  | cons s ss ih =>
    obtain ⟨⟨sym, e⟩, hs, h⟩ := Except.bind_eq_ok.mp h
    obtain ⟨hgrow, hsym⟩ := lowerSymbol_grows hs
    have hdone' : ∀ s ∈ sym :: done, e.HasSymbol s := by
      intro s hs
      rcases List.mem_cons.mp hs with rfl | hs
      · exact hsym
      · exact (hdone s hs).mono hgrow.nonterminals hgrow.terminals
    obtain ⟨hgrow', hrhs, hlen⟩ := ih hdone' h
    exact ⟨hgrow.trans hgrow', hrhs, by simp only [List.length_cons] at hlen ⊢; omega⟩

/-- What holds while rules are lowered, before the first root is added. -/
structure OnlyRules (c : Composite) : Prop where
  productions : ∀ p ∈ c.productions, c.HasProduction p ∧ (c.nonterminal p.lhs).isRoot = false
  roots : c.roots = []

theorem lowerAlternative_onlyRules {grammars : List Grammar} {g : Grammar} {rule : String}
    {lhs : Nat} {c d : Composite} {a : Alternative} (hc : c.OnlyRules) (ha : a.symbols ≠ [])
    (hlhs : c.HasSymbol (.n lhs)) (h : lowerAlternative grammars g rule lhs c a = .ok d) :
    d.OnlyRules ∧ d.nonterminals = c.nonterminals := by
  unfold lowerAlternative at h
  obtain ⟨⟨rhs, e⟩, hrhs, h⟩ := Except.bind_eq_ok.mp h
  obtain ⟨prec, _, h⟩ := Except.bind_eq_ok.mp h
  obtain ⟨hgrow, hsyms, hlen⟩ := lowerSymbols_grows (fun s hs => by cases hs) hrhs
  -- Only one production is added, behind the numbering of its symbols.
  have hd : d = { e with
      productions := e.productions.push ⟨lhs, rhs, g.id, prec, a.directive, a.binary⟩ } := by
    dsimp only at h
    split at h
    · cases h
    · cases h; rfl
  have hn : d.nonterminals = e.nonterminals := by rw [hd]
  have ht : e.terminals.size ≤ d.terminals.size := Nat.le_of_eq (by rw [hd])
  have hp : d.productions = e.productions.push ⟨lhs, rhs, g.id, prec, a.directive, a.binary⟩ := by
    rw [hd]
  have hr : d.roots = e.roots := by rw [hd]
  refine ⟨⟨fun p hmem => ?_, hr.trans (hgrow.roots.trans hc.roots)⟩, hn.trans hgrow.nonterminals⟩
  have hlhs' : d.HasSymbol (.n lhs) :=
    (hlhs.mono hgrow.nonterminals hgrow.terminals).mono hn ht
  rcases Array.mem_push.mp (hp ▸ hmem) with hmem | rfl
  · obtain ⟨hprod, hroot⟩ := hc.productions p (hgrow.productions ▸ hmem)
    refine ⟨(hprod.mono hgrow.nonterminals hgrow.terminals).mono hn ht, ?_⟩
    unfold nonterminal at hroot ⊢
    rw [hn, hgrow.nonterminals]; exact hroot
  · refine ⟨⟨?_, hlhs'.1, fun s hs => (hsyms s hs).mono hn ht⟩, hlhs'.2⟩
    intro hnil
    have hpos : 0 < a.symbols.length := List.length_pos_iff.mpr ha
    have hrhs0 : rhs = [] := hnil
    rw [hrhs0] at hlen
    simp only [List.length_nil] at hlen
    omega

theorem lowerRule_onlyRules {grammars : List Grammar} {g : Grammar} {c d : Composite} {r : Rule}
    (hc : c.OnlyRules) (hr : ∀ a ∈ r.alternatives, a.symbols ≠ [])
    (h : lowerRule grammars g c r = .ok d) : d.OnlyRules ∧ d.nonterminals = c.nonterminals := by
  unfold lowerRule at h
  split at h
  · next lhs hlhs =>
    refine foldlM_keeps (P := fun d => d.OnlyRules ∧ d.nonterminals = c.nonterminals) ?_ c d
      ⟨hc, rfl⟩ h
    rintro b a b' ha ⟨hb, hbn⟩ hstep
    have hlhs' : b.HasSymbol (.n lhs) := by
      have hsym := ruleNumber?_hasSymbol hlhs
      have hsame : b.nonterminal lhs = c.nonterminal lhs := by unfold nonterminal; rw [hbn]
      exact ⟨hbn ▸ hsym.1, hsame ▸ hsym.2⟩
    obtain ⟨hb', hbn'⟩ := lowerAlternative_onlyRules hb (hr a ha) hlhs' hstep
    exact ⟨hb', hbn'.trans hbn⟩
  · cases h

/-! ## Adding roots -/

/-- What adding a root does to a composite. -/
structure Rooted (c d : Composite) (g : Grammar) (start : Nat) : Prop where
  nonterminals : d.nonterminals = c.nonterminals.push (rootOf g)
  productions : d.productions =
    c.productions.push ⟨c.nonterminals.size, [.n start], g.id, none, none, false⟩
  roots : d.roots = c.roots ++ [⟨g.id, c.productions.size, start⟩]
  terminals : d.terminals = c.terminals
  hasStart : c.HasSymbol (.n start)

theorem addRoot_rooted {c d : Composite} {g : Grammar} (h : c.addRoot g = .ok d) :
    ∃ start, Rooted c d g start := by
  unfold addRoot at h
  split at h
  · cases h
  · next start hstart =>
    cases h
    exact ⟨start, rfl, rfl, rfl, rfl, ruleNumber?_hasSymbol hstart⟩

/-- An older production keeps its number when a root is added. -/
theorem Rooted.old {c d : Composite} {g : Grammar} {start i : Nat} (h : Rooted c d g start)
    (hi : i < c.productions.size) : d.productions[i]? = c.productions[i]? := by
  rw [h.productions, Array.getElem?_push_lt hi, Array.getElem?_eq_getElem hi]

/-- The new production is the last one. -/
theorem Rooted.last {c d : Composite} {g : Grammar} {start : Nat} (h : Rooted c d g start) :
    d.productions[c.productions.size]? =
      some ⟨c.nonterminals.size, [.n start], g.id, none, none, false⟩ := by
  rw [h.productions, Array.getElem?_push_size]

theorem Rooted.isRoot_last {c d : Composite} {g : Grammar} {start : Nat}
    (h : Rooted c d g start) : (d.nonterminal c.nonterminals.size).isRoot = true := by
  unfold nonterminal
  rw [h.nonterminals, Array.getElem?_push_size]
  rfl

theorem addRoot_wellFormed {c d : Composite} {g : Grammar} (hc : c.WellFormed)
    (h : c.addRoot g = .ok d) : d.WellFormed := by
  obtain ⟨start, hd⟩ := addRoot_rooted h
  have hlt : ∀ {i p}, c.productions[i]? = some p → i < c.productions.size := fun hi =>
    (Array.getElem?_eq_some_iff.mp hi).1
  -- The nonterminal of an older production is not the new root.
  have hkeep : ∀ {i} {p : Production}, c.productions[i]? = some p →
      d.nonterminal p.lhs = c.nonterminal p.lhs := fun hi =>
    nonterminal_push hd.nonterminals (hc.productions _ (Array.mem_of_getElem? hi)).lhs_lt
  refine ⟨fun p hp => ?_, fun r hr => ?_, fun i p hi hroot => ?_, ?_⟩
  · rw [hd.productions] at hp
    rcases Array.mem_push.mp hp with hp | rfl
    · exact (hc.productions p hp).push hd.nonterminals hd.terminals
    · refine ⟨by simp, by rw [hd.nonterminals]; simp, fun s hs => ?_⟩
      obtain rfl : s = .n start := by simpa using hs
      have hlt := hd.hasStart.1
      refine ⟨by rw [hd.nonterminals, Array.size_push]; omega, ?_⟩
      rw [nonterminal_push hd.nonterminals hlt]
      exact hd.hasStart.2
  · rw [hd.roots] at hr
    rcases List.mem_append.mp hr with hr | hr
    · obtain ⟨p, hp, hrhs, hroot⟩ := hc.root r hr
      exact ⟨p, (hd.old (hlt hp)).trans hp, hrhs,
        (congrArg Nonterminal.isRoot (hkeep hp)).trans hroot⟩
    · obtain rfl := List.mem_singleton.mp hr
      exact ⟨_, hd.last, rfl, hd.isRoot_last⟩
  · rw [hd.roots]
    rcases Nat.lt_or_ge i c.productions.size with hi' | hi'
    · rw [hd.old hi'] at hi
      rw [hkeep hi] at hroot
      obtain ⟨r, hr, hri⟩ := hc.of_root i p hi hroot
      exact ⟨r, List.mem_append_left _ hr, hri⟩
    · have hsize := (Array.getElem?_eq_some_iff.mp hi).1
      rw [hd.productions, Array.size_push] at hsize
      refine ⟨_, List.mem_append_right _ (List.mem_singleton.mpr rfl), ?_⟩
      show c.productions.size = i
      omega
  · rw [hd.roots, List.map_append, List.nodup_append]
    refine ⟨hc.roots_nodup, by simp, ?_⟩
    intro a ha b hb
    obtain ⟨r, hr, rfl⟩ := List.mem_map.mp ha
    obtain rfl : b = c.productions.size := by simpa using hb
    obtain ⟨p, hp, _⟩ := hc.root r hr
    have := hlt hp
    omega

/-- Rules without roots are well formed. -/
theorem OnlyRules.wellFormed {c : Composite} (h : c.OnlyRules) : c.WellFormed := by
  refine ⟨fun p hp => (h.productions p hp).1, ?_, fun i p hi hroot => ?_, ?_⟩
  · rw [h.roots]; intro r hr; cases hr
  · have := (h.productions p (Array.mem_of_getElem? hi)).2
    rw [this] at hroot; cases hroot
  · rw [h.roots]; exact List.nodup_nil

/-- **Lowering gives numbers that are in order**, if no alternative is empty. -/
theorem lower_wellFormed {grammars : List Grammar} {levels : MergedLevels} {c : Composite}
    (hne : ∀ g ∈ grammars, ∀ r ∈ g.rules, ∀ a ∈ r.alternatives, a.symbols ≠ [])
    (h : lower grammars levels = .ok c) : c.WellFormed := by
  unfold lower at h
  obtain ⟨d, hd, h⟩ := Except.bind_eq_ok.mp h
  have hrules : d.OnlyRules := by
    refine foldlM_keeps (P := OnlyRules) ?_ _ d ⟨fun p hp => ?_, rfl⟩ hd
    · intro b g b' hg hb hstep
      unfold lowerGrammar at hstep
      exact foldlM_keeps (P := OnlyRules)
        (fun b r b' hr hb hstep => (lowerRule_onlyRules hb (hne g hg r hr) hstep).1) b b' hb hstep
    · exact absurd hp (Array.not_mem_empty p)
  exact foldlM_keeps (P := WellFormed) (fun b g b' _ hb hstep => addRoot_wellFormed hb hstep)
    d c hrules.wellFormed h

end Composite

/-! ## Composed grammars -/

/-- **A grammar that is in order has only alternatives that are.** -/
theorem Grammar.checkAlternative_of_check {grammars : List Grammar} {g : Grammar}
    (h : g.check grammars = .ok ()) : ∀ r ∈ g.rules, ∀ a ∈ r.alternatives,
      a.symbols ≠ [] ∧ a.symbols.forM (g.checkSymbol r.name) = .ok () := by
  unfold Grammar.check at h
  obtain ⟨_, _, h⟩ := Except.bind_eq_ok.mp h
  obtain ⟨_, _, h⟩ := Except.bind_eq_ok.mp h
  obtain ⟨_, _, h⟩ := Except.bind_eq_ok.mp h
  obtain ⟨_, hrules, _⟩ := Except.bind_eq_ok.mp h
  intro r hr a ha
  have hrule := forM_eq_ok hrules r hr
  unfold Grammar.checkRule at hrule
  dsimp only at hrule
  split at hrule
  · cases hrule
  · have halt := forM_eq_ok hrule a ha
    unfold Grammar.checkAlternative at halt
    dsimp only at halt
    split at halt
    · cases halt
    · next hsome => exact ⟨fun hnil => hsome (by rw [hnil]; rfl), halt⟩

/-- **What composing does**: the grammars are checked, their levels merged, and both lowered. -/
theorem compositeOf_eq_ok {grammars : List Grammar} {c : Composite}
    (h : compositeOf grammars = .ok c) :
    (distinctGrammars grammars).forM (Grammar.check (distinctGrammars grammars)) = .ok () ∧
      ∃ levels, mergeLevels (distinctGrammars grammars) = .ok levels ∧
        Composite.lower (distinctGrammars grammars) levels = .ok c := by
  unfold compositeOf at h
  dsimp only at h
  split at h
  · cases h
  · obtain ⟨_, hchecks, h⟩ := Except.bind_eq_ok.mp h
    exact ⟨hchecks, Except.bind_eq_ok.mp h⟩

/-- **The composite of composed grammars is well formed.** -/
theorem compositeOf_wellFormed {grammars : List Grammar} {c : Composite}
    (h : compositeOf grammars = .ok c) : c.WellFormed := by
  obtain ⟨hchecks, levels, _, hlower⟩ := compositeOf_eq_ok h
  refine Composite.lower_wellFormed (fun g hg r hr a ha => ?_) hlower
  exact (Grammar.checkAlternative_of_check (forM_eq_ok hchecks g hg) r hr a ha).1

/-- A composed table is the table of the composite. -/
theorem exists_compositeOf {grammars : List Grammar} {t : Table} (h : compose grammars = .ok t) :
    ∃ c, compositeOf grammars = .ok c ∧ t = Table.ofComposite c := by
  unfold compose at h
  cases hc : compositeOf grammars with
  | error e =>
    rw [hc] at h
    cases h
  | ok c =>
    rw [hc] at h
    cases h
    exact ⟨c, rfl, rfl⟩

theorem compose_of_toOption {grammars : List Grammar} {t : Table}
    (h : (compose grammars).toOption = some t) : compose grammars = .ok t := by
  cases hcompose : compose grammars with
  | error e =>
    rw [hcompose] at h
    cases h
  | ok t' =>
    rw [hcompose] at h
    exact congrArg _ (Option.some.inj h)

/-- A composed table is the table of a well-formed composite. -/
theorem compose_eq_ok {grammars : List Grammar} {t : Table} (h : compose grammars = .ok t) :
    ∃ c : Composite, c.WellFormed ∧ t = Table.ofComposite c := by
  obtain ⟨c, hc, ht⟩ := exists_compositeOf h
  exact ⟨c, compositeOf_wellFormed hc, ht⟩

/-- A composition fails where the composite does. -/
theorem compositeOf_eq_error {grammars : List Grammar} {fault : CompositionFault}
    (h : compose grammars = .error fault) : compositeOf grammars = .error fault := by
  unfold compose at h
  cases hc : compositeOf grammars with
  | error fault' =>
    rw [hc] at h
    exact congrArg Except.error (Except.error.inj h)
  | ok c =>
    rw [hc] at h
    cases h

end LayeredSyntax
