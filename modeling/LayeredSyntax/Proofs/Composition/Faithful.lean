/-
  FAITHFUL LOWERING — every production of a table is an alternative of a grammar, and the other way
  round.

  A table is built from numbers.  What the numbers stand for is said here, in the grammars' words:

  1. `Denotes`: what a symbol of a grammar has become.  A terminal has become a number under which it
     is found again, a reference the number of that rule of the same grammar, and a slot the number
     of the rule of another grammar that fills it.
  2. `Lowers`: what an alternative has become, symbol by symbol.
  3. `Faithful`: the productions are the alternatives in their order, and behind them stands one
     production per grammar for its whole texts.

  **The crux**: validation looks at the grammars one by one, and lowering follows references from any
  grammar to any other.  What it looks up is there because every nonterminal has its number before the
  first alternative is lowered (`Numbered`), and because numbers are only ever added (`Knows`).  So each
  function of the lowering either does what it should or misses a level (`Yields`).
-/
import LayeredSyntax.Proofs.Composition.Lowered
import Mathlib

namespace LayeredSyntax

/-! ## Steps with one kind of fault -/

/-- A step does what is expected of it, or it fails with a fault that is expected. -/
def Yields {ε α : Type} (F : ε → Prop) (P : α → Prop) : Except ε α → Prop
  | .ok a => P a
  | .error e => F e

namespace Yields

variable {ε α β : Type} {F : ε → Prop} {P : α → Prop} {Q : β → Prop}

theorem mono {P' : α → Prop} {x : Except ε α} (h : Yields F P x) (hP : ∀ a, P a → P' a) :
    Yields F P' x := by
  cases x with
  | error e => exact h
  | ok a => exact hP a h

theorem bind {x : Except ε α} {f : α → Except ε β} (h : Yields F P x)
    (hf : ∀ a, P a → Yields F Q (f a)) : Yields F Q (x >>= f) := by
  cases x with
  | error e => exact h
  | ok a => exact hf a h

/-- A fold does what its steps do; what holds on the way depends on the elements behind. -/
theorem foldlM {R : List α → β → Prop} {f : β → α → Except ε β} {xs : List α} {b : β}
    (hb : R [] b) (hstep : ∀ done a rest b, xs = done ++ a :: rest → R done b →
      Yields F (R (done ++ [a])) (f b a)) : Yields F (R xs) (xs.foldlM f b) := by
  suffices h : ∀ rest done b, xs = done ++ rest → R done b →
      Yields F (R xs) (rest.foldlM f b) from h xs [] b rfl hb
  intro rest
  induction rest with
  | nil =>
    intro done b hxs hb
    rw [List.append_nil] at hxs
    exact hxs ▸ hb
  | cons a rest ih =>
    intro done b hxs hb
    rw [List.foldlM_cons]
    refine (hstep done a rest b hxs hb).bind fun c hc => ih (done ++ [a]) c ?_ hc
    rw [hxs, List.append_assoc, List.singleton_append]

end Yields

/-! ## The first grammar of each name -/

theorem distinctGrammars_append (grammars : List Grammar) (g : Grammar) :
    distinctGrammars (grammars ++ [g]) =
      if (distinctGrammars grammars).any (·.id == g.id) then distinctGrammars grammars
      else distinctGrammars grammars ++ [g] := by
  unfold distinctGrammars
  rw [List.foldl_append]
  rfl

/-- No name gets lost. -/
theorem any_distinctGrammars (grammars : List Grammar) (id : GrammarId) :
    (distinctGrammars grammars).any (·.id == id) = grammars.any (·.id == id) := by
  induction grammars using List.reverseRecOn with
  | nil => rfl
  | append_singleton gs g ih =>
    rw [distinctGrammars_append, List.any_append, ← ih]
    split
    · next hg =>
      -- A grammar of a name that is there already adds no name.
      by_cases hid : g.id = id
      · rw [← hid, hg, Bool.true_or]
      · simp [hid]
    · rw [List.any_append]

/-- No two of the grammars have one name. -/
theorem distinctGrammars_nodup (grammars : List Grammar) :
    ((distinctGrammars grammars).map (·.id)).Nodup := by
  induction grammars using List.reverseRecOn with
  | nil => exact List.nodup_nil
  | append_singleton gs g ih =>
    rw [distinctGrammars_append]
    split
    · exact ih
    · next hg =>
      rw [List.map_append, List.nodup_append]
      refine ⟨ih, by simp, ?_⟩
      intro a ha b hb hab
      obtain ⟨h, hh, rfl⟩ := List.mem_map.mp ha
      obtain rfl : b = g.id := by simpa using hb
      exact hg (List.any_eq_true.mpr ⟨h, hh, beq_iff_eq.mpr hab⟩)

/-- **A grammar is taken where its name stands for the first time.** -/
theorem distinctGrammars_eq (grammars : List Grammar) :
    distinctGrammars grammars = (grammars.zipIdx.filter fun p =>
      grammars.findIdx (·.id == p.1.id) == p.2).map (·.1) := by
  -- The fold goes through the row from the front, so the induction takes the last grammar off.
  induction grammars using List.reverseRecOn with
  | nil => rfl
  | append_singleton gs g ih =>
    have hold : (gs.zipIdx.filter fun p => (gs ++ [g]).findIdx (·.id == p.1.id) == p.2) =
        gs.zipIdx.filter fun p => gs.findIdx (·.id == p.1.id) == p.2 := by
      refine List.filter_congr fun p hp => ?_
      have hlt : gs.findIdx (·.id == p.1.id) < gs.length :=
        List.findIdx_lt_length_of_exists ⟨p.1, List.fst_mem_of_mem_zipIdx hp, beq_self_eq_true _⟩
      rw [List.findIdx_append, if_pos hlt]
    rw [distinctGrammars_append, any_distinctGrammars, List.zipIdx_append, List.filter_append,
      List.map_append, hold, ← ih]
    by_cases hg : gs.any (·.id == g.id) = true
    · obtain ⟨h, hmem, hid⟩ := List.any_eq_true.mp hg
      have hlt : gs.findIdx (·.id == g.id) < gs.length :=
        List.findIdx_lt_length_of_exists ⟨h, hmem, hid⟩
      have hthere : ∃ h ∈ gs, h.id = g.id := ⟨h, hmem, beq_iff_eq.mp hid⟩
      have hne : gs.findIdx (·.id == g.id) ≠ gs.length := Nat.ne_of_lt hlt
      rw [if_pos hg]
      simp [List.findIdx_append, hthere, hne]
    · have hlast : gs.findIdx (·.id == g.id) = gs.length :=
        List.findIdx_eq_length.mpr fun h hmem =>
          Bool.eq_false_iff.mpr fun hid => hg (List.any_eq_true.mpr ⟨h, hmem, hid⟩)
      rw [if_neg hg]
      simp [List.findIdx_append, hlast]

/-! ## What validation finds -/

/-- A row in which no name is repeated holds every name once. -/
theorem Grammar.repeated?_eq_none {names seen : List String}
    (h : Grammar.repeated? seen names = none) : names.Nodup ∧ ∀ n ∈ names, n ∉ seen := by
  induction names generalizing seen with
  | nil => exact ⟨List.nodup_nil, fun _ hn => absurd hn List.not_mem_nil⟩
  | cons name rest ih =>
    unfold Grammar.repeated? at h
    split at h
    · cases h
    · next hname =>
      obtain ⟨hnodup, hseen⟩ := ih h
      refine ⟨List.nodup_cons.mpr ⟨fun hmem => hseen name hmem List.mem_cons_self, hnodup⟩, ?_⟩
      intro n hn
      rcases List.mem_cons.mp hn with rfl | hn
      · exact hname
      · exact fun hmem => hseen n hn (List.mem_cons_of_mem _ hmem)

/-- The rules of a grammar by their names. -/
theorem Grammar.hasRule_eq_true {g : Grammar} {name : String} :
    g.hasRule name = true ↔ ∃ r ∈ g.rules, r.name = name := by
  unfold Grammar.hasRule Grammar.rule?
  simp

/-- What a symbol of a grammar refers to exists. -/
def Grammar.Knows (g : Grammar) : Symbol → Prop
  | .terminal _ => True
  | .rule name => g.hasRule name = true
  | .slot name => (g.slot? name).isSome = true

/-- **What is known of a grammar that has been checked.** -/
structure Grammar.Checked (grammars : List Grammar) (g : Grammar) : Prop where
  names_nodup : (g.rules.map (·.name)).Nodup
  hasStart : g.hasRule g.start = true
  slots : ∀ slot ∈ g.slots, ∃ target, findGrammar? grammars slot.grammar = some target ∧
    ∀ rule, slot.rule = some rule → target.hasRule rule = true
  symbols : ∀ r ∈ g.rules, ∀ a ∈ r.alternatives, ∀ s ∈ a.symbols, g.Knows s

theorem Grammar.checkSlots_eq_ok {grammars : List Grammar} {g : Grammar} {seen : List String}
    {slots : List Slot} (h : Grammar.checkSlots grammars g seen slots = .ok ()) :
    ∀ slot ∈ slots, g.checkSlot grammars slot = .ok () := by
  induction slots generalizing seen with
  | nil => exact fun _ hmem => absurd hmem List.not_mem_nil
  | cons slot rest ih =>
    unfold Grammar.checkSlots at h
    dsimp only at h
    split at h
    · cases h
    · obtain ⟨_, hslot, h⟩ := Except.bind_eq_ok.mp h
      intro s hs
      rcases List.mem_cons.mp hs with rfl | hs
      · exact hslot
      · exact ih h s hs

theorem Grammar.checkSlot_eq_ok {grammars : List Grammar} {g : Grammar} {slot : Slot}
    (h : g.checkSlot grammars slot = .ok ()) :
    ∃ target, findGrammar? grammars slot.grammar = some target ∧
      ∀ rule, slot.rule = some rule → target.hasRule rule = true := by
  unfold Grammar.checkSlot at h
  split at h
  · cases h
  · next target htarget hrule => exact ⟨target, htarget, fun _ hr => absurd hr (by simp [hrule])⟩
  · next target rule htarget hrule =>
    refine ⟨target, htarget, fun rule' hr => ?_⟩
    obtain rfl : rule = rule' := Option.some.inj (hrule.symm.trans hr)
    split at h
    · next hoffers =>
      unfold Grammar.offers at hoffers
      exact (Bool.and_eq_true_iff.mp hoffers).1
    · cases h

theorem Grammar.checkSymbol_eq_ok {g : Grammar} {rule : String} {s : Symbol}
    (h : g.checkSymbol rule s = .ok ()) : g.Knows s := by
  cases s with
  | terminal t => trivial
  | rule name =>
    unfold Grammar.checkSymbol at h
    dsimp only at h
    split at h
    · next hrule => exact hrule
    · cases h
  | slot name =>
    unfold Grammar.checkSymbol at h
    dsimp only at h
    split at h
    · next hslot => exact hslot
    · cases h

/-- **A check that passes has found everything in order.** -/
theorem Grammar.check_checked {grammars : List Grammar} {g : Grammar}
    (h : g.check grammars = .ok ()) : g.Checked grammars := by
  have halternatives := Grammar.checkAlternative_of_check h
  unfold Grammar.check at h
  obtain ⟨_, hnames, h⟩ := Except.bind_eq_ok.mp h
  obtain ⟨_, hstart, h⟩ := Except.bind_eq_ok.mp h
  obtain ⟨_, hslots, _⟩ := Except.bind_eq_ok.mp h
  refine ⟨?_, ?_, fun slot hslot => Grammar.checkSlot_eq_ok (checkSlots_eq_ok hslots slot hslot), ?_⟩
  · unfold Grammar.checkNames at hnames
    split at hnames
    · cases hnames
    · next hnone => exact (Grammar.repeated?_eq_none hnone).1
  · unfold Grammar.checkStart at hstart
    split at hstart
    · next hs => exact hs
    · cases hstart
  · intro r hr a ha s hs
    exact Grammar.checkSymbol_eq_ok (forM_eq_ok (halternatives r hr a ha).2 s hs)

/-! ## What has become of a grammar -/

/-- The alternatives of some grammars in their order, each with its grammar and its rule. -/
def alternativesOf (grammars : List Grammar) : List (Grammar × Rule × Alternative) :=
  grammars.flatMap fun g => g.rules.flatMap fun r => r.alternatives.map fun a => (g, r, a)

namespace Composite

/-- The nonterminal of a rule. -/
def nonterminalOf (g : Grammar) (r : Rule) : Nonterminal :=
  ⟨s!"{g.id.name}::{r.name}", r.name, g.id, r.isHidden, false⟩

/-- A number is that of the rule of a name in a grammar. -/
def IsRule (c : Composite) (g : Grammar) (name : String) (id : Nat) : Prop :=
  ∃ r ∈ g.rules, r.name = name ∧ c.nonterminals[id]? = some (nonterminalOf g r)

/-- **What a symbol of a grammar has become.** -/
inductive Denotes (c : Composite) (grammars : List Grammar) (g : Grammar) : Symbol → Sym → Prop
  /-- A terminal is found again under its number. -/
  | terminal {t : Terminal} {id : Nat} (h : c.terminal? id = some t) :
      Denotes c grammars g (.terminal t) (.t id)
  /-- A reference is to a rule of the same grammar. -/
  | rule {name : String} {id : Nat} (h : c.IsRule g name id) :
      Denotes c grammars g (.rule name) (.n id)
  /-- A slot is filled by the rule that it names, or by the start of the grammar that it names. -/
  | slot {name : String} {slot : Slot} {target : Grammar} {id : Nat}
      (hslot : g.slot? name = some slot)
      (htarget : findGrammar? grammars slot.grammar = some target)
      (h : c.IsRule target (slot.rule.getD target.start) id) :
      Denotes c grammars g (.slot name) (.n id)

/-- **What an alternative has become.** -/
structure Lowers (c : Composite) (grammars : List Grammar) (x : Grammar × Rule × Alternative)
    (p : Production) : Prop where
  lhs : c.IsRule x.1 x.2.1.name p.lhs
  rhs : List.Forall₂ (c.Denotes grammars x.1) x.2.2.symbols p.rhs
  grammar : p.grammar = x.1.id
  precedence : precedenceOf c.levels x.1.id x.2.2 = .ok p.precedence
  directive : p.directive = x.2.2.directive
  binary : p.binary = x.2.2.binary

/-- **What stands for the whole texts of a grammar.** -/
structure LowersRoot (c : Composite) (g : Grammar) (p : Production) : Prop where
  lhs : c.nonterminals[p.lhs]? = some (rootOf g)
  rhs : ∃ start, p.rhs = [.n start] ∧ c.IsRule g g.start start
  grammar : p.grammar = g.id
  plain : p.precedence = none ∧ p.directive = none ∧ p.binary = false

/-- **A composite says what the grammars say.** -/
structure Faithful (c : Composite) (grammars : List Grammar) : Prop where
  /-- The nonterminals are the rules in their order, and behind them the roots. -/
  nonterminals : c.nonterminals.toList = grammars.flatMap nonterminalsOf ++ grammars.map rootOf
  /-- No rule has two numbers. -/
  nonterminals_nodup : c.nonterminals.toList.Nodup
  /-- The productions are the alternatives in their order, and behind them those of the roots. -/
  productions : ∃ rules roots, c.productions.toList = rules ++ roots ∧
    List.Forall₂ (c.Lowers grammars) (alternativesOf grammars) rules ∧
    List.Forall₂ c.LowersRoot grammars roots
  /-- No production is empty, and every number in one is in range. -/
  inRange : ∀ p ∈ c.productions, c.HasProduction p

theorem exists_of_forall₂ {α β : Type} {R : α → β → Prop} {xs : List α} {ys : List β}
    (h : List.Forall₂ R xs ys) : ∀ y ∈ ys, ∃ x ∈ xs, R x y := by
  induction h with
  | nil => exact fun y hy => absurd hy List.not_mem_nil
  | @cons x y xs ys hxy _ ih =>
    intro z hz
    rcases List.mem_cons.mp hz with rfl | hz
    · exact ⟨x, List.mem_cons_self, hxy⟩
    · obtain ⟨w, hw, hwz⟩ := ih z hz
      exact ⟨w, List.mem_cons_of_mem _ hw, hwz⟩

/-- **A production and its nonterminal are of one grammar.** -/
theorem Faithful.grammar_lhs {c : Composite} {grammars : List Grammar} (h : c.Faithful grammars)
    {p : Production} (hp : p ∈ c.productions) : (c.nonterminal p.lhs).grammar = p.grammar := by
  obtain ⟨rules, roots, hsplit, hrules, hroots⟩ := h.productions
  have hmem : p ∈ rules ++ roots := hsplit ▸ Array.mem_toList_iff.mpr hp
  unfold nonterminal
  rcases List.mem_append.mp hmem with hmem | hmem
  · obtain ⟨x, _, hlowers⟩ := exists_of_forall₂ hrules p hmem
    obtain ⟨r, _, _, hlhs⟩ := hlowers.lhs
    rw [hlhs, hlowers.grammar]
    rfl
  · obtain ⟨g, _, hlowers⟩ := exists_of_forall₂ hroots p hmem
    rw [hlowers.lhs, hlowers.grammar]
    rfl

/-! ## Numbers are only added -/

/-- One composite knows what another one knows, under the same numbers. -/
structure Knows (c d : Composite) : Prop where
  terminal : ∀ {id : Nat} {t : Terminal}, c.terminal? id = some t → d.terminal? id = some t
  nonterminal : ∀ {id : Nat} {n : Nonterminal},
    c.nonterminals[id]? = some n → d.nonterminals[id]? = some n
  levels : d.levels = c.levels

theorem Knows.refl (c : Composite) : Knows c c := ⟨id, id, rfl⟩

theorem Knows.trans {c d e : Composite} (h : Knows c d) (h' : Knows d e) : Knows c e :=
  ⟨fun ht => h'.terminal (h.terminal ht), fun hn => h'.nonterminal (h.nonterminal hn),
    h'.levels.trans h.levels⟩

variable {grammars : List Grammar} {c d : Composite} {g : Grammar}

theorem IsRule.mono (hk : Knows c d) {name : String} {id : Nat} (h : c.IsRule g name id) :
    d.IsRule g name id := by
  obtain ⟨r, hr, hname, hid⟩ := h
  exact ⟨r, hr, hname, hk.nonterminal hid⟩

theorem Denotes.mono (hk : Knows c d) {s : Symbol} {sym : Sym} (h : c.Denotes grammars g s sym) :
    d.Denotes grammars g s sym := by
  cases h with
  | terminal h => exact .terminal (hk.terminal h)
  | rule h => exact .rule (h.mono hk)
  | slot hslot htarget h => exact .slot hslot htarget (h.mono hk)

theorem Lowers.mono (hk : Knows c d) {x : Grammar × Rule × Alternative} {p : Production}
    (h : c.Lowers grammars x p) : d.Lowers grammars x p :=
  ⟨h.lhs.mono hk, h.rhs.imp fun _ _ => Denotes.mono hk, h.grammar, hk.levels ▸ h.precedence,
    h.directive, h.binary⟩

theorem LowersRoot.mono (hk : Knows c d) {p : Production} (h : c.LowersRoot g p) :
    d.LowersRoot g p := by
  obtain ⟨start, hrhs, hstart⟩ := h.rhs
  exact ⟨hk.nonterminal h.lhs, ⟨start, hrhs, hstart.mono hk⟩, h.grammar, h.plain⟩

/-- **A terminal is found again** under the number that it is given, and all others under theirs. -/
theorem number_knows (c : Composite) (t : Terminal) :
    Knows c (c.number t).2 ∧ (c.number t).2.terminal? (c.number t).1 = some t := by
  unfold number
  split
  · next index h =>
    obtain ⟨hlt, heq, _⟩ := Array.findIdx?_eq_some_iff_getElem.mp h
    refine ⟨Knows.refl c, ?_⟩
    unfold terminal? endOfText
    rw [if_neg (Nat.succ_ne_zero _), Nat.add_sub_cancel, Array.getElem?_eq_getElem hlt,
      beq_iff_eq.mp heq]
  · refine ⟨⟨fun {id u} hu => ?_, id, rfl⟩, ?_⟩
    · unfold terminal? at hu ⊢
      split at hu
      · cases hu
      · next hid =>
        rw [if_neg hid]
        obtain ⟨hlt, _⟩ := Array.getElem?_eq_some_iff.mp hu
        rw [Array.getElem?_push_lt hlt, ← Array.getElem?_eq_getElem hlt, hu]
    · unfold terminal? endOfText
      rw [if_neg (Nat.succ_ne_zero _), Nat.add_sub_cancel, Array.getElem?_push_size]

/-! ## What is looked up is there -/

/-- Grammars that have been checked with one another. -/
structure Validated (grammars : List Grammar) : Prop where
  nodup : (grammars.map (·.id)).Nodup
  checked : ∀ g ∈ grammars, g.Checked grammars

/-- Every rule has its number, and whatever else has one is a root. -/
structure Numbered (c : Composite) (grammars : List Grammar) : Prop where
  rule : ∀ g ∈ grammars, ∀ r ∈ g.rules, nonterminalOf g r ∈ c.nonterminals
  only : ∀ n ∈ c.nonterminals, n.isRoot = true ∨
    ∃ g ∈ grammars, ∃ r ∈ g.rules, n = nonterminalOf g r

theorem numbered_of_toList (roots : List Grammar)
    (h : c.nonterminals.toList = grammars.flatMap nonterminalsOf ++ roots.map rootOf) :
    c.Numbered grammars := by
  refine ⟨fun g hg r hr => ?_, fun n hn => ?_⟩
  · rw [← Array.mem_toList_iff, h]
    exact List.mem_append_left _ (List.mem_flatMap.mpr ⟨g, hg, List.mem_map.mpr ⟨r, hr, rfl⟩⟩)
  · rw [← Array.mem_toList_iff, h] at hn
    rcases List.mem_append.mp hn with hn | hn
    · obtain ⟨g, hg, hn⟩ := List.mem_flatMap.mp hn
      obtain ⟨r, hr, rfl⟩ := List.mem_map.mp hn
      exact .inr ⟨g, hg, r, hr, rfl⟩
    · obtain ⟨g, _, rfl⟩ := List.mem_map.mp hn
      exact .inl rfl

/-- **The number of a rule is found**, and it is that of the rule. -/
theorem ruleNumber?_isRule (hv : Validated grammars) (hc : c.Numbered grammars)
    (hg : g ∈ grammars) {name : String} (h : g.hasRule name = true) :
    ∃ id, c.ruleNumber? g.id name = some id ∧ c.IsRule g name id := by
  obtain ⟨r, hr, rfl⟩ := Grammar.hasRule_eq_true.mp h
  cases hnum : c.ruleNumber? g.id r.name with
  | none =>
    have hnot := Array.findIdx?_eq_none_iff.mp hnum _ (hc.rule g hg r hr)
    simp [nonterminalOf] at hnot
  | some id =>
    obtain ⟨hlt, hmatch, _⟩ := Array.findIdx?_eq_some_iff_getElem.mp hnum
    simp only [Bool.and_eq_true, beq_iff_eq, Bool.not_eq_true'] at hmatch
    obtain ⟨⟨hgrammar, hname⟩, hroot⟩ := hmatch
    -- What has been found is a rule of a grammar of this name, and there is only one.
    rcases hc.only _ (Array.getElem_mem hlt) with hr' | ⟨g', hg', r', hr', heq⟩
    · rw [hroot] at hr'
      cases hr'
    · rw [heq] at hgrammar hname
      obtain rfl : g' = g := List.inj_on_of_nodup_map hv.nodup hg' hg hgrammar
      exact ⟨id, rfl, r', hr', hname, by rw [Array.getElem?_eq_getElem hlt, heq]⟩

/-! ## Lowering -/

theorem slotNumber_denotes (hv : Validated grammars) (hc : c.Numbered grammars)
    (hg : g ∈ grammars) {name : String} (h : g.Knows (.slot name)) :
    ∃ id, slotNumber grammars c g name = .ok id ∧ c.Denotes grammars g (.slot name) (.n id) := by
  obtain ⟨slot, hslot⟩ := Option.isSome_iff_exists.mp h
  obtain ⟨target, htarget, hrule⟩ := (hv.checked g hg).slots slot (List.mem_of_find?_eq_some hslot)
  have hmem : target ∈ grammars := List.mem_of_find?_eq_some htarget
  have hthere : target.hasRule (slot.rule.getD target.start) = true := by
    cases hr : slot.rule with
    | none => exact (hv.checked target hmem).hasStart
    | some rule => exact hrule rule hr
  obtain ⟨id, hnum, hid⟩ := ruleNumber?_isRule hv hc hmem hthere
  refine ⟨id, ?_, .slot hslot htarget hid⟩
  unfold findGrammar? at htarget
  unfold slotNumber
  rw [hslot]
  dsimp only
  rw [htarget]
  dsimp only
  rw [hnum]

theorem lowerSymbol_denotes (hv : Validated grammars) (hc : c.Numbered grammars)
    (hg : g ∈ grammars) (rule : String) {s : Symbol} (hs : g.Knows s) :
    ∃ sym d, lowerSymbol grammars g rule c s = .ok (sym, d) ∧ Grows c d ∧ Knows c d ∧
      d.Denotes grammars g s sym := by
  cases s with
  | terminal t =>
    obtain ⟨hknows, hfound⟩ := number_knows c t
    exact ⟨_, _, rfl, (number_grows c t).1, hknows, .terminal hfound⟩
  | rule name =>
    obtain ⟨id, hnum, hid⟩ := ruleNumber?_isRule hv hc hg hs
    refine ⟨.n id, c, ?_, Grows.refl c, Knows.refl c, .rule hid⟩
    unfold lowerSymbol
    dsimp only
    rw [hnum]
  | slot name =>
    obtain ⟨id, hnum, hid⟩ := slotNumber_denotes hv hc hg hs
    refine ⟨.n id, c, ?_, Grows.refl c, Knows.refl c, hid⟩
    unfold lowerSymbol
    dsimp only
    rw [hnum]
    rfl

theorem lowerSymbols_denotes (hv : Validated grammars) (hc : c.Numbered grammars)
    (hg : g ∈ grammars) (rule : String) {ss : List Symbol} (hss : ∀ s ∈ ss, g.Knows s)
    (done : List Sym) :
    ∃ syms d, lowerSymbols grammars g rule c done ss = .ok (done.reverse ++ syms, d) ∧
      Grows c d ∧ Knows c d ∧ List.Forall₂ (d.Denotes grammars g) ss syms := by
  induction ss generalizing c done with
  | nil => exact ⟨[], c, by simp [lowerSymbols], Grows.refl c, Knows.refl c, .nil⟩
  | cons s ss ih =>
    obtain ⟨sym, e, hlower, hgrows, hknows, hsym⟩ :=
      lowerSymbol_denotes hv hc hg rule (hss s List.mem_cons_self)
    have he : e.Numbered grammars := by
      refine ⟨fun g hg r hr => ?_, fun n hn => hc.only n (hgrows.nonterminals ▸ hn)⟩
      rw [hgrows.nonterminals]
      exact hc.rule g hg r hr
    obtain ⟨syms, d, hrest, hgrows', hknows', hsyms⟩ :=
      ih he (fun s hs => hss s (List.mem_cons_of_mem _ hs)) (sym :: done)
    refine ⟨sym :: syms, d, ?_, hgrows.trans hgrows', hknows.trans hknows',
      .cons (hsym.mono hknows') hsyms⟩
    unfold lowerSymbols
    rw [hlower]
    show lowerSymbols grammars g rule e (sym :: done) ss = _
    rw [hrest, List.reverse_cons, List.append_assoc, List.singleton_append]

/-- **A level is missing**, and a fault says where. -/
inductive LacksLevel (levels : MergedLevels) (grammars : List Grammar) : CompositionFault → Prop
  /-- The level that is named for an alternative does not exist. -/
  | undefined {g : Grammar} {r : Rule} {a : Alternative} {level : String}
      (h : (g, r, a) ∈ alternativesOf grammars) (hlevel : a.level = some level)
      (hnone : levels.table.indexOf? level = none) :
      LacksLevel levels grammars (.undefinedLevel g.id level)
  /-- An alternative joins two operands and is on no level. -/
  | missing {g : Grammar} {r : Rule} {a : Alternative}
      (h : (g, r, a) ∈ alternativesOf grammars) (hbinary : a.binary = true)
      (hnone : precedenceOf levels g.id a = .ok none) :
      LacksLevel levels grammars (.missingPrecedence g.id r.name)

/-- What has become of some alternatives, while there are no roots. -/
structure Partway (grammars : List Grammar) (levels : MergedLevels)
    (done : List (Grammar × Rule × Alternative)) (c : Composite) : Prop where
  nonterminals : c.nonterminals.toList = grammars.flatMap nonterminalsOf
  levels : c.levels = levels
  productions : List.Forall₂ (c.Lowers grammars) done c.productions.toList

theorem Partway.numbered {levels : MergedLevels} {done : List (Grammar × Rule × Alternative)}
    (h : Partway grammars levels done c) : c.Numbered grammars :=
  numbered_of_toList [] (by rw [h.nonterminals, List.map_nil, List.append_nil])

theorem lowerAlternative_partway (hv : Validated grammars) {levels : MergedLevels}
    {done : List (Grammar × Rule × Alternative)} {r : Rule} {a : Alternative} {lhs : Nat}
    (hg : g ∈ grammars) (hr : r ∈ g.rules) (ha : a ∈ r.alternatives)
    (hc : Partway grammars levels done c) (hlhs : c.IsRule g r.name lhs) :
    Yields (LacksLevel levels grammars) (Partway grammars levels (done ++ [(g, r, a)]))
      (lowerAlternative grammars g r.name lhs c a) := by
  have hmem : (g, r, a) ∈ alternativesOf grammars :=
    List.mem_flatMap.mpr ⟨g, hg, List.mem_flatMap.mpr ⟨r, hr, List.mem_map.mpr ⟨a, ha, rfl⟩⟩⟩
  obtain ⟨syms, d, hlower, hgrows, hknows, hsyms⟩ := lowerSymbols_denotes hv hc.numbered hg r.name
    ((hv.checked g hg).symbols r hr a ha) []
  obtain rfl : d.levels = levels := hknows.levels.trans hc.levels
  unfold lowerAlternative
  rw [hlower]
  show Yields _ _ ((precedenceOf d.levels g.id a) >>= fun precedence => _)
  cases hprec : precedenceOf d.levels g.id a with
  | error fault =>
    -- Only a level that is named can be missing here.
    unfold precedenceOf at hprec
    split at hprec
    · cases hprec
    · next level hlevel =>
      split at hprec
      · cases hprec
      · next hnone =>
        cases hprec
        exact .undefined hmem hlevel hnone
  | ok precedence =>
    show Yields _ _ (if a.binary && precedence.isNone then _ else _)
    split
    · next hmissing =>
      obtain ⟨hbinary, hnone⟩ := Bool.and_eq_true_iff.mp hmissing
      obtain rfl := Option.isNone_iff_eq_none.mp hnone
      exact .missing hmem hbinary hprec
    · let p : Production := ⟨lhs, syms, g.id, precedence, a.directive, a.binary⟩
      have hk : Knows d { d with productions := d.productions.push p } := ⟨id, id, rfl⟩
      have hold : List.Forall₂ (d.Lowers grammars) done d.productions.toList := by
        rw [hgrows.productions]
        exact hc.productions.imp fun _ _ h => h.mono hknows
      have hnew : d.Lowers grammars (g, r, a) p := ⟨hlhs.mono hknows, hsyms, rfl, hprec, rfl, rfl⟩
      refine ⟨?_, rfl, ?_⟩
      · show d.nonterminals.toList = _
        rw [hgrows.nonterminals, hc.nonterminals]
      · show List.Forall₂ _ _ (d.productions.push p).toList
        rw [Array.toList_push]
        exact List.rel_append (hold.imp fun _ _ h => h.mono hk) (.cons (hnew.mono hk) .nil)

theorem lowerRule_partway (hv : Validated grammars) {levels : MergedLevels}
    {done : List (Grammar × Rule × Alternative)} {r : Rule} (hg : g ∈ grammars) (hr : r ∈ g.rules)
    (hc : Partway grammars levels done c) :
    Yields (LacksLevel levels grammars)
      (Partway grammars levels (done ++ r.alternatives.map fun a => (g, r, a)))
      (lowerRule grammars g c r) := by
  obtain ⟨lhs, hnum, hlhs⟩ := ruleNumber?_isRule hv hc.numbered hg
    (Grammar.hasRule_eq_true.mpr ⟨r, hr, rfl⟩)
  unfold lowerRule
  rw [hnum]
  refine Yields.foldlM (R := fun as b => Partway grammars levels
    (done ++ as.map fun a => (g, r, a)) b) ?_ ?_
  · rw [List.map_nil, List.append_nil]
    exact hc
  · intro as a rest b has hb
    have ha : a ∈ r.alternatives := has ▸ List.mem_append_right _ List.mem_cons_self
    have hsame : b.nonterminals = c.nonterminals :=
      Array.toList_inj.mp (hb.nonterminals.trans hc.nonterminals.symm)
    have hlhs' : b.IsRule g r.name lhs := by
      obtain ⟨r', hr', hname, hid⟩ := hlhs
      exact ⟨r', hr', hname, hsame ▸ hid⟩
    refine (lowerAlternative_partway hv hg hr ha hb hlhs').mono fun d hd => ?_
    rw [List.map_append, ← List.append_assoc]
    exact hd

theorem lowerGrammar_partway (hv : Validated grammars) {levels : MergedLevels}
    {done : List (Grammar × Rule × Alternative)} (hg : g ∈ grammars)
    (hc : Partway grammars levels done c) :
    Yields (LacksLevel levels grammars) (Partway grammars levels (done ++ alternativesOf [g]))
      (lowerGrammar grammars c g) := by
  have hall : alternativesOf [g] =
      g.rules.flatMap fun r => r.alternatives.map fun a => (g, r, a) := by simp [alternativesOf]
  rw [hall]
  unfold lowerGrammar
  refine Yields.foldlM (R := fun (rs : List Rule) b => Partway grammars levels
    (done ++ rs.flatMap fun r => r.alternatives.map fun a => (g, r, a)) b) ?_ ?_
  · rw [List.flatMap_nil, List.append_nil]
    exact hc
  · intro rs r rest b hrs hb
    have hr : r ∈ g.rules := hrs ▸ List.mem_append_right _ List.mem_cons_self
    refine (lowerRule_partway hv hg hr hb).mono fun d hd => ?_
    rw [List.flatMap_append, List.flatMap_singleton, ← List.append_assoc]
    exact hd

/-! ## Roots -/

/-- What has become of the whole texts of some grammars. -/
structure RootedFor (grammars : List Grammar) (c : Composite) (done : List Grammar)
    (d : Composite) : Prop where
  knows : Knows c d
  nonterminals : d.nonterminals.toList = grammars.flatMap nonterminalsOf ++ done.map rootOf
  productions : ∃ roots, d.productions.toList = c.productions.toList ++ roots ∧
    List.Forall₂ d.LowersRoot done roots

theorem addRoot_rootedFor (hv : Validated grammars) {done : List Grammar} (hg : g ∈ grammars)
    (hd : RootedFor grammars c done d) :
    Yields (fun _ => False) (RootedFor grammars c (done ++ [g])) (d.addRoot g) := by
  obtain ⟨start, hnum, hstart⟩ := ruleNumber?_isRule hv (numbered_of_toList done hd.nonterminals) hg
    (hv.checked g hg).hasStart
  obtain ⟨roots, hroots, hlowers⟩ := hd.productions
  let p : Production := ⟨d.nonterminals.size, [.n start], g.id, none, none, false⟩
  let e : Composite := { d with
    nonterminals := d.nonterminals.push (rootOf g)
    productions := d.productions.push p
    roots := d.roots ++ [⟨g.id, d.productions.size, start⟩]
    resync := d.resync ++ [(g.id, g.resync)] }
  have he : d.addRoot g = .ok e := by
    unfold addRoot
    rw [hnum]
  have hk : Knows d e := by
    refine ⟨id, fun {id n} hn => ?_, rfl⟩
    obtain ⟨hlt, hn⟩ := Array.getElem?_eq_some_iff.mp hn
    show (d.nonterminals.push (rootOf g))[id]? = some n
    rw [Array.getElem?_push_lt hlt, hn]
  have hnew : e.LowersRoot g p :=
    ⟨Array.getElem?_push_size, ⟨start, rfl, hstart.mono hk⟩, rfl, rfl, rfl, rfl⟩
  rw [he]
  refine ⟨hd.knows.trans hk, ?_, roots ++ [p], ?_, ?_⟩
  · show (d.nonterminals.push (rootOf g)).toList = _
    rw [Array.toList_push, hd.nonterminals, List.map_append, List.append_assoc]
    rfl
  · show (d.productions.push p).toList = _
    rw [Array.toList_push, hroots, List.append_assoc]
  · exact List.rel_append (hlowers.imp fun _ _ h => h.mono hk) (.cons hnew .nil)

/-- No two rules or roots have one name in one grammar. -/
theorem nonterminals_nodup (hv : Validated grammars) :
    (grammars.flatMap nonterminalsOf ++ grammars.map rootOf).Nodup := by
  have hroots : (grammars.map rootOf).Nodup := by
    refine List.Nodup.of_map Nonterminal.grammar ?_
    rw [List.map_map]
    exact hv.nodup
  have hrules : (grammars.flatMap nonterminalsOf).Nodup := by
    refine List.nodup_flatMap.mpr ⟨fun g hg => ?_, ?_⟩
    · refine List.Nodup.of_map Nonterminal.name ?_
      unfold nonterminalsOf
      rw [List.map_map]
      exact (hv.checked g hg).names_nodup
    · -- Rules of two grammars differ in the grammar.
      refine (List.pairwise_map.mp hv.nodup).imp fun {g g'} hne n hn hn' => hne ?_
      obtain ⟨r, _, rfl⟩ := List.mem_map.mp hn
      obtain ⟨r', _, heq⟩ := List.mem_map.mp hn'
      exact (congrArg Nonterminal.grammar heq).symm
  refine List.nodup_append.mpr ⟨hrules, hroots, fun n hn n' hn' heq => ?_⟩
  obtain ⟨g, _, hn⟩ := List.mem_flatMap.mp hn
  obtain ⟨r, _, rfl⟩ := List.mem_map.mp hn
  obtain ⟨g', _, rfl⟩ := List.mem_map.mp hn'
  exact Bool.false_ne_true (congrArg Nonterminal.isRoot heq)

/-- **Lowering misses nothing but levels**, and what it makes says what the grammars say. -/
theorem lower_yields (hv : Validated grammars) (levels : MergedLevels) :
    Yields (LacksLevel levels grammars)
      (fun c => c.nonterminals.toList = grammars.flatMap nonterminalsOf ++ grammars.map rootOf ∧
        ∃ rules roots, c.productions.toList = rules ++ roots ∧
          List.Forall₂ (c.Lowers grammars) (alternativesOf grammars) rules ∧
          List.Forall₂ c.LowersRoot grammars roots)
      (lower grammars levels) := by
  unfold lower
  refine Yields.bind (P := Partway grammars levels (alternativesOf grammars)) ?_ fun c hc => ?_
  · refine Yields.foldlM (R := fun gs b => Partway grammars levels (alternativesOf gs) b) ?_ ?_
    · exact ⟨List.toList_toArray, rfl, .nil⟩
    · intro gs g rest b hgs hb
      have hg : g ∈ grammars := hgs ▸ List.mem_append_right _ List.mem_cons_self
      refine (lowerGrammar_partway hv hg hb).mono fun d hd => ?_
      have happend : alternativesOf (gs ++ [g]) = alternativesOf gs ++ alternativesOf [g] :=
        List.flatMap_append
      rw [happend]
      exact hd
  · have hroots : Yields (fun _ => False) (RootedFor grammars c grammars)
        (grammars.foldlM addRoot c) := by
      refine Yields.foldlM (R := fun gs b => RootedFor grammars c gs b) ?_ ?_
      · refine ⟨Knows.refl c, ?_, [], (List.append_nil _).symm, .nil⟩
        rw [hc.nonterminals, List.map_nil, List.append_nil]
      · intro gs g rest b hgs hb
        exact addRoot_rootedFor hv (hgs ▸ List.mem_append_right _ List.mem_cons_self) hb
    cases hfold : grammars.foldlM addRoot c with
    | error fault =>
      rw [hfold] at hroots
      exact hroots.elim
    | ok d =>
      rw [hfold] at hroots
      obtain ⟨roots, hproductions, hlowers⟩ := hroots.productions
      exact ⟨hroots.nonterminals, c.productions.toList, roots, hproductions,
        hc.productions.imp fun _ _ h => h.mono hroots.knows, hlowers⟩

end Composite

/-! ## Composing -/

/-- The grammars of a composition are validated when every check passes. -/
theorem distinctGrammars_validated {grammars : List Grammar}
    (h : (distinctGrammars grammars).forM (Grammar.check (distinctGrammars grammars)) = .ok ()) :
    Composite.Validated (distinctGrammars grammars) :=
  ⟨distinctGrammars_nodup grammars, fun g hg => Grammar.check_checked (forM_eq_ok h g hg)⟩

theorem compositeOf_faithful {grammars : List Grammar} {c : Composite}
    (h : compositeOf grammars = .ok c) : c.Faithful (distinctGrammars grammars) := by
  obtain ⟨hchecks, levels, _, hlower⟩ := compositeOf_eq_ok h
  have hv := distinctGrammars_validated hchecks
  have hyields := Composite.lower_yields hv levels
  rw [hlower] at hyields
  obtain ⟨hnonterminals, hproductions⟩ := hyields
  exact ⟨hnonterminals, hnonterminals ▸ Composite.nonterminals_nodup hv, hproductions,
    (compositeOf_wellFormed h).productions⟩

/-- **Composing is faithful**, and once the grammars have been checked, only levels can be missing.
    Of grammars with one name the first is taken. -/
theorem compose_faithful (grammars : List Grammar) :
    (∀ levels, embeddingCycle? (distinctGrammars grammars) = none →
      (distinctGrammars grammars).forM (Grammar.check (distinctGrammars grammars)) = .ok () →
      mergeLevels (distinctGrammars grammars) = .ok levels →
      ∀ fault, Composite.lower (distinctGrammars grammars) levels = .error fault →
        Composite.LacksLevel levels (distinctGrammars grammars) fault) ∧
    (∀ t, compose grammars = .ok t → t.toComposite.Faithful (distinctGrammars grammars)) ∧
    distinctGrammars grammars = (grammars.zipIdx.filter fun p =>
      grammars.findIdx (·.id == p.1.id) == p.2).map (·.1) := by
  refine ⟨fun levels _ hchecks _ fault hfault => ?_, fun t ht => ?_, distinctGrammars_eq grammars⟩
  · have hyields := Composite.lower_yields (distinctGrammars_validated hchecks) levels
    rw [hfault] at hyields
    exact hyields
  · obtain ⟨c, hc, rfl⟩ := exists_compositeOf ht
    exact compositeOf_faithful hc

/-- A grammar of names, each with something of another grammar behind it. -/
def Grammar.namedHoles : Grammar :=
  ⟨⟨"named"⟩, "named", [⟨"named", [.plain [.rule "_name", .slot "hole"]]⟩,
    ⟨"_name", [.plain [.terminal (.kind .identifier)]]⟩], [], [⟨"hole", ⟨"sums"⟩, none⟩], [], [], []⟩

/-- A grammar of numbers and sums, whose operator is on a level if there is one. -/
def Grammar.sums (levels : List Level) : Grammar :=
  ⟨⟨"sums"⟩, "sum", [⟨"sum", [.plain [.terminal (.kind .number)],
    ⟨[.rule "sum", .terminal (.sym "+"), .rule "sum"], none, true, none⟩]⟩], [], [], levels, [], []⟩

/-- **Two grammars, one of them inside the other and given twice.**  Without its level the operator
    is missed. -/
theorem compose_faithful_sums :
    (∃ t, compose [.namedHoles, .sums [⟨"+", .left, ["+"]⟩], .sums []] = .ok t ∧
      t.toComposite.Faithful [.namedHoles, .sums [⟨"+", .left, ["+"]⟩]]) ∧
    ∃ levels, mergeLevels [.namedHoles, .sums []] = .ok levels ∧
      Composite.LacksLevel levels [.namedHoles, .sums []] (.missingPrecedence ⟨"sums"⟩ "sum") := by
  refine ⟨?_, MergedLevels.mk .empty [(⟨"named"⟩, []), (⟨"sums"⟩, [])], by cbv, ?_⟩
  · have hok : (compose [.namedHoles, .sums [⟨"+", .left, ["+"]⟩], .sums []]).toOption.isSome =
        true := by cbv
    obtain ⟨t, ht⟩ := Option.isSome_iff_exists.mp hok
    have ht := compose_of_toOption ht
    exact ⟨t, ht, (compose_faithful _).2.1 t ht⟩
  · exact (compose_faithful [.namedHoles, .sums []]).1 _ (by cbv) (by cbv) (by cbv) _ (by cbv)

end LayeredSyntax
