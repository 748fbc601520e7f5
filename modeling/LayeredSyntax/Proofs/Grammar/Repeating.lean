/-
  REPEATED ALTERNATIVES — which finished rules have an alternative twice.

  An alternative that a rule has twice can be finished in two ways wherever it can be finished at all,
  and nothing that is noted at an alternative tells the two apart.  Parts that overlap, such as two
  optional ones behind each other, give the same sequence more than once.

  1. **A rule that is written down never repeats an alternative** (`RuleDraft.nodup_finishShapes`): its
     alternatives are added one by one, and those that are there already are left out.
  2. A helper takes its sequences as they come.  So **it repeats an alternative exactly if they are not
     distinct** (`Repetition.nodup_helper_iff`): if two elements are the same, or two separators with
     an element behind them, or if an element begins with the helper itself and looks like a further
     round.

  Together (`RuleDraft.finishAll_nodup_iff`): a grammar is free of repeated alternatives exactly if all
  repetitions in it are distinct.  Not all are (`RuleDraft.finishAll_repeats`).  The last of the three
  cases needs a rule that is written with the name of a helper, since an expansion itself names later
  helpers only (`Phrase.symbol_of_mem_sequences`); without one, and with single separators, the elements
  decide alone (`RuleDraft.finishAll_nodup_of_single`).
-/
import LayeredSyntax.Proofs.Grammar.Expanding

namespace LayeredSyntax

/-! ## Repetitions -/

/-- A repetition that a helper is made for, with what its element and its separator are expanded to. -/
structure Repetition where
  name : String
  elements : List (List Symbol)
  separators : List (List Symbol)

namespace Repetition

/-- The helper of a repetition. -/
def helper (r : Repetition) : Rule := Phrase.helperRule r.name r.elements r.separators

/-- What stands behind the helper in its further rounds. -/
def rounds (r : Repetition) : List (List Symbol) := Phrase.product r.separators r.elements

/-- **Whether nothing in a repetition is spelled twice.** -/
structure Distinct (r : Repetition) : Prop where
  elements : r.elements.Nodup
  rounds : r.rounds.Nodup
  /-- No element looks like a further round. -/
  apart : ∀ x ∈ r.rounds, .rule r.name :: x ∉ r.elements

theorem helper_alternatives (r : Repetition) : r.helper.alternatives =
    (r.elements ++ r.rounds.map (.rule r.name :: ·)).map Alternative.plain := by
  unfold helper Phrase.helperRule rounds Phrase.product
  simp only [List.flatMap_map, List.map_flatMap, List.map_map]
  rfl

/-- **A helper repeats no alternative exactly if its repetition is distinct.** -/
theorem nodup_helper_iff (r : Repetition) : r.helper.alternatives.Nodup ↔ r.Distinct := by
  have hplain : Function.Injective Alternative.plain := fun _ _ h => congrArg Alternative.symbols h
  rw [helper_alternatives, List.nodup_map_iff hplain, List.nodup_append,
    List.nodup_map_iff List.cons_injective]
  constructor
  · rintro ⟨helements, hrounds, hapart⟩
    exact ⟨helements, hrounds, fun x hx h => hapart _ h _ (List.mem_map_of_mem hx) rfl⟩
  · rintro ⟨helements, hrounds, hapart⟩
    refine ⟨helements, hrounds, fun e he y hy heq => ?_⟩
    obtain ⟨x, hx, rfl⟩ := List.mem_map.mp hy
    exact hapart x hx (heq ▸ he)

/-- With a single separator, which may be empty, it is enough that the elements are distinct and that
    none of them begins with the helper. -/
theorem distinct_of_single {r : Repetition} {separator : List Symbol}
    (hseparators : r.separators = [separator]) (helements : r.elements.Nodup)
    (hfree : ∀ x, .rule r.name :: x ∉ r.elements) : r.Distinct := by
  refine ⟨helements, ?_, fun x _ => hfree x⟩
  have hrounds : r.rounds = r.elements.map (separator ++ ·) := by
    rw [rounds, hseparators]
    exact List.flatMap_singleton _ _
  rw [hrounds]
  exact helements.map (List.append_right_injective separator)

end Repetition

/-- **The repetitions of a phrase**, in the order of its helpers. -/
def Phrase.repetitions (owner : String) : Phrase → Nat → List Repetition
  | .empty, _ | .symbol _, _ | .never, _ => []
  | .opt a, n => a.repetitions owner n
  | .seq a b, n | .either a b, n => b.repetitions owner (n + a.repeats) ++ a.repetitions owner n
  | .many a, n =>
    let name := helperName owner (n + 1)
    ⟨name, a.sequences name (n + 1), [[]]⟩ :: a.repetitions name (n + 1)
  | .list a b, n =>
    let name := helperName owner (n + 1)
    ⟨name, a.sequences name (n + 1), b.sequences name (n + 1 + a.repeats)⟩ ::
      (b.repetitions name (n + 1 + a.repeats) ++ a.repetitions name (n + 1))

/-- Each helper of a phrase is made for one of its repetitions. -/
theorem Phrase.helpers_eq_map (owner : String) (p : Phrase) (n : Nat) :
    p.helpers owner n = (p.repetitions owner n).map Repetition.helper := by
  induction p generalizing owner n with
  | empty | symbol | never => rfl
  | opt a ih => exact ih owner n
  | seq a b iha ihb | either a b iha ihb =>
    rw [helpers, repetitions, List.map_append, iha, ihb]
  | many a ih =>
    rw [helpers, repetitions, List.map_cons, ← ih]
    rfl
  | list a b iha ihb =>
    rw [helpers, repetitions, List.map_cons, List.map_append, ← iha, ← ihb]
    rfl

namespace Phrase

/-- The symbols of a sequence are written in the phrase or name helpers with later numbers. -/
theorem symbol_of_mem_sequences {owner : String} {p : Phrase} {n : Nat} {x : List Symbol} {s : Symbol}
    (hx : x ∈ p.sequences owner n) (hs : s ∈ x) :
    s ∈ p.symbols ∨ ∃ other k, n < k ∧ s = .rule (helperName other k) := by
  induction p generalizing owner n x with
  | empty =>
    obtain rfl := List.mem_singleton.mp hx
    cases hs
  | symbol t =>
    obtain rfl := List.mem_singleton.mp hx
    exact .inl hs
  | never => cases hx
  | opt a ih =>
    rcases List.mem_cons.mp hx with rfl | hx
    · cases hs
    · exact ih hx hs
  | seq a b iha ihb =>
    obtain ⟨y, hy, hx⟩ := List.mem_flatMap.mp hx
    obtain ⟨z, hz, rfl⟩ := List.mem_map.mp hx
    rcases List.mem_append.mp hs with hs | hs
    · exact (iha hy hs).imp_left (List.mem_append_left _)
    · rcases ihb hz hs with hs | ⟨other, k, hk, rfl⟩
      · exact .inl (List.mem_append_right _ hs)
      · exact .inr ⟨other, k, by omega, rfl⟩
  | either a b iha ihb =>
    rcases List.mem_append.mp hx with hx | hx
    · exact (iha hx hs).imp_left (List.mem_append_left _)
    · rcases ihb hx hs with hs | ⟨other, k, hk, rfl⟩
      · exact .inl (List.mem_append_right _ hs)
      · exact .inr ⟨other, k, by omega, rfl⟩
  | many | list =>
    obtain rfl := List.mem_singleton.mp hx
    exact .inr ⟨owner, n + 1, Nat.lt_succ_self n, List.mem_singleton.mp hs⟩

/-- So no sequence names an earlier helper that the phrase is not written with. -/
theorem notMem_of_mem_sequences {owner other : String} {p : Phrase} {n k : Nat} {x : List Symbol}
    (hx : x ∈ p.sequences owner n) (hk : k ≤ n) (hfree : .rule (helperName other k) ∉ p.symbols) :
    .rule (helperName other k) ∉ x := by
  intro hs
  obtain hs | ⟨_, l, hl, hname⟩ := symbol_of_mem_sequences hx hs
  · exact hfree hs
  · have := number_eq_of_helperName (Symbol.rule.inj hname)
    omega

/-- **No element names its own helper**, unless the phrase is written with that name. -/
theorem notMem_of_mem_elements {owner : String} {p : Phrase} {n : Nat} {e : Repetition}
    {x : List Symbol} (he : e ∈ p.repetitions owner n) (hfree : .rule e.name ∉ p.symbols)
    (hx : x ∈ e.elements) : .rule e.name ∉ x := by
  induction p generalizing owner n with
  | empty | symbol | never => cases he
  | opt a ih => exact ih he hfree
  | seq a b iha ihb | either a b iha ihb =>
    obtain ⟨hafree, hbfree⟩ := not_or.mp (List.mem_append.not.mp hfree)
    rcases List.mem_append.mp he with he | he
    · exact ihb he hbfree
    · exact iha he hafree
  | many a ih =>
    rcases List.mem_cons.mp he with rfl | he
    · exact notMem_of_mem_sequences hx (Nat.le_refl _) hfree
    · exact ih he hfree
  | list a b iha ihb =>
    obtain ⟨hafree, hbfree⟩ := not_or.mp (List.mem_append.not.mp hfree)
    rcases List.mem_cons.mp he with rfl | he
    · exact notMem_of_mem_sequences hx (Nat.le_refl _) hafree
    · rcases List.mem_append.mp he with he | he
      · exact ihb he hbfree
      · exact iha he hafree

end Phrase

/-! ## Finished rules -/

namespace RuleDraft

/-- **What a rule collects has no repetitions**, if there were none before. -/
theorem nodup_finishShapes {owner : String} {done : List Alternative} (hdone : done.Nodup)
    (shapes : List Shape) (h : Phrase.Helpers) : (finishShapes owner done shapes h).1.Nodup := by
  induction shapes generalizing done h with
  | nil => exact hdone
  | cons s rest ih =>
    rw [finishShapes]
    exact ih (nodup_foldl_addNew hdone) _

/-- **The repetitions of some drafts**, when `n` helpers have been made before. -/
def repetitions : List RuleDraft → Nat → List Repetition
  | [], _ => []
  | r :: rest, n =>
    (choiceOf r.shapes).repetitions r.name n ++ repetitions rest (n + (choiceOf r.shapes).repeats)

/-- Each of them is one of the phrases of a draft. -/
theorem exists_of_mem_repetitions {rs : List RuleDraft} {n : Nat} {e : Repetition}
    (he : e ∈ repetitions rs n) :
    ∃ r ∈ rs, ∃ k, e ∈ (choiceOf r.shapes).repetitions r.name k := by
  induction rs generalizing n with
  | nil => cases he
  | cons r rs ih =>
    rcases List.mem_append.mp he with he | he
    · exact ⟨r, List.mem_cons_self, n, he⟩
    · obtain ⟨other, hother, k, he⟩ := ih he
      exact ⟨other, List.mem_cons_of_mem _ hother, k, he⟩

/-- One more rule: only the helpers made for it can repeat an alternative. -/
theorem nodup_finish_iff (h : Phrase.Helpers) (r : RuleDraft) :
    (∀ rule ∈ (r.finish h).rules, rule.alternatives.Nodup) ↔
      (∀ rule ∈ h.rules, rule.alternatives.Nodup) ∧
        ∀ e ∈ (choiceOf r.shapes).repetitions r.name h.count, e.Distinct := by
  have hrules : (r.finish h).rules = ⟨r.name, (finishShapes r.name [] r.shapes h).1⟩ ::
      (((choiceOf r.shapes).repetitions r.name h.count).map Repetition.helper ++ h.rules) := by
    rw [← Phrase.helpers_eq_map]
    show ⟨r.name, _⟩ :: (finishShapes r.name [] r.shapes h).2.rules = _
    rw [finishShapes_helpers]
  have hwritten : (finishShapes r.name [] r.shapes h).1.Nodup := nodup_finishShapes List.nodup_nil _ _
  rw [hrules, List.forall_mem_cons, List.forall_mem_append, List.forall_mem_map]
  simp only [Repetition.nodup_helper_iff]
  exact ⟨fun ⟨_, hhelpers, hbefore⟩ => ⟨hbefore, hhelpers⟩,
    fun ⟨hbefore, hhelpers⟩ => ⟨hwritten, hhelpers, hbefore⟩⟩

theorem finish_count (h : Phrase.Helpers) (r : RuleDraft) :
    (r.finish h).count = h.count + (choiceOf r.shapes).repeats := by
  show (finishShapes r.name [] r.shapes h).2.count = _
  rw [finishShapes_helpers]

/-- All rules of some drafts, one after the other. -/
theorem nodup_foldl_finish_iff (rs : List RuleDraft) (h : Phrase.Helpers) :
    (∀ rule ∈ (rs.foldl finish h).rules, rule.alternatives.Nodup) ↔
      (∀ rule ∈ h.rules, rule.alternatives.Nodup) ∧ ∀ e ∈ repetitions rs h.count, e.Distinct := by
  induction rs generalizing h with
  | nil => simp [repetitions]
  | cons r rs ih =>
    rw [List.foldl_cons, ih, nodup_finish_iff, finish_count, repetitions, List.forall_mem_append,
      and_assoc]

/-- **A grammar repeats no alternative exactly if its repetitions are distinct**, however options,
    choices and repetitions are nested in its rules. -/
theorem finishAll_nodup_iff (rs : List RuleDraft) :
    (∀ rule ∈ finishAll rs, rule.alternatives.Nodup) ↔ ∀ e ∈ repetitions rs 0, e.Distinct := by
  unfold finishAll
  simp only [List.mem_reverse]
  rw [nodup_foldl_finish_iff]
  exact and_iff_right nofun

/-- **With single separators the elements decide alone**: if they are distinct in each repetition, no
    alternative is repeated, as long as no rule is written with the name of a helper. -/
theorem finishAll_nodup_of_single {rs : List RuleDraft}
    (hfree : ∀ r ∈ rs, ∀ e ∈ repetitions rs 0, .rule e.name ∉ (choiceOf r.shapes).symbols)
    (helements : ∀ e ∈ repetitions rs 0, e.elements.Nodup)
    (hseparators : ∀ e ∈ repetitions rs 0, ∃ separator, e.separators = [separator]) :
    ∀ rule ∈ finishAll rs, rule.alternatives.Nodup := by
  refine (finishAll_nodup_iff rs).mpr fun e he => ?_
  obtain ⟨separator, hseparator⟩ := hseparators e he
  obtain ⟨r, hr, n, hmade⟩ := exists_of_mem_repetitions he
  refine Repetition.distinct_of_single hseparator (helements e he) fun x hx => ?_
  exact Phrase.notMem_of_mem_elements hmade (hfree r hr e he) hx List.mem_cons_self

/-- **Not every grammar does**: a choice of the same keyword twice is one alternative of a rule, but its
    helper has it twice when it is repeated. -/
theorem finishAll_repeats :
    let body := [Phrase.oneOf [[Phrase.word "x"], [Phrase.word "x"]]]
    (finishAll [.plain "a" [body]]).map (·.alternatives.length) = [1] ∧
      ∃ rule ∈ finishAll [.plain "a" [[Phrase.many1 body]]], ¬ rule.alternatives.Nodup := by
  decide +kernel

end RuleDraft

end LayeredSyntax
