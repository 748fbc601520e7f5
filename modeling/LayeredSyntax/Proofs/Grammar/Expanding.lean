/-
  EXPANDING — a finished rule stands for the same rows of symbols as its draft.

  A phrase stands for rows of symbols by what it is: one phrase behind the other, one of two, once or more
  often (`Phrase.language`).  Its expansion is a list of sequences with names of helpers in them, and
  stands for what the sequences are rewritten to when the helpers made for it are opened (`standsFor`).

  1. Sequences multiply as languages do (`standsFor_product`).
  2. **The crux (`opened_helper`)**: a helper stands for an element and any number of separators with an
     element behind them.  It takes all of these in, because it is closed under one more round; and no
     more than these, because they are a meaning that every rule allows.
  3. By the structure of the phrase, with 2 for its repetitions, its sequences stand for its language
     (`Phrase.standsFor_sequences`).

  A finished rule collects the sequences of its shapes, each with what is noted at the shape
  (`RuleDraft.mem_finishShapes`), which gives the result (`RuleDraft.finish_language`).
-/
import LayeredSyntax.Proofs.Grammar.Helpers
import LayeredSyntax.Proofs.Grammar.Rewriting

namespace LayeredSyntax

open Computability

/-! ## What phrases stand for -/

namespace Phrase

/-- **The rows that a phrase stands for.** -/
def language : Phrase → Language Symbol
  | .empty => 1
  | .symbol s => {[s]}
  | .seq a b => a.language * b.language
  | .opt a => 1 + a.language
  | .never => 0
  | .either a b => a.language + b.language
  | .many a => a.language * a.language∗
  | .list a b => a.language * (b.language * a.language)∗

/-- The symbols that a phrase is written with. -/
def symbols : Phrase → List Symbol
  | .empty | .never => []
  | .symbol s => [s]
  | .opt a | .many a => a.symbols
  | .seq a b | .either a b | .list a b => a.symbols ++ b.symbols

/-- Phrases in a row. -/
theorem language_all (ps : List Phrase) : (all ps).language = (ps.map language).prod := by
  induction ps with
  | nil => rfl
  | cons p ps ih =>
    rw [List.map_cons, List.prod_cons, ← ih]
    rfl

/-- A choice of sequences. -/
theorem language_oneOf (pss : List (List Phrase)) :
    (oneOf pss).language = (pss.map fun ps => (all ps).language).sum := by
  induction pss with
  | nil => rfl
  | cons ps pss ih =>
    rw [List.map_cons, List.sum_cons, ← ih]
    rfl

end Phrase

/-! ## What sequences stand for -/

variable {rules : List Rule} {w : List Symbol}

/-- **The rows that one of some sequences is rewritten to.** -/
def standsFor (rules : List Rule) (xs : List (List Symbol)) : Language Symbol :=
  (xs.map (opened rules)).sum

theorem standsFor_cons (x : List Symbol) (xs : List (List Symbol)) :
    standsFor rules (x :: xs) = opened rules x + standsFor rules xs := List.sum_cons

theorem mem_standsFor {xs : List (List Symbol)} :
    w ∈ standsFor rules xs ↔ ∃ x ∈ xs, w ∈ opened rules x := by
  induction xs with
  | nil => simp [standsFor, Language.notMem_zero]
  | cons x xs ih => rw [standsFor_cons, Language.mem_add, ih, List.exists_mem_cons_iff]

theorem opened_le_standsFor {x : List Symbol} {xs : List (List Symbol)} (hx : x ∈ xs) :
    opened rules x ≤ standsFor rules xs := fun _ hw => mem_standsFor.mpr ⟨x, hx, hw⟩

theorem standsFor_append (xs ys : List (List Symbol)) :
    standsFor rules (xs ++ ys) = standsFor rules xs + standsFor rules ys := by
  unfold standsFor
  rw [List.map_append, List.sum_append]

theorem standsFor_singleton (x : List Symbol) : standsFor rules [x] = opened rules x :=
  List.sum_singleton

/-- A row in front of all sequences. -/
theorem standsFor_map_append (x : List Symbol) (ys : List (List Symbol)) :
    standsFor rules (ys.map (x ++ ·)) = opened rules x * standsFor rules ys := by
  induction ys with
  | nil => exact (mul_zero _).symm
  | cons y ys ih => rw [List.map_cons, standsFor_cons, standsFor_cons, ih, opened_append, mul_add]

/-- **Sequences multiply as languages do.** -/
theorem standsFor_product (xs ys : List (List Symbol)) :
    standsFor rules (Phrase.product xs ys) = standsFor rules xs * standsFor rules ys := by
  unfold Phrase.product
  induction xs with
  | nil => exact (zero_mul _).symm
  | cons x xs ih =>
    rw [List.flatMap_cons, standsFor_append, standsFor_map_append, ih, standsFor_cons, add_mul]

/-! ## Helpers -/

section

variable (honly : ∀ rule ∈ rules, ∀ other ∈ rules, rule.name = other.name → rule = other)
include honly

omit honly in
/-- The further rounds of a helper. -/
theorem mem_further {name : String} {elements separators : List (List Symbol)} {x : List Symbol} :
    x ∈ Phrase.product (separators.map (.rule name :: ·)) elements ↔
      ∃ separator ∈ separators, ∃ element ∈ elements,
        .rule name :: (separator ++ element) = x := by
  simp [Phrase.product]

/-- What the alternatives of a helper stand for, one round unrolled. -/
theorem opened_helper_eq {name : String} {elements separators : List (List Symbol)}
    (hrule : Phrase.helperRule name elements separators ∈ rules) :
    opened rules [.rule name] = standsFor rules elements +
      opened rules [.rule name] * (standsFor rules separators * standsFor rules elements) := by
  have hfurther : standsFor rules (Phrase.product (separators.map (.rule name :: ·)) elements) =
      opened rules [.rule name] * (standsFor rules separators * standsFor rules elements) := by
    rw [standsFor_product, ← mul_assoc]
    congr 1
    exact standsFor_map_append [.rule name] separators
  rw [← hfurther, ← standsFor_append]
  ext w
  rw [mem_standsFor]
  refine (mem_opened_rule hrule fun other hother => honly other hother _ hrule).trans ?_
  unfold Phrase.helperRule
  simp only [List.mem_map, exists_exists_and_eq_and]
  rfl

/-- **A helper stands for its elements**, any number of them with separators in between. -/
theorem opened_helper {name : String} {elements separators : List (List Symbol)}
    (hrule : Phrase.helperRule name elements separators ∈ rules) :
    opened rules [.rule name] = standsFor rules elements *
      (standsFor rules separators * standsFor rules elements)∗ := by
  obtain ⟨hbase, hround⟩ := add_le_iff.mp (opened_helper_eq honly hrule).ge
  have htaken := mul_kstar_le hbase hround
  refine le_antisymm ?_ htaken
  refine opened_rule_le hrule (fun other hother => honly other hother _ hrule) htaken ?_
  intro a ha
  obtain ⟨x, hx, rfl⟩ := List.mem_map.mp ha
  obtain hx | hx := List.mem_append.mp hx
  · calc
      openedBut rules _ _ x ≤ opened rules x := openedBut_le htaken x
      _ ≤ standsFor rules elements := opened_le_standsFor hx
      _ = standsFor rules elements * 1 := (mul_one _).symm
      _ ≤ _ := mul_le_mul' le_rfl one_le_kstar
  · obtain ⟨separator, hseparator, element, helement, rfl⟩ := mem_further.mp hx
    have hround : opened rules (separator ++ element) ≤
        standsFor rules separators * standsFor rules elements := by
      rw [opened_append]
      exact mul_le_mul' (opened_le_standsFor hseparator) (opened_le_standsFor helement)
    refine (openedBut_cons_self _).trans_le ?_
    refine (mul_le_mul' le_rfl ((openedBut_le htaken _).trans hround)).trans ?_
    rw [mul_assoc]
    exact mul_le_mul' le_rfl kstar_mul_le_kstar

end

/-! ## Phrases -/

/-- **The sequences of a phrase stand for its language** once its helpers are opened. -/
theorem Phrase.standsFor_sequences
    (honly : ∀ rule ∈ rules, ∀ other ∈ rules, rule.name = other.name → rule = other)
    {p : Phrase} {owner : String} {n : Nat} (hmade : ∀ rule ∈ p.helpers owner n, rule ∈ rules)
    (hfree : ∀ s ∈ p.symbols, ¬ IsNameOf rules s) :
    standsFor rules (p.sequences owner n) = p.language := by
  induction p generalizing owner n with
  | empty => exact (standsFor_singleton []).trans opened_nil
  | symbol s => exact (standsFor_singleton [s]).trans (opened_symbol (hfree s List.mem_cons_self))
  | never => rfl
  | opt a ih =>
    rw [sequences, standsFor_cons, opened_nil, ih hmade hfree]
    rfl
  | seq a b iha ihb =>
    obtain ⟨hb, ha⟩ := List.forall_mem_append.mp hmade
    obtain ⟨hafree, hbfree⟩ := List.forall_mem_append.mp hfree
    rw [sequences, standsFor_product, iha ha hafree, ihb hb hbfree]
    rfl
  | either a b iha ihb =>
    obtain ⟨hb, ha⟩ := List.forall_mem_append.mp hmade
    obtain ⟨hafree, hbfree⟩ := List.forall_mem_append.mp hfree
    rw [sequences, standsFor_append, iha ha hafree, ihb hb hbfree]
    rfl
  | many a ih =>
    obtain ⟨hhelper, ha⟩ := List.forall_mem_cons.mp hmade
    have hone : standsFor rules [[]] = 1 := (standsFor_singleton []).trans opened_nil
    rw [sequences, standsFor_singleton, opened_helper honly hhelper, hone, one_mul, ih ha hfree]
    rfl
  | list a b iha ihb =>
    obtain ⟨hhelper, hinside⟩ := List.forall_mem_cons.mp hmade
    obtain ⟨hb, ha⟩ := List.forall_mem_append.mp hinside
    obtain ⟨hafree, hbfree⟩ := List.forall_mem_append.mp hfree
    rw [sequences, standsFor_singleton, opened_helper honly hhelper, iha ha hafree, ihb hb hbfree]
    rfl

/-! ## Rules -/

namespace RuleDraft

/-- The sequences of each shape of a rule, when `n` helpers have been made before. -/
def expansions (owner : String) : List Shape → Nat → List (List (List Symbol))
  | [], _ => []
  | s :: rest, n => s.phrase.sequences owner n :: expansions owner rest (n + s.phrase.repeats)

/-- A choice of all shapes, which needs the same helpers as the shapes do one after the other. -/
def choiceOf (shapes : List Shape) : Phrase := (shapes.map (·.phrase)).foldr .either .never

variable {owner : String} {shapes : List Shape}

/-- The helpers of a rule are those of its shapes. -/
theorem finishShapes_helpers (done : List Alternative) (h : Phrase.Helpers) :
    (finishShapes owner done shapes h).2 = ⟨h.count + (choiceOf shapes).repeats,
      (choiceOf shapes).helpers owner h.count ++ h.rules⟩ := by
  induction shapes generalizing done h with
  | nil => rfl
  | cons s rest ih =>
    rw [finishShapes, Phrase.expand_eq]
    dsimp only
    rw [ih, ← List.append_assoc, Nat.add_assoc]
    rfl

/-- **The alternatives of a rule** are the sequences of its shapes, each with what is noted at the
    shape. -/
theorem mem_finishShapes {done : List Alternative} {h : Phrase.Helpers} {a : Alternative} :
    a ∈ (finishShapes owner done shapes h).1 ↔
      a ∈ done ∨ ∃ e ∈ shapes.zip (expansions owner shapes h.count), a ∈ e.1.finish e.2 := by
  induction shapes generalizing done h with
  | nil => simp [finishShapes, expansions]
  | cons s rest ih =>
    rw [finishShapes, Phrase.expand_eq]
    dsimp only
    rw [ih, mem_foldl_addNew, expansions, List.zip_cons_cons, List.exists_mem_cons_iff, or_assoc]

theorem mem_finish {s : Shape} {xs : List (List Symbol)} {a : Alternative} :
    a ∈ s.finish xs ↔
      a.symbols ∈ xs ∧ a.level = s.level ∧ a.binary = s.binary ∧ a.directive = s.directive := by
  cases a
  simp [Shape.finish, eq_comm]

/-- **The alternatives of a shape** stand for its phrase. -/
theorem forall₂_expansions {rules : List Rule}
    (honly : ∀ rule ∈ rules, ∀ other ∈ rules, rule.name = other.name → rule = other) {n : Nat}
    (hmade : ∀ rule ∈ (choiceOf shapes).helpers owner n, rule ∈ rules)
    (hfree : ∀ shape ∈ shapes, ∀ s ∈ shape.phrase.symbols, ¬ IsNameOf rules s) :
    List.Forall₂ (fun shape xs => standsFor rules xs = shape.phrase.language) shapes
      (expansions owner shapes n) := by
  induction shapes generalizing n with
  | nil => exact .nil
  | cons s rest ih =>
    obtain ⟨hrest, hfirst⟩ := List.forall_mem_append.mp hmade
    obtain ⟨hfree, hrestfree⟩ := List.forall_mem_cons.mp hfree
    exact .cons (Phrase.standsFor_sequences honly hfirst hfree) (ih hrest hrestfree)

/-- The alternatives of all shapes together. -/
theorem exists_mem_shapes {rules : List Rule} {parts : List (List (List Symbol))}
    (hparts : List.Forall₂ (fun shape xs => standsFor rules xs = shape.phrase.language) shapes parts)
    {alternatives : List Alternative}
    (halternatives : ∀ a, a ∈ alternatives ↔ ∃ e ∈ shapes.zip parts, a ∈ e.1.finish e.2)
    (w : List Symbol) :
    (∃ a ∈ alternatives, w ∈ opened rules a.symbols) ↔ ∃ shape ∈ shapes, w ∈ shape.phrase.language := by
  obtain ⟨hlength, hlanguage⟩ := List.forall₂_iff_zip.mp hparts
  constructor
  · rintro ⟨a, ha, hw⟩
    obtain ⟨⟨shape, part⟩, he, hfinish⟩ := (halternatives a).mp ha
    refine ⟨shape, (List.of_mem_zip he).1, ?_⟩
    rw [← hlanguage he]
    exact mem_standsFor.mpr ⟨a.symbols, (mem_finish.mp hfinish).1, hw⟩
  · rintro ⟨shape, hshape, hw⟩
    rw [← List.map_fst_zip hlength.le] at hshape
    obtain ⟨⟨shape, part⟩, he, rfl⟩ := List.mem_map.mp hshape
    rw [← hlanguage he] at hw
    obtain ⟨x, hx, hw⟩ := mem_standsFor.mp hw
    exact ⟨_, (halternatives _).mpr ⟨_, he, List.mem_map_of_mem hx⟩, hw⟩

/-- **A finished rule stands for the same rows as its draft**, once the helpers made for it are opened,
    and for no others, as long as no symbol of the draft is named like one of them.  Each alternative
    comes from the sequences of one shape and keeps what is noted at the shape, and the sequences of a
    shape stand for its phrase. -/
theorem finish_language (h : Phrase.Helpers) (r : RuleDraft) :
    ∃ made alternatives, (r.finish h).rules = ⟨r.name, alternatives⟩ :: (made ++ h.rules) ∧
      ((∀ shape ∈ r.shapes, ∀ s ∈ shape.phrase.symbols, ¬ IsNameOf made s) →
        (∀ w, (∃ a ∈ alternatives, w ∈ opened made a.symbols) ↔
          ∃ shape ∈ r.shapes, w ∈ shape.phrase.language) ∧
        ∃ parts : List (List (List Symbol)),
          List.Forall₂ (fun shape part => ∀ w, (∃ x ∈ part, w ∈ opened made x) ↔
            w ∈ shape.phrase.language) r.shapes parts ∧
          ∀ a, a ∈ alternatives ↔ ∃ e ∈ r.shapes.zip parts, a.symbols ∈ e.2 ∧
            a.level = e.1.level ∧ a.binary = e.1.binary ∧ a.directive = e.1.directive) := by
  have hhelpers := @finishShapes_helpers r.name r.shapes [] h
  have hnumbered := Phrase.helpers_numbered r.name (choiceOf r.shapes) h.count
  refine ⟨(choiceOf r.shapes).helpers r.name h.count, (finishShapes r.name [] r.shapes h).1, ?_, ?_⟩
  · show ⟨r.name, _⟩ :: (finishShapes r.name [] r.shapes h).2.rules = _
    rw [hhelpers]
  intro hfree
  have hparts := forall₂_expansions (fun _ hrule _ hother => hnumbered.eq_of_name hrule hother)
    (fun _ hrule => hrule) hfree
  have halternatives : ∀ a, a ∈ (finishShapes r.name [] r.shapes h).1 ↔
      ∃ e ∈ r.shapes.zip (expansions r.name r.shapes h.count), a ∈ e.1.finish e.2 := fun a =>
    mem_finishShapes.trans (or_iff_right List.not_mem_nil)
  refine ⟨exists_mem_shapes hparts halternatives, expansions r.name r.shapes h.count, ?_, fun a => ?_⟩
  · refine hparts.imp fun shape part hlanguage w => ?_
    rw [← hlanguage, mem_standsFor]
  · rw [halternatives]
    simp only [mem_finish]

/-- A list of two kinds of elements behind an optional symbol, on a level. -/
def optionalList : RuleDraft :=
  let element := Phrase.oneOf [[Phrase.ref "b"], [Phrase.ref "c"]]
  ⟨"_a", [⟨Phrase.all [.opt (Phrase.sym "x"), .list element (Phrase.sym ",")], some "add", true, none⟩]⟩

/-- The finished rule has one helper, and stands for a list of both elements behind the symbol; all
    alternatives are on the level. -/
theorem finish_language_optionalList :
    let made := [Phrase.helperRule "_a_repeat1" [[.rule "b"], [.rule "c"]] [[.terminal (.sym ",")]]]
    ∃ alternatives, (optionalList.finish ⟨0, []⟩).rules = ⟨"_a", alternatives⟩ :: (made ++ []) ∧
      (∀ shape ∈ optionalList.shapes, ∀ s ∈ shape.phrase.symbols, ¬ IsNameOf made s) ∧
      (∃ a ∈ alternatives, [.terminal (.sym "x"), .rule "b", .terminal (.sym ","), .rule "c"] ∈
        opened made a.symbols) ∧
      ∀ a ∈ alternatives, a.level = some "add" ∧ a.binary = true ∧ a.directive = none := by
  intro made
  obtain ⟨made', alternatives, hrules, hlanguage⟩ := finish_language ⟨0, []⟩ optionalList
  have hhelpers : (optionalList.finish ⟨0, []⟩).rules.tail = [Phrase.helperRule "_a_repeat1"
      [[.rule "b"], [.rule "c"]] [[.terminal (.sym ",")]]] := by decide +kernel
  obtain rfl : made' = made := by
    rw [hrules, List.tail_cons, List.append_nil] at hhelpers
    exact hhelpers
  have hfree : ∀ shape ∈ optionalList.shapes, ∀ s ∈ shape.phrase.symbols, ¬ IsNameOf made s := by
    simp [optionalList, made, IsNameOf, Phrase.symbols, Phrase.all, Phrase.oneOf, Phrase.sym,
      Phrase.ref, Phrase.term, Phrase.helperRule]
  obtain ⟨hrows, parts, hparts, hkeeps⟩ := hlanguage hfree
  refine ⟨alternatives, hrules, hfree, (hrows _).mpr ⟨_, List.mem_cons_self, ?_⟩, fun a ha => ?_⟩
  · have hfront : [.terminal (.sym "x")] ∈ (Phrase.opt (Phrase.sym "x")).language :=
      Or.inr (Set.mem_singleton _)
    have hcomma : [.terminal (.sym ",")] ∈ (Phrase.sym ",").language := Set.mem_singleton _
    have hchoice : (Phrase.oneOf [[Phrase.ref "b"], [Phrase.ref "c"]]).language =
        (Phrase.ref "b").language + (Phrase.ref "c").language := by
      simp only [Phrase.language_oneOf, Phrase.language_all, List.map_cons, List.map_nil,
        List.prod_singleton, List.sum_cons, List.sum_nil, add_zero]
    have hfirst : [.rule "b"] ∈ (Phrase.oneOf [[Phrase.ref "b"], [Phrase.ref "c"]]).language := by
      rw [hchoice]
      exact Or.inl (Set.mem_singleton _)
    have hsecond : [.rule "c"] ∈ (Phrase.oneOf [[Phrase.ref "b"], [Phrase.ref "c"]]).language := by
      rw [hchoice]
      exact Or.inr (Set.mem_singleton _)
    have hrounds {L : Language Symbol} : L ≤ L∗ := le_kstar
    have hlist := Language.append_mem_mul hfirst (hrounds (Language.append_mem_mul hcomma hsecond))
    rw [Phrase.language_all]
    exact Language.append_mem_mul hfront (Language.append_mem_mul hlist Language.nil_mem_one)
  · obtain ⟨⟨shape, part⟩, he, _, hlevel⟩ := (hkeeps a).mp ha
    obtain rfl := List.mem_singleton.mp (List.of_mem_zip he).1
    exact hlevel

end RuleDraft

end LayeredSyntax
