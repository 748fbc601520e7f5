/-
  REWRITING — what rows of symbols stand for when some of their rules are opened.

  Given some rules, a row is rewritten by putting an alternative in the place of a rule's name
  (`Opens`); every other symbol stays as it is, also the name of a rule that is not among the given ones.
  A row stands for all rows without names of given rules that it can be rewritten to (`opened`).

  1. **Rows are rewritten piece by piece** (`opened_append`): what two rows stand for, one behind the
     other, is what each of them stands for, one behind the other.
  2. A rule stands for what its alternatives stand for (`mem_opened_rule`).
  3. **The crux (`opened_le`)**: what is opened is the least meaning that the rules allow.  A meaning that
     takes in each alternative of a rule together with the rule takes in everything that the rule is
     rewritten to.

  To bound what a single rule stands for, it is enough to look at its own alternatives
  (`opened_rule_le`).
-/
import LayeredSyntax.Grammar.Phrase
import Mathlib

namespace LayeredSyntax

open Relation

variable {rules : List Rule} {x y z w : List Symbol}

/-- **One step**: an alternative takes the place of a rule's name. -/
inductive Opens (rules : List Rule) : List Symbol → List Symbol → Prop
  | step {rule : Rule} {a : Alternative} (hrule : rule ∈ rules) (ha : a ∈ rule.alternatives)
      (front back : List Symbol) :
      Opens rules (front ++ .rule rule.name :: back) (front ++ (a.symbols ++ back))

/-- Whether a symbol is the name of one of the rules. -/
def IsNameOf (rules : List Rule) (s : Symbol) : Prop := ∃ rule ∈ rules, s = .rule rule.name

/-- **The rows that a row is rewritten to**, as far as the rules go. -/
def opened (rules : List Rule) (x : List Symbol) : Language Symbol :=
  {w | ReflTransGen (Opens rules) x w ∧ ∀ s ∈ w, ¬ IsNameOf rules s}

theorem mem_opened : w ∈ opened rules x ↔
    ReflTransGen (Opens rules) x w ∧ ∀ s ∈ w, ¬ IsNameOf rules s := Iff.rfl

/-! ## Rewriting pieces -/

theorem Opens.append_left (front : List Symbol) (h : Opens rules x y) :
    Opens rules (front ++ x) (front ++ y) := by
  obtain ⟨hrule, ha, before, behind⟩ := h
  rw [← List.append_assoc, ← List.append_assoc]
  exact .step hrule ha (front ++ before) behind

theorem Opens.append_right (back : List Symbol) (h : Opens rules x y) :
    Opens rules (x ++ back) (y ++ back) := by
  obtain ⟨hrule, ha, before, behind⟩ := h
  rw [List.append_assoc, List.cons_append, List.append_assoc, List.append_assoc]
  exact .step hrule ha before (behind ++ back)

/-- A step in two pieces is one in the first or one in the second of them. -/
theorem Opens.of_append (h : Opens rules (x ++ y) z) :
    (∃ x', Opens rules x x' ∧ z = x' ++ y) ∨ ∃ y', Opens rules y y' ∧ z = x ++ y' := by
  generalize hrow : x ++ y = row at h
  obtain ⟨hrule, ha, front, back⟩ := h
  obtain ⟨middle, rfl, rfl⟩ | ⟨middle, rfl, hmiddle⟩ := List.append_eq_append_iff.mp hrow
  · refine .inr ⟨_, .step hrule ha middle back, ?_⟩
    rw [List.append_assoc]
  · cases middle with
    | nil =>
      rw [List.nil_append] at hmiddle
      subst hmiddle
      refine .inr ⟨_, .step hrule ha [] back, ?_⟩
      rw [List.append_nil, List.nil_append]
    | cons s middle =>
      obtain ⟨rfl, rfl⟩ := List.cons.inj hmiddle
      refine .inl ⟨_, .step hrule ha front middle, ?_⟩
      rw [List.append_assoc, List.append_assoc]
      rfl

/-- So rewriting two pieces is rewriting each of them. -/
theorem exists_of_opens_append (h : ReflTransGen (Opens rules) (x ++ y) w) :
    ∃ u v, w = u ++ v ∧ ReflTransGen (Opens rules) x u ∧ ReflTransGen (Opens rules) y v := by
  -- By the number of steps, the last one taken off.
  induction h with
  | refl => exact ⟨x, y, rfl, .refl, .refl⟩
  | tail _ hstep ih =>
    obtain ⟨u, v, rfl, hu, hv⟩ := ih
    obtain ⟨u', hu', rfl⟩ | ⟨v', hv', rfl⟩ := hstep.of_append
    · exact ⟨u', v, rfl, hu.tail hu', hv⟩
    · exact ⟨u, v', rfl, hu, hv.tail hv'⟩

theorem opens_append {u v : List Symbol} (hu : ReflTransGen (Opens rules) x u)
    (hv : ReflTransGen (Opens rules) y v) : ReflTransGen (Opens rules) (x ++ y) (u ++ v) :=
  (hu.lift (· ++ y) fun _ _ h => h.append_right y).trans
    (hv.lift (u ++ ·) fun _ _ h => h.append_left u)

/-- **Rows are rewritten piece by piece.** -/
theorem opened_append (x y : List Symbol) :
    opened rules (x ++ y) = opened rules x * opened rules y := by
  ext w
  rw [Language.mem_mul]
  constructor
  · rintro ⟨hw, hfree⟩
    obtain ⟨u, v, rfl, hu, hv⟩ := exists_of_opens_append hw
    exact ⟨u, ⟨hu, fun s hs => hfree s (List.mem_append_left v hs)⟩,
      v, ⟨hv, fun s hs => hfree s (List.mem_append_right u hs)⟩, rfl⟩
  · rintro ⟨u, ⟨hu, hufree⟩, v, ⟨hv, hvfree⟩, rfl⟩
    refine ⟨opens_append hu hv, fun s hs => ?_⟩
    obtain hs | hs := List.mem_append.mp hs
    · exact hufree s hs
    · exact hvfree s hs

/-! ## Rewriting single symbols -/

/-- A row without names of the rules stays as it is. -/
theorem Opens.not_of_free (hfree : ∀ s ∈ x, ¬ IsNameOf rules s) : ¬ Opens rules x y := by
  rintro ⟨hrule, _, front, back⟩
  exact hfree _ (List.mem_append_right front List.mem_cons_self) ⟨_, hrule, rfl⟩

theorem opened_of_free (hfree : ∀ s ∈ x, ¬ IsNameOf rules s) : opened rules x = {x} := by
  ext w
  rw [mem_opened]
  constructor
  · rintro ⟨hw, _⟩
    obtain rfl | ⟨_, hstep, _⟩ := hw.cases_head
    · rfl
    · exact absurd hstep (Opens.not_of_free hfree)
  · rintro rfl
    exact ⟨.refl, hfree⟩

theorem opened_nil : opened rules [] = 1 := opened_of_free nofun

theorem opened_symbol {s : Symbol} (hs : ¬ IsNameOf rules s) : opened rules [s] = {[s]} := by
  refine opened_of_free fun s' hs' => ?_
  rwa [List.mem_singleton.mp hs']

/-- A rule stands for each of its alternatives, -/
theorem opened_le_rule {rule : Rule} {a : Alternative} (hrule : rule ∈ rules)
    (ha : a ∈ rule.alternatives) : opened rules a.symbols ≤ opened rules [.rule rule.name] := by
  rintro w ⟨hw, hfree⟩
  have hstep : Opens rules [.rule rule.name] a.symbols := by
    have h := Opens.step hrule ha [] []
    rwa [List.nil_append, List.nil_append, List.append_nil] at h
  exact ⟨.head hstep hw, hfree⟩

/-- and **for its alternatives only**, if no other rule has its name. -/
theorem mem_opened_rule {rule : Rule} (hrule : rule ∈ rules)
    (honly : ∀ other ∈ rules, other.name = rule.name → other = rule) :
    w ∈ opened rules [.rule rule.name] ↔ ∃ a ∈ rule.alternatives, w ∈ opened rules a.symbols := by
  constructor
  · rintro ⟨hw, hfree⟩
    obtain rfl | ⟨y, hstep, hrest⟩ := hw.cases_head
    · exact absurd ⟨rule, hrule, rfl⟩ (hfree _ List.mem_cons_self)
    · generalize hrow : [Symbol.rule rule.name] = row at hstep
      obtain ⟨hother, ha, front, back⟩ := hstep
      obtain ⟨rfl, hback⟩ | ⟨_, hback⟩ := List.append_eq_singleton_iff.mp hrow.symm
      · obtain ⟨hname, rfl⟩ := List.cons.inj hback
        obtain rfl := honly _ hother (Symbol.rule.inj hname)
        rw [List.nil_append, List.append_nil] at hrest
        exact ⟨_, ha, hrest, hfree⟩
      · cases hback
  · rintro ⟨a, ha, hw⟩
    exact opened_le_rule hrule ha hw

/-! ## Meanings -/

/-- What a row means when each symbol means something. -/
def meaning (μ : Symbol → Language Symbol) (x : List Symbol) : Language Symbol := (x.map μ).prod

theorem meaning_append (μ : Symbol → Language Symbol) (x y : List Symbol) :
    meaning μ (x ++ y) = meaning μ x * meaning μ y := by
  unfold meaning
  rw [List.map_append, List.prod_append]

theorem meaning_cons (μ : Symbol → Language Symbol) (s : Symbol) (x : List Symbol) :
    meaning μ (s :: x) = μ s * meaning μ x := List.prod_cons

theorem meaning_mono {μ ν : Symbol → Language Symbol} (h : ∀ s, μ s ≤ ν s) (x : List Symbol) :
    meaning μ x ≤ meaning ν x := by
  induction x with
  | nil => exact le_refl _
  | cons s x ih =>
    rw [meaning_cons, meaning_cons]
    exact mul_le_mul' (h s) ih

/-- What is opened is a meaning itself. -/
theorem meaning_opened (x : List Symbol) : meaning (fun s => opened rules [s]) x = opened rules x := by
  induction x with
  | nil => exact opened_nil.symm
  | cons s x ih =>
    rw [meaning_cons, ih, ← opened_append]
    rfl

/-- **What is opened is the least meaning that the rules allow.** -/
theorem opened_le {μ : Symbol → Language Symbol}
    (hrules : ∀ rule ∈ rules, ∀ a ∈ rule.alternatives, meaning μ a.symbols ≤ μ (.rule rule.name))
    (hfree : ∀ s, ¬ IsNameOf rules s → [s] ∈ μ s) (x : List Symbol) :
    opened rules x ≤ meaning μ x := by
  rintro w ⟨hw, hw'⟩
  -- Backwards along the steps: what a row means takes in what it means after a step.
  induction hw using ReflTransGen.head_induction_on with
  | refl =>
    induction w with
    | nil => exact Language.nil_mem_one
    | cons s w ih =>
      rw [meaning_cons]
      have hs := hfree s (hw' s List.mem_cons_self)
      exact Language.append_mem_mul hs (ih fun s' hs' => hw' s' (List.mem_cons_of_mem _ hs'))
  | head hstep _ ih =>
    obtain ⟨hrule, ha, front, back⟩ := hstep
    rw [meaning_append, meaning_append] at ih
    rw [meaning_append, meaning_cons]
    exact mul_le_mul' le_rfl (mul_le_mul' (hrules _ hrule _ ha) le_rfl) ih

/-- What rows mean when one symbol stands for something of its own, and all else for what it is
    rewritten to. -/
def openedBut (rules : List Rule) (s : Symbol) (L : Language Symbol) (x : List Symbol) :
    Language Symbol :=
  meaning (Function.update (fun s => opened rules [s]) s L) x

section

variable {s : Symbol} {L : Language Symbol}

theorem openedBut_cons_self (x : List Symbol) :
    openedBut rules s L (s :: x) = L * openedBut rules s L x := by
  unfold openedBut
  rw [meaning_cons, Function.update_self]

theorem openedBut_le (hL : L ≤ opened rules [s]) (x : List Symbol) :
    openedBut rules s L x ≤ opened rules x := by
  rw [← meaning_opened x]
  refine meaning_mono (fun s' => ?_) x
  by_cases hs : s' = s
  · rwa [hs, Function.update_self]
  · exact (Function.update_of_ne hs _ _).le

/-- **One rule alone**: it stands for no more than what takes in each of its alternatives. -/
theorem opened_rule_le {rule : Rule} (hrule : rule ∈ rules)
    (honly : ∀ other ∈ rules, other.name = rule.name → other = rule)
    (hL : L ≤ opened rules [.rule rule.name])
    (hclosed : ∀ a ∈ rule.alternatives, openedBut rules (.rule rule.name) L a.symbols ≤ L) :
    opened rules [.rule rule.name] ≤ L := by
  have hself : openedBut rules (.rule rule.name) L [.rule rule.name] = L := by
    rw [openedBut_cons_self]
    exact mul_one L
  refine (opened_le (fun other hother a ha => ?_) (fun s hs => ?_) [.rule rule.name]).trans_eq hself
  · by_cases hname : other.name = rule.name
    · obtain rfl := honly other hother hname
      rw [Function.update_self]
      exact hclosed a ha
    · rw [Function.update_of_ne fun h => hname (Symbol.rule.inj h)]
      exact (openedBut_le hL a.symbols).trans (opened_le_rule hother ha)
  · have hne : s ≠ .rule rule.name := fun h => hs ⟨rule, hrule, h⟩
    rw [Function.update_of_ne hne, opened_symbol hs]
    exact Set.mem_singleton [s]

end

end LayeredSyntax
