/-
  FAULTS BY STEPS — which step of a composition can find which fault.

  A composition looks for cycles first, then checks every grammar, then merges levels, and lowers at
  last.  Two kinds of faults belong to one step each: a cycle is reported by the search for cycles,
  and levels that disagree by the merging (`FaultOf`).  Everything else is wrong with a single
  grammar (`CompositionFault.IsOwn`).

  So **a composition that fails for a cycle or for its levels can be explained by one function**,
  and nothing has to be known of the others (`compositeOf_yields`).
-/
import LayeredSyntax.Proofs.Composition.Faithful

namespace LayeredSyntax

variable {grammars : List Grammar}

/-- Whether a fault is found in a grammar by itself. -/
def CompositionFault.IsOwn : CompositionFault → Prop
  | cyclicEmbedding _ | conflictingPrecedence _ => False
  | _ => True

namespace Yields

variable {ε α β : Type} {F : ε → Prop} {P : α → Prop}

/-- Where a step fails, it fails with a fault that is expected. -/
theorem fault {x : Except ε α} {e : ε} (h : Yields F P x) (he : x = .error e) : F e := by
  subst he
  exact h

/-- What comes behind a step may rely on its outcome. -/
theorem bind_of_eq {Q : β → Prop} {x : Except ε α} {f : α → Except ε β}
    (h : ∀ e, x = .error e → F e) (hf : ∀ a, x = .ok a → Yields F Q (f a)) :
    Yields F Q (x >>= f) := by
  cases x with
  | error e => exact h e rfl
  | ok a => exact hf a rfl

theorem imp {G : ε → Prop} {x : Except ε α} (h : Yields F P x) (hF : ∀ e, F e → G e) :
    Yields G P x := by
  cases x with
  | error e => exact hF e h
  | ok a => exact h

/-- A check of all elements fails as the check of one of them does. -/
theorem forM {f : α → Except ε Unit} {xs : List α}
    (h : ∀ a ∈ xs, Yields F (fun _ => True) (f a)) : Yields F (fun _ => True) (xs.forM f) := by
  induction xs with
  | nil => trivial
  | cons a xs ih =>
    simp only [List.forM_eq_forM, List.forM_cons]
    exact (h a List.mem_cons_self).bind fun _ _ => ih fun b hb => h b (List.mem_cons_of_mem a hb)

theorem mapM {f : α → Except ε β} {xs : List α}
    (h : ∀ a ∈ xs, Yields F (fun _ => True) (f a)) : Yields F (fun _ => True) (xs.mapM f) := by
  induction xs with
  | nil => trivial
  | cons a xs ih =>
    rw [List.mapM_cons]
    refine (h a List.mem_cons_self).bind fun _ _ => ?_
    exact (ih fun b hb => h b (List.mem_cons_of_mem a hb)).bind fun _ _ => trivial

end Yields

/-! ## Checking -/

namespace Grammar

theorem checkSlot_yields (grammars : List Grammar) (g : Grammar) (slot : Slot) :
    Yields CompositionFault.IsOwn (fun _ => True) (g.checkSlot grammars slot) := by
  unfold checkSlot
  split
  · trivial
  · trivial
  · split <;> trivial

theorem checkSlots_yields (grammars : List Grammar) (g : Grammar) (slots : List Slot) :
    ∀ seen, Yields CompositionFault.IsOwn (fun _ => True) (checkSlots grammars g seen slots) := by
  induction slots with
  | nil => exact fun _ => trivial
  | cons slot rest ih =>
    intro seen
    unfold checkSlots
    dsimp only
    split
    · trivial
    · exact (checkSlot_yields grammars g slot).bind fun _ _ => ih (slot.name :: seen)

theorem checkSymbol_yields (g : Grammar) (rule : String) (s : Symbol) :
    Yields CompositionFault.IsOwn (fun _ => True) (g.checkSymbol rule s) := by
  cases s with
  | terminal t => trivial
  | rule name =>
    show Yields _ _ (if g.hasRule name then _ else _)
    split <;> trivial
  | slot name =>
    show Yields _ _ (if (g.slot? name).isSome then _ else _)
    split <;> trivial

theorem checkRule_yields (g : Grammar) (r : Rule) :
    Yields CompositionFault.IsOwn (fun _ => True) (g.checkRule r) := by
  unfold checkRule
  dsimp only
  split
  · trivial
  · refine Yields.forM fun a _ => ?_
    unfold checkAlternative
    dsimp only
    split
    · trivial
    · exact Yields.forM fun s _ => checkSymbol_yields g r.name s

/-- **Checking a grammar finds what is wrong in it**, and nothing that takes two grammars. -/
theorem check_yields (grammars : List Grammar) (g : Grammar) :
    Yields CompositionFault.IsOwn (fun _ => True) (g.check grammars) := by
  have hnames : Yields CompositionFault.IsOwn (fun _ => True) g.checkNames := by
    unfold checkNames
    split <;> trivial
  have hstart : Yields CompositionFault.IsOwn (fun _ => True) g.checkStart := by
    unfold checkStart
    split <;> trivial
  have hexport : ∀ name, Yields CompositionFault.IsOwn (fun _ => True) (g.checkExport name) := by
    intro name
    unfold checkExport
    split <;> trivial
  have hreachable : Yields CompositionFault.IsOwn (fun _ => True) g.checkReachable := by
    unfold checkReachable
    split <;> trivial
  unfold check
  exact hnames.bind fun _ _ => hstart.bind fun _ _ =>
    (checkSlots_yields grammars g g.slots []).bind fun _ _ =>
      (Yields.forM fun r _ => checkRule_yields g r).bind fun _ _ =>
        (Yields.forM fun name _ => hexport name).bind fun _ _ => hreachable

end Grammar

/-! ## Merging -/

/-- Whether a fault is one of levels that disagree. -/
def CompositionFault.IsConflict (fault : CompositionFault) : Prop :=
  ∃ cause, fault = .conflictingPrecedence cause

namespace LevelTable

theorem place_yields (level : String) (index : Nat) (t : LevelTable) (operator : String) :
    Yields CompositionFault.IsConflict (fun _ => True) (place level index t operator) := by
  unfold place
  split
  · dsimp only
    split
    · trivial
    · exact ⟨_, rfl⟩
  · trivial

theorem join_yields (t : LevelTable) (previous : Option Nat) (level : Level) :
    Yields CompositionFault.IsConflict (fun _ => True) (t.join previous level) := by
  unfold join
  split
  · trivial
  · split
    · trivial
    · split
      · exact ⟨_, rfl⟩
      · split
        · dsimp only
          split
          · exact ⟨_, rfl⟩
          · trivial
        · trivial

theorem mergeFrom_yields (levels : List Level) : ∀ (t : LevelTable) (previous : Option Nat),
    Yields CompositionFault.IsConflict (fun _ => True) (t.mergeFrom previous levels) := by
  induction levels with
  | nil => exact fun _ _ => trivial
  | cons level rest ih =>
    intro t previous
    unfold mergeFrom
    refine (join_yields t previous level).bind fun joined _ => ?_
    obtain ⟨t, index⟩ := joined
    have hplace : Yields CompositionFault.IsConflict (fun _ => True)
        (level.operators.foldlM (place level.name index) t) :=
      Yields.foldlM (R := fun _ _ => True) trivial fun _ operator _ t _ _ =>
        place_yields level.name index t operator
    exact hplace.bind fun t _ => ih t (some index)

end LevelTable

/-- The levels that a grammar puts operators on by itself have to be there. -/
theorem localLevels_yields (t : LevelTable) (g : Grammar) :
    Yields CompositionFault.IsOwn (fun _ => True) (localLevels t g) := by
  unfold localLevels
  refine Yields.bind (P := fun _ => True) (Yields.mapM fun p _ => ?_) fun _ _ => trivial
  split <;> trivial

/-- **Merging fails where levels disagree**, or where a grammar names a level that there is not. -/
theorem mergeLevels_yields (grammars : List Grammar) :
    Yields (fun fault => fault.IsConflict ∨ fault.IsOwn) (fun _ => True)
      (mergeLevels grammars) := by
  unfold mergeLevels
  have htable : Yields (fun fault => fault.IsConflict ∨ fault.IsOwn) (fun _ => True)
      (grammars.foldlM (fun t g => t.mergeFrom none g.levels) LevelTable.empty) :=
    Yields.foldlM (R := fun _ _ => True) trivial fun _ g _ t _ _ =>
      (LevelTable.mergeFrom_yields g.levels t none).imp fun _ => .inl
  refine htable.bind fun t _ => ?_
  refine Yields.bind (P := fun _ => True) (Yields.mapM fun g _ => ?_) fun _ _ => trivial
  exact (localLevels_yields t g).imp fun _ => .inr

/-! ## Composing -/

/-- **How a composition can fail.** -/
inductive FaultOf (grammars : List Grammar) : CompositionFault → Prop
  | cycle {path : List GrammarId}
      (h : embeddingCycle? (distinctGrammars grammars) = some path) :
      FaultOf grammars (.cyclicEmbedding path)
  | own {fault : CompositionFault} (h : fault.IsOwn) : FaultOf grammars fault
  | levels {cause : LevelFault}
      (h : mergeLevels (distinctGrammars grammars) = .error (.conflictingPrecedence cause)) :
      FaultOf grammars (.conflictingPrecedence cause)

/-- **Every step reports its own faults.** -/
theorem compositeOf_yields (grammars : List Grammar) :
    Yields (FaultOf grammars) (fun _ => embeddingCycle? (distinctGrammars grammars) = none)
      (compositeOf grammars) := by
  unfold compositeOf
  dsimp only
  split
  · next cycle hcycle => exact .cycle hcycle
  · next hcycle =>
    refine Yields.bind_of_eq (fun fault hfault => ?_) fun _ hchecks => ?_
    · exact .own ((Yields.forM fun g _ => Grammar.check_yields _ g).fault hfault)
    refine Yields.bind_of_eq (fun fault hfault => ?_) fun levels _ => ?_
    · rcases (mergeLevels_yields (distinctGrammars grammars)).fault hfault with ⟨cause, rfl⟩ | hown
      · exact .levels hfault
      · exact .own hown
    have hnone : embeddingCycle? (distinctGrammars grammars) = none :=
      Option.eq_none_iff_forall_ne_some.mpr hcycle
    refine ((Composite.lower_yields (distinctGrammars_validated hchecks) levels).mono
      fun _ _ => hnone).imp fun fault hlacks => .own ?_
    cases hlacks with
    | undefined => trivial
    | missing => trivial

end LayeredSyntax
