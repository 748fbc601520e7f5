/-
  PRECEDENCE IN THE TABLE — what levels leave of the cells of an expression grammar.

  The grammar alone is as ambiguous as can be.  Behind the right operand of an operator everything
  is possible in front of another operator: the first one can be finished, or the second one can be
  read on.  That is the only conflict there is, and it is settled in every cell:

  1. **An operator is read on where the one in front takes it on its right** (`exists_shift`,
     `of_shift`).
  2. **A production is finished where the operator behind takes it on its left** (`exists_reduce`,
     `of_reduce`).
  3. Operators of one level that does not group do neither.

  So **no cell has more than one action** (`length_actionsAt_le`).
-/
import LayeredSyntax.Proofs.Table.Spots

namespace LayeredSyntax

/-! ## Cells of few actions -/

/-- What is left of reading on and of finishing a production. -/
def Resolution.left (state production : Nat) : Resolution → List Action
  | shift => [.shift state]
  | reduce => [.reduce production]
  | neither => []

namespace Resolution

variable {state state' production production' : Nat} {r : Resolution}

theorem shift_mem_left : .shift state' ∈ r.left state production ↔ r = shift ∧ state' = state := by
  cases r <;> simp [left]

theorem reduce_mem_left :
    .reduce production' ∈ r.left state production ↔ r = reduce ∧ production' = production := by
  cases r <;> simp [left]

end Resolution

namespace Composite

variable {c : Composite} {x : Nat} {accepts : Bool}

/-- The accepting of a text as the rest of a cell. -/
def acceptance (accepts : Bool) : List Action := if accepts then [.accept] else []

theorem mem_acceptance {act : Action} (h : act ∈ acceptance accepts) : act = .accept := by
  unfold acceptance at h
  split at h
  · exact List.mem_singleton.mp h
  · cases h

/-- Where nothing can be finished, there is nothing to settle. -/
theorem cell_prune_nil (shift : Option Nat) :
    (c.prune x shift [] accepts).cell = shift.toList.map .shift ++ acceptance accepts := by
  cases shift with
  | none => rfl
  | some state => rfl

/-- Where nothing can be read, neither. -/
theorem cell_prune_none (reduces : List Nat) :
    (c.prune x none reduces accepts).cell = reduces.map .reduce ++ acceptance accepts := rfl

/-- **One production against reading on.** -/
theorem cell_prune_singleton {q state : Nat} {r : Resolution}
    (h : c.settle? x (c.production q) = some r) :
    (c.prune x (some state) [q] accepts).cell = r.left state q ++ acceptance accepts := by
  unfold prune acceptance
  dsimp only
  rw [List.map_singleton, h]
  cases r <;> rfl

/-- A production is complete once in a state. -/
theorem nodup_finishes (follow : Array Nat) {kernel : List Item}
    (hitems : ∀ i ∈ kernel, c.HasItem i) (h : kernel.Nodup) :
    (c.finishes follow kernel x).Nodup := by
  have hcomplete : ((ItemGraph.of c).complete kernel).Nodup := by
    refine List.Nodup.map_on (fun i hi k hk heq => ?_) (h.filter _)
    simp only [List.mem_filter, Option.isNone_iff_eq_none, ItemGraph.nextSymbol?_eq] at hi hk
    obtain ⟨p, hp, _, hlast⟩ := (hitems i hi.1).eq_behind hi.2
    obtain ⟨p', hp', _, hlast'⟩ := (hitems k hk.1).eq_behind hk.2
    obtain rfl := Option.some.inj (hp.symm.trans ((congrArg _ heq).trans hp'))
    rw [hlast, hlast', heq]
  unfold finishes
  have hfirst : ((((ItemGraph.of c).complete kernel).filter fun p =>
      !(c.nonterminal (c.production p).lhs).isRoot).map fun p =>
        (p, follow[(c.production p).lhs]?.getD 0)).map (·.1) |>.Nodup := by
    rw [List.map_map]
    exact (List.map_id _).symm ▸ hcomplete.filter _
  exact hfirst.sublist (List.filter_sublist.map _)

end Composite

/-! ## Spots of a table -/

namespace Spot

variable {n : Nat}

/-- The production that is complete at a spot. -/
def done? : Spot n → Option Nat
  | number => some 0
  | closed => some 1
  | after (.operand m) => some (2 + m)
  | _ => none

variable {ops : List (String × Precedence)}

/-- Whether an operator that comes next is one that the operator in front takes on its right. -/
def Reads (ops : List (String × Precedence)) (spot : Spot ops.length) (x : Nat) : Prop :=
  ∀ m k : Fin ops.length, spot = after (.operand m) → x = 4 + k →
    (precedenceIn ops m).TakesRight (precedenceIn ops k)

/-- Whether an operator that comes next takes what is complete on its left. -/
def Finishes (ops : List (String × Precedence)) (spot : Spot ops.length) (x : Nat) : Prop :=
  ∀ m k : Fin ops.length, spot = after (.operand m) → x = 4 + k →
    (precedenceIn ops k).TakesLeft (precedenceIn ops m)

end Spot

/-- Whether a state of a table is at a spot. -/
def Table.At {n : Nat} (t : Table) (state : Nat) (spot : Spot n) : Prop :=
  ∃ kernel, t.kernel? state = some kernel ∧ spot.Holds kernel

/-- A state is at one spot. -/
theorem Table.At.unique {n : Nat} {t : Table} {state : Nat} {spot spot' : Spot n}
    (h : t.At state spot) (h' : t.At state spot') : spot = spot' := by
  obtain ⟨kernel, hkernel, hholds⟩ := h
  obtain ⟨kernel', hkernel', hholds'⟩ := h'
  obtain rfl : kernel = kernel' := Option.some.inj (hkernel.symm.trans hkernel')
  exact hholds.eq_of_mem spot' hholds'.main_mem

namespace Composite

variable {c : Composite} {id : GrammarId} {ops : List (String × Precedence)} {kernel : List Item}
  {spot : Spot ops.length} {x q : Nat}

/-- Expressions are shown in trees, by the name of the rule. -/
theorem Climbs.nonterminal_zero (hc : c.Climbs id ops) :
    (c.nonterminal 0).name = "e" ∧ (c.nonterminal 0).grammar = id ∧
      (c.nonterminal 0).hidden = false ∧ (c.nonterminal 0).isRoot = false := by
  have hzero : c.nonterminals[0]? = (nonterminalsOf (.climbing id [])).head? := by
    rw [← Array.getElem?_toList, hc.nonterminals]
    rfl
  unfold nonterminal
  rw [hzero]
  exact ⟨rfl, rfl, rfl, rfl⟩

theorem Climbs.isRoot_one (hc : c.Climbs id ops) : (c.nonterminal 1).isRoot = true := by
  have hone : c.nonterminals[1]? = some (rootOf (.climbing id [])) := by
    rw [← Array.getElem?_toList, hc.nonterminals]
    rfl
  unfold nonterminal
  rw [hone]
  rfl

/-- A production is complete at the spot behind it. -/
theorem Climbs.finishes_iff (hc : c.Climbs id ops) (hw : c.WellFormed)
    (hitems : ∀ i ∈ kernel, c.HasItem i) (h : spot.Holds kernel) :
    q ∈ c.finishes c.followSets kernel x ↔ spot.done? = some q ∧ c.Follows 0 x := by
  have hshown := hc.nonterminal_zero.2.2.2
  rw [mem_finishes hw hitems]
  constructor
  · rintro ⟨p, hp, _, hmem, hroot, hfollow⟩
    rcases hc.productions_iff.mp hp with _ | _ | m | _
    · obtain rfl := h.eq_of_mem .number hmem
      exact ⟨rfl, hfollow⟩
    · obtain rfl := h.eq_of_mem .closed hmem
      exact ⟨rfl, hfollow⟩
    · obtain rfl := h.eq_of_mem (.after (.operand m)) hmem
      exact ⟨rfl, hfollow⟩
    · rw [hc.isRoot_one] at hroot
      cases hroot
  · rintro ⟨hdone, hfollow⟩
    have hmem := h.main_mem
    match spot, hdone, hmem with
    | .number, hdone, hmem =>
      obtain rfl := Option.some.inj hdone
      have hp := hc.productions_iff.mpr .number
      exact ⟨_, hp, hc.short hp, hmem, hshown, hfollow⟩
    | .closed, hdone, hmem =>
      obtain rfl := Option.some.inj hdone
      have hp := hc.productions_iff.mpr .paren
      exact ⟨_, hp, hc.short hp, hmem, hshown, hfollow⟩
    | .after (.operand m), hdone, hmem =>
      obtain rfl := Option.some.inj hdone
      have hp := hc.productions_iff.mpr (.joined m)
      exact ⟨_, hp, hc.short hp, hmem, hshown, hfollow⟩

/-- **One production at most is complete.** -/
theorem Climbs.finishes_eq (hc : c.Climbs id ops) (hw : c.WellFormed)
    (hitems : ∀ i ∈ kernel, c.HasItem i) (h : spot.Holds kernel) :
    c.finishes c.followSets kernel x = [] ∨
      ∃ q, spot.done? = some q ∧ c.finishes c.followSets kernel x = [q] := by
  have hnodup : (c.finishes c.followSets kernel x).Nodup :=
    nodup_finishes _ hitems (h.ordered.imp fun {a b} hab heq => by
      subst heq
      exact Item.before_irrefl a hab)
  have hmem : ∀ q ∈ c.finishes c.followSets kernel x, spot.done? = some q :=
    fun q hq => ((hc.finishes_iff hw hitems h).mp hq).1
  generalize c.finishes c.followSets kernel x = qs at hnodup hmem
  match qs, hnodup, hmem with
  | [], _, _ => exact .inl rfl
  | [q], _, hmem => exact .inr ⟨q, hmem q List.mem_cons_self, rfl⟩
  | q :: q' :: rest, hnodup, hmem =>
    have hsame : q = q' := Option.some.inj ((hmem q List.mem_cons_self).symm.trans
      (hmem q' (List.mem_cons_of_mem _ List.mem_cons_self)))
    exact absurd (hsame ▸ List.mem_cons_self) (List.nodup_cons.mp hnodup).1

/-- A text is accepted behind the expression that stands by itself. -/
theorem Climbs.accepts_iff (hc : c.Climbs id ops) (hw : c.WellFormed)
    (hitems : ∀ i ∈ kernel, c.HasItem i) (h : spot.Holds kernel) :
    c.accepts kernel = true ↔ spot = .after .text := by
  rw [Composite.accepts_iff hw hitems, hc.roots]
  constructor
  · rintro ⟨r, hr, hmem⟩
    obtain rfl := List.mem_singleton.mp hr
    exact h.eq_of_mem (.after .text) hmem
  · rintro rfl
    exact ⟨_, List.mem_cons_self, h.main_mem⟩

/-- The number of a sign is that of its terminal. -/
theorem Climbs.terminal?_code (hc : c.Climbs id ops) (s : Sign (Fin ops.length)) :
    c.terminal? s.code = some (s.terminal ops) := by
  have hpos : s.code ≠ endOfText := by
    cases s <;> simp only [Sign.code, endOfText] <;> omega
  unfold terminal?
  rw [if_neg hpos, ← Array.getElem?_toList, hc.terminals]
  cases s with
  | number | opening | closing => rfl
  | operator k =>
    have hplace : 4 + (k : Nat) - 1 = k + 3 := by omega
    show ([_, _, _] ++ _ : List Terminal)[4 + (k : Nat) - 1]? = _
    rw [hplace]
    show (ops.map fun x => Terminal.sym x.1)[(k : Nat)]? = _
    rw [List.getElem?_map, List.getElem?_eq_getElem k.isLt]
    rfl

/-- **Two operators are compared by their levels.** -/
theorem Climbs.settle?_joined (hc : c.Climbs id ops) (m k : Fin ops.length) :
    c.settle? (4 + k) (c.production (2 + m)) =
      some (resolve (precedenceIn ops m) (precedenceIn ops k)) := by
  have hahead : c.precedenceAhead? (joinedBy id (4 + m) (precedenceIn ops m)) (4 + k) =
      some (precedenceIn ops k) := by
    unfold precedenceAhead?
    have hterminal : c.terminal? (4 + k) = some (.sym ops[k].1) := hc.terminal?_code (.operator k)
    rw [hterminal]
    exact hc.precedence ops[k] (List.getElem_mem k.isLt)
  rw [production_eq (hc.productions_iff.mpr (.joined m))]
  unfold settle?
  rw [hahead]
  rfl

end Composite

/-- **A table for expressions** with some operators. -/
def Table.Climbs (t : Table) (id : GrammarId) (ops : List (String × Precedence)) : Prop :=
  ∃ c : Composite, c.Climbs id ops ∧ c.WellFormed ∧ t = Table.ofComposite c

namespace Table.Climbs

variable {t : Table} {id : GrammarId} {ops : List (String × Precedence)}
  {spot spot' : Spot ops.length} {state target x q a : Nat}

theorem canonical (ht : t.Climbs id ops) : t.Canonical := by
  obtain ⟨c, _, hw, rfl⟩ := ht
  exact ofComposite_canonical hw

/-- Operators of one rank group in one way. -/
theorem assoc_eq (ht : t.Climbs id ops) (m k : Fin ops.length)
    (h : (precedenceIn ops m).rank = (precedenceIn ops k).rank) :
    (precedenceIn ops m).assoc = (precedenceIn ops k).assoc := by
  obtain ⟨c, hc, _, _⟩ := ht
  exact hc.assoc _ (List.getElem_mem m.isLt) _ (List.getElem_mem k.isLt) h

theorem productions_iff (ht : t.Climbs id ops) {p : Production} :
    t.productions[q]? = some p ↔ Composite.ExpressionOf id ops q p := by
  obtain ⟨c, hc, _, rfl⟩ := ht
  exact hc.productions_iff

/-- Expressions are shown in trees, by the name of the rule. -/
theorem nonterminal_zero (ht : t.Climbs id ops) :
    (t.nonterminal 0).name = "e" ∧ (t.nonterminal 0).grammar = id ∧
      (t.nonterminal 0).hidden = false := by
  obtain ⟨c, hc, _, rfl⟩ := ht
  obtain ⟨hname, hgrammar, hhidden, _⟩ := hc.nonterminal_zero
  exact ⟨hname, hgrammar, hhidden⟩

/-- The table takes a token for the sign that it is written for. -/
theorem mem_terminalsFor (ht : t.Climbs id ops) {k : TokenKind} {text : String} :
    x ∈ t.terminalsFor k text ↔
      ∃ s : Sign (Fin ops.length), x = s.code ∧ s.Written ops k text := by
  obtain ⟨c, hc, _, rfl⟩ := ht
  exact LayeredSyntax.mem_terminalsFor hc

/-- A token is written for one sign at most. -/
theorem written_unique (ht : t.Climbs id ops) {s s' : Sign (Fin ops.length)} {k : TokenKind}
    {text : String} (h : s.Written ops k text) (h' : s'.Written ops k text) : s = s' := by
  obtain ⟨c, hc, _, _⟩ := ht
  exact h.unique hc.texts h'

/-- The number of a sign is that of its terminal. -/
theorem terminal?_code (ht : t.Climbs id ops) (s : Sign (Fin ops.length)) :
    t.terminal? s.code = some (s.terminal ops) := by
  obtain ⟨c, hc, _, rfl⟩ := ht
  exact hc.terminal?_code s

/-! ## States and spots -/

/-- The items of a state are of productions of the grammar. -/
theorem grammar_of_at (ht : t.Climbs id ops) (h : t.At state spot) :
    ∃ row item rest, t.states[state]? = some row ∧ row.kernel = item :: rest ∧
      (t.production item.production).grammar = id := by
  obtain ⟨kernel, hkernel, hholds⟩ := h
  obtain ⟨row, hrow, rfl⟩ := Option.map_eq_some_iff.mp hkernel
  obtain ⟨item, rest, hrest⟩ := List.exists_cons_of_ne_nil (List.ne_nil_of_mem hholds.main_mem)
  have hitem : item ∈ row.kernel := by
    rw [hrest]
    exact List.mem_cons_self
  obtain ⟨p, hp, _⟩ := (ht.canonical.kernel_items hkernel).2 item hitem
  refine ⟨row, item, rest, hrow, hrest, ?_⟩
  rw [Composite.production_eq hp]
  exact (ht.productions_iff.mp hp).grammar_eq

/-- Every state is at a spot. -/
theorem exists_at (ht : t.Climbs id ops) {kernel : List Item} (h : t.kernel? state = some kernel) :
    ∃ spot : Spot ops.length, t.At state spot := by
  obtain ⟨c, hc, hw, rfl⟩ := ht
  obtain ⟨_, hk, _⟩ := kernel?_eq_some.mp h
  obtain ⟨spot, hspot⟩ := hc.exists_spot hw kernel (Array.mem_of_getElem? hk)
  exact ⟨spot, kernel, h, hspot⟩

/-- **States follow each other as spots do.** -/
theorem step_of_leads (ht : t.Climbs id ops) {s : Sym} (h : t.Leads state s target) :
    ∃ spot spot' : Spot ops.length, t.At state spot ∧ t.At target spot' ∧ spot.Step s spot' := by
  obtain ⟨kernel, moved, hk, hm, hmove⟩ := h
  obtain ⟨spot, kernel', hk', hspot⟩ := ht.exists_at hk
  obtain rfl : kernel = kernel' := Option.some.inj (hk.symm.trans hk')
  obtain ⟨c, hc, hw, rfl⟩ := ht
  obtain ⟨spot', hstep, hspot'⟩ := hc.move hspot hmove
  exact ⟨spot, spot', ⟨kernel, hk, hspot⟩, ⟨moved, hm, hspot'⟩, hstep⟩

/-- In front of an expression there is a state behind it. -/
theorem exists_goto (ht : t.Climbs id ops) {b : Base ops.length} (h : t.At state (.before b)) :
    ∃ m, t.goto? state 0 = some m ∧ t.At m (.after b) := by
  obtain ⟨c, hc, hw, rfl⟩ := ht
  obtain ⟨kernel, hk, hspot⟩ := h
  obtain ⟨moved, hmove, hspot'⟩ := hc.exists_move hw hspot (.expression b)
  obtain ⟨m, hgoto, hm⟩ := (ofComposite_canonical hw).goto_exists hk hmove
  exact ⟨m, hgoto, moved, hm, hspot'⟩

/-- What a nonterminal leads to is behind an expression. -/
theorem at_of_goto (ht : t.Climbs id ops) (h : t.goto? state a = some target) :
    ∃ b : Base ops.length, t.At state (.before b) ∧ t.At target (.after b) := by
  obtain ⟨spot, spot', hs, hs', hstep⟩ := ht.step_of_leads (ht.canonical.goto h)
  cases hstep with
  | expression b => exact ⟨b, hs, hs'⟩

/-- **Texts are expressions.** -/
theorem exists_entry (ht : t.Climbs id ops) : ∃ e, t.entry? id = some e ∧ e.start = 0 := by
  obtain ⟨c, hc, _, rfl⟩ := ht
  have hentries : (ofComposite c).entries = [⟨id, 0, 0⟩] := by
    show c.roots.zipIdx.map _ = _
    rw [hc.roots]
    rfl
  unfold entry?
  rw [hentries]
  exact ⟨_, List.find?_cons_of_pos (by exact beq_self_eq_true id), rfl⟩

/-- They begin in front of one. -/
theorem at_entry (ht : t.Climbs id ops) {g : GrammarId} {e : Entry} (h : t.entry? g = some e) :
    t.At e.state (.before .text : Spot ops.length) := by
  obtain ⟨r, hr, _, hkernel⟩ := ht.canonical.entry h
  obtain ⟨spot, kernel, hk, hspot⟩ := ht.exists_at hkernel
  obtain rfl := Option.some.inj (hkernel.symm.trans hk)
  obtain ⟨c, hc, _, rfl⟩ := ht
  have hroots : r ∈ c.roots := hr
  rw [hc.roots] at hroots
  obtain rfl := List.mem_singleton.mp hroots
  obtain rfl := hspot.eq_of_mem (.before .text) List.mem_cons_self
  exact ⟨_, hkernel, hspot⟩

/-- **A text is accepted behind the expression that stands by itself.** -/
theorem accept_iff (ht : t.Climbs id ops) :
    .accept ∈ t.actionsAt state endOfText ↔ t.At state (.after .text : Spot ops.length) := by
  obtain ⟨c, hc, hw, rfl⟩ := ht
  have hcanonical := ofComposite_canonical hw
  have hroots : ∀ r, r ∈ (ofComposite c).roots ↔ r = ⟨id, 2 + ops.length, 0⟩ := by
    intro r
    show r ∈ c.roots ↔ _
    rw [hc.roots, List.mem_singleton]
  constructor
  · intro h
    obtain ⟨_, kernel, hkernel, r, hr, hmem⟩ := hcanonical.accept h
    obtain rfl := (hroots r).mp hr
    obtain ⟨spot, kernel', hk, hspot⟩ := exists_at ⟨c, hc, hw, rfl⟩ hkernel
    obtain rfl := Option.some.inj (hkernel.symm.trans hk)
    obtain rfl := hspot.eq_of_mem (.after .text) hmem
    exact ⟨_, hkernel, hspot⟩
  · rintro ⟨kernel, hkernel, hspot⟩
    exact hcanonical.accept_exists hkernel ((hroots _).mpr rfl) hspot.main_mem

/-! ## What can follow an expression -/

theorem follows_end (ht : t.Climbs id ops) : t.Follows 0 endOfText := by
  obtain ⟨c, hc, hw, rfl⟩ := ht
  have hp := hc.productions_iff.mpr .text
  have hmem := Array.mem_toList_iff.mpr (Array.mem_of_getElem? hp)
  have hlt := (hw.productions _ (Array.mem_of_getElem? hp)).lhs_lt
  exact .last hmem (show [Sym.n 0] = [] ++ [.n 0] from rfl) (.root hlt hc.isRoot_one)

theorem follows_closing (ht : t.Climbs id ops) : t.Follows 0 3 := by
  obtain ⟨c, hc, _, rfl⟩ := ht
  have hp := hc.productions_iff.mpr .paren
  exact .next (Array.mem_toList_iff.mpr (Array.mem_of_getElem? hp))
    (show [Sym.t 2, .n 0, .t 3] = [.t 2] ++ .n 0 :: .t 3 :: [] from rfl) (.terminal 3)

theorem follows_operator (ht : t.Climbs id ops) (k : Fin ops.length) : t.Follows 0 (4 + k) := by
  obtain ⟨c, hc, _, rfl⟩ := ht
  have hp := hc.productions_iff.mpr (.joined k)
  exact .next (Array.mem_toList_iff.mpr (Array.mem_of_getElem? hp))
    (show [Sym.n 0, .t (4 + k), .n 0] = [] ++ .n 0 :: .t (4 + k) :: [.n 0] from rfl)
    (.terminal (4 + k))

/-! ## Cells -/

/-- A terminal that leads on is one of them. -/
theorem lt_terminalCount (ht : t.Climbs id ops) (h : spot.Step (.t x) spot') :
    x < t.terminalCount := by
  obtain ⟨c, hc, _, rfl⟩ := ht
  have hlength := congrArg List.length hc.terminals
  rw [Array.length_toList, List.length_append, List.length_map] at hlength
  show x < c.terminals.size + 1
  rw [hlength]
  show x < 3 + ops.length + 1
  cases h <;> omega

/-- The end of the text leads nowhere. -/
theorem ne_endOfText (h : spot.Step (.t x) spot') : x ≠ endOfText := by
  unfold endOfText
  cases h <;> omega

/-- **Where the next state behind a terminal lies**: at the spots that the terminal leads to. -/
theorem nextState?_of_holds {c : Composite} {kernel : List Item} {moves : List (Sym × Nat)}
    (hc : c.Climbs id ops) (hw : c.WellFormed) (hkernel : (ofComposite c).kernel? state = some kernel)
    (hholds : spot.Holds kernel) (hmoves : (Automaton.of (.of c)).moves[state]? = some moves) :
    (∀ m, nextState? moves (.t x) = some m → ∃ spot' : Spot ops.length,
        spot.Step (.t x) spot' ∧ (ofComposite c).At m spot') ∧
      ∀ spot' : Spot ops.length, spot.Step (.t x) spot' →
        ∃ m, nextState? moves (.t x) = some m ∧ (ofComposite c).At m spot' := by
  obtain ⟨_, hk, _⟩ := kernel?_eq_some.mp hkernel
  refine ⟨fun m hnext => ?_, fun spot' hstep => ?_⟩
  · obtain ⟨_, moved, hk', hm', hmove⟩ := nextState?_sound hw hk hmoves hnext
    obtain rfl := Option.some.inj (hkernel.symm.trans hk')
    obtain ⟨spot', hstep, hspot'⟩ := hc.move hholds hmove
    exact ⟨spot', hstep, moved, hm', hspot'⟩
  · obtain ⟨moved, hmove, hspot'⟩ := hc.exists_move hw hholds hstep
    obtain ⟨m, hnext, hm'⟩ := nextState?_complete hw hk hmoves hmove
    exact ⟨m, hnext, moved, hm', hspot'⟩

/-- **What is in a cell**: with nothing complete, what can be read; with nothing to read, what is
    complete; and with both, what the levels leave of them. -/
theorem actionsAt_cases (ht : t.Climbs id ops) (h : t.At state spot) (hx : x < t.terminalCount) :
    ∃ shift : Option Nat,
      (∀ m, shift = some m → ∃ spot' : Spot ops.length, spot.Step (.t x) spot' ∧ t.At m spot') ∧
      (∀ spot' : Spot ops.length, spot.Step (.t x) spot' → ∃ m, shift = some m ∧ t.At m spot') ∧
      ((∃ accepts, (∀ q, spot.done? = some q → ¬ t.Follows 0 x) ∧
          (accepts = true → x = endOfText) ∧ t.actionsAt state x =
            shift.toList.map .shift ++ Composite.acceptance accepts) ∨
        (∃ q, spot.done? = some q ∧ shift = none ∧ t.actionsAt state x = [.reduce q]) ∨
        ∃ (m k : Fin ops.length) (next : Nat), spot = .after (.operand m) ∧ x = 4 + k ∧
          shift = some next ∧
            t.actionsAt state x =
              (resolve (precedenceIn ops m) (precedenceIn ops k)).left next (2 + m)) := by
  obtain ⟨c, hc, hw, rfl⟩ := ht
  obtain ⟨kernel, hkernel, hholds⟩ := h
  obtain ⟨moves, hk, hm⟩ := kernel?_eq_some.mp hkernel
  have hitems := ((ofComposite_canonical hw).kernel_items hkernel).2
  obtain ⟨hsound, hcomplete⟩ := nextState?_of_holds (x := x) hc hw hkernel hholds hm
  have hcell := actionsAt_eq (x := x) hk hm
  rw [if_pos (show x < c.terminalCount from hx)] at hcell
  refine ⟨nextState? moves (.t x), hsound, hcomplete, ?_⟩
  rcases hc.finishes_eq (x := x) hw hitems hholds with hnil | ⟨q, hdone, hq⟩
  · rw [hnil, Composite.cell_prune_nil] at hcell
    refine .inl ⟨_, fun q hdone hfollow => ?_, fun haccepts => ?_, hcell⟩
    · have hmem := (hc.finishes_iff hw hitems hholds).mpr ⟨hdone, hfollow⟩
      rw [hnil] at hmem
      cases hmem
    · exact eq_of_beq (Bool.and_eq_true_iff.mp haccepts).2
  · -- Where something else is complete, the text is not.
    have haccepts : c.accepts kernel = false := by
      refine Bool.eq_false_iff.mpr fun htext => ?_
      obtain rfl := (hc.accepts_iff hw hitems hholds).mp htext
      cases hdone
    rw [hq, haccepts] at hcell
    cases hnext : nextState? moves (.t x) with
    | none =>
      rw [hnext, Composite.cell_prune_none] at hcell
      exact .inr (.inl ⟨q, hdone, rfl, hcell⟩)
    | some next =>
      obtain ⟨spot', hstep, _⟩ := hsound next hnext
      generalize hs : Sym.t x = s at hstep
      cases hstep with
      | number | opening | expression | closing => cases hdone
      | operator b k =>
        cases b with
        | text | paren => cases hdone
        | operand m =>
          obtain rfl := Sym.t.inj hs
          obtain rfl := Option.some.inj hdone
          rw [hnext, Composite.cell_prune_singleton (hc.settle?_joined m k)] at hcell
          exact .inr (.inr ⟨m, k, next, rfl, rfl, rfl, hcell.trans (List.append_nil _)⟩)

/-- Where there is an action, there is a state at a spot. -/
theorem exists_at_of_mem (ht : t.Climbs id ops) {act : Action} (h : act ∈ t.actionsAt state x) :
    x < t.terminalCount ∧ ∃ spot : Spot ops.length, t.At state spot := by
  have hx : x < t.terminalCount ∧ ∃ kernel, t.kernel? state = some kernel := by
    obtain ⟨c, _, _, rfl⟩ := ht
    obtain ⟨kernel, moves, hk, hm, hx, _⟩ := exists_of_mem_actionsAt h
    exact ⟨hx, kernel, kernel?_eq_some.mpr ⟨moves, hk, hm⟩⟩
  obtain ⟨hx, kernel, hkernel⟩ := hx
  exact ⟨hx, ht.exists_at hkernel⟩

/-- **No cell has more than one action.** -/
theorem length_actionsAt_le (ht : t.Climbs id ops) (state x : Nat) :
    (t.actionsAt state x).length ≤ 1 := by
  cases hcell : t.actionsAt state x with
  | nil => exact Nat.zero_le _
  | cons act rest =>
    have hmem : act ∈ t.actionsAt state x := by
      rw [hcell]
      exact List.mem_cons_self
    obtain ⟨hx, spot, hspot⟩ := ht.exists_at_of_mem hmem
    rw [← hcell]
    obtain ⟨shift, hsound, _, ⟨accepts, _, hend, hcell⟩ | ⟨q, _, _, hcell⟩ |
      ⟨m, k, next, _, _, _, hcell⟩⟩ := ht.actionsAt_cases hspot hx
    · rw [hcell]
      cases shift with
      | none => cases accepts <;> decide
      | some m =>
        cases accepts with
        | false => exact Nat.le_refl 1
        | true =>
          -- What is accepted is at the end of the text, where nothing is read.
          obtain ⟨spot', hstep, _⟩ := hsound m rfl
          exact absurd (hend rfl) (ne_endOfText hstep)
    · rw [hcell]
      exact Nat.le_refl 1
    · rw [hcell]
      cases resolve (precedenceIn ops m) (precedenceIn ops k) with
      | shift | reduce => exact Nat.le_refl 1
      | neither => exact Nat.zero_le 1

/-- **An operator is read on where the one in front takes it on its right**; everything else is read
    wherever it leads on. -/
theorem exists_shift (ht : t.Climbs id ops) (h : t.At state spot) (hstep : spot.Step (.t x) spot')
    (hreads : spot.Reads ops x) : ∃ m, .shift m ∈ t.actionsAt state x ∧ t.At m spot' := by
  obtain ⟨shift, _, hcomplete, hcases⟩ := ht.actionsAt_cases h (ht.lt_terminalCount hstep)
  obtain ⟨m, rfl, hm⟩ := hcomplete spot' hstep
  refine ⟨m, ?_, hm⟩
  rcases hcases with ⟨accepts, _, _, hcell⟩ | ⟨q, _, hno, _⟩ |
    ⟨i, k, next, hspot, hx, hnext, hcell⟩
  · rw [hcell]
    exact List.mem_append_left _ List.mem_cons_self
  · cases hno
  · rw [hcell, Precedence.resolve_eq_shift.mpr (hreads i k hspot hx), ← Option.some.inj hnext]
    exact List.mem_cons_self

/-- What is read leads from a spot to another one, and the operator in front takes it. -/
theorem of_shift (ht : t.Climbs id ops) (h : .shift target ∈ t.actionsAt state x) :
    ∃ spot spot' : Spot ops.length, t.At state spot ∧ t.At target spot' ∧
      spot.Step (.t x) spot' ∧ spot.Reads ops x := by
  obtain ⟨hx, spot, hspot⟩ := ht.exists_at_of_mem h
  obtain ⟨shift, hsound, _, ⟨accepts, hnone, _, hcell⟩ | ⟨q, _, _, hcell⟩ |
    ⟨m, k, next, rfl, rfl, hnext, hcell⟩⟩ := ht.actionsAt_cases hspot hx
  · -- An operator behind another one would be among what can follow.
    have hreads : spot.Reads ops x := by
      rintro m k rfl rfl
      exact absurd (ht.follows_operator k) (hnone _ rfl)
    have htarget : shift = some target := by
      rw [hcell] at h
      rcases List.mem_append.mp h with h | h
      · obtain ⟨m, hm, heq⟩ := List.mem_map.mp h
        rw [← Action.shift.inj heq]
        exact Option.mem_toList.mp hm
      · cases Composite.mem_acceptance h
    obtain ⟨spot', hstep, hspot'⟩ := hsound target htarget
    exact ⟨spot, spot', hspot, hspot', hstep, hreads⟩
  · rw [hcell] at h
    cases List.mem_singleton.mp h
  · rw [hcell] at h
    obtain ⟨hshift, rfl⟩ := Resolution.shift_mem_left.mp h
    obtain ⟨spot', hstep, hspot'⟩ := hsound _ hnext
    refine ⟨_, spot', hspot, hspot', hstep, fun m' k' hm' hk' => ?_⟩
    obtain rfl := Base.operand.inj (Spot.after.inj hm')
    obtain rfl : k = k' := Fin.ext (by omega)
    exact Precedence.resolve_eq_shift.mp hshift

/-- **A production is finished where the operator behind takes it on its left**, or where something
    else follows. -/
theorem exists_reduce (ht : t.Climbs id ops) (h : t.At state spot) (hdone : spot.done? = some q)
    (hfollow : t.Follows 0 x) (hfinishes : spot.Finishes ops x) :
    .reduce q ∈ t.actionsAt state x := by
  obtain ⟨shift, _, _, ⟨accepts, hnone, _, _⟩ | ⟨q', hdone', _, hcell⟩ |
    ⟨m, k, next, rfl, rfl, _, hcell⟩⟩ :=
      ht.actionsAt_cases h (hfollow.lt_terminalCount ht.canonical.wellFormed)
  · exact absurd hfollow (hnone q hdone)
  · rw [hcell, Option.some.inj (hdone.symm.trans hdone')]
    exact List.mem_cons_self
  · obtain rfl := Option.some.inj hdone
    rw [hcell]
    exact Resolution.reduce_mem_left.mpr
      ⟨(Precedence.resolve_eq_reduce (ht.assoc_eq m k)).mpr (hfinishes m k rfl rfl), rfl⟩

/-- What is finished is complete, and the operator behind takes it. -/
theorem of_reduce (ht : t.Climbs id ops) (h : .reduce q ∈ t.actionsAt state x) :
    ∃ spot : Spot ops.length, t.At state spot ∧ spot.done? = some q ∧ spot.Finishes ops x := by
  obtain ⟨hx, spot, hspot⟩ := ht.exists_at_of_mem h
  obtain ⟨shift, _, hcomplete, ⟨accepts, _, _, hcell⟩ | ⟨q', hdone, hno, hcell⟩ |
    ⟨m, k, next, rfl, rfl, _, hcell⟩⟩ := ht.actionsAt_cases hspot hx
  · rw [hcell] at h
    rcases List.mem_append.mp h with h | h
    · obtain ⟨_, _, hno⟩ := List.mem_map.mp h
      cases hno
    · cases Composite.mem_acceptance h
  · rw [hcell] at h
    obtain rfl := Action.reduce.inj (List.mem_singleton.mp h)
    refine ⟨spot, hspot, hdone, ?_⟩
    rintro m k rfl rfl
    -- An operator could be read.
    obtain ⟨_, hsome, _⟩ := hcomplete _ (.operator (.operand m) k)
    rw [hno] at hsome
    cases hsome
  · rw [hcell] at h
    obtain ⟨hreduce, rfl⟩ := Resolution.reduce_mem_left.mp h
    refine ⟨_, hspot, rfl, fun m' k' hm' hk' => ?_⟩
    obtain rfl := Base.operand.inj (Spot.after.inj hm')
    obtain rfl : k = k' := Fin.ext (by omega)
    exact (Precedence.resolve_eq_reduce (ht.assoc_eq m k)).mp hreduce

end Table.Climbs

end LayeredSyntax
