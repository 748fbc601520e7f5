/-
  PRECEDENCE CLIMBING, COMPOSED — a grammar with one rule for all operators.

  An expression is a number, an expression in parentheses, or two expressions with an operator
  between them.  That is all the grammar says (`Grammar.climbing`); which of two operators binds
  tighter is left to the levels.

  Whatever the levels are, as long as their names and operators can be told apart (`Distinct`):

  1. Merging puts every level where it was declared, and every operator on its level
     (`mergeFrom_eq`).
  2. Every operator has a terminal of its own, in the order of the declarations, and its production
     has the precedence of its level (`foldlM_joining`).
  3. **The grammar composes**, and its composite is known down to the last number (`Climbs`).
-/
import Mathlib
import LayeredSyntax.Proofs.Composition.Lowered
import LayeredSyntax.Proofs.Table.Reached

namespace LayeredSyntax

/-! ## Levels and their operators -/

/-- The operators of levels with their precedences, when the first level has a rank. -/
def operatorsFrom (rank : Nat) : List Level → List (String × Precedence)
  | [] => []
  | level :: rest =>
    level.operators.map (·, ⟨rank, level.assoc⟩) ++ operatorsFrom (rank + 1) rest

/-- The operators of levels with their precedences. -/
def operatorsOf (levels : List Level) : List (String × Precedence) := operatorsFrom 0 levels

/-- **Whether levels and operators can be told apart**, and operators from parentheses. -/
structure Distinct (levels : List Level) : Prop where
  names : (levels.map (·.name)).Nodup
  operators : ((levels.flatMap (·.operators)).map String.toLower).Nodup
  parens : ∀ op ∈ levels.flatMap (·.operators), op ≠ "(" ∧ op ≠ ")"
  few : levels.length < LevelTable.rankLimit

theorem map_fst_operatorsFrom (rank : Nat) (levels : List Level) :
    (operatorsFrom rank levels).map (·.1) = levels.flatMap (·.operators) := by
  induction levels generalizing rank with
  | nil => rfl
  | cons level rest ih =>
    have hfirst : (level.operators.map (·, (⟨rank, level.assoc⟩ : Precedence))).map (·.1) =
        level.operators := by
      rw [List.map_map]
      exact List.map_id _
    unfold operatorsFrom
    rw [List.map_append, hfirst, ih, List.flatMap_cons]

/-- The precedence of an operator is the place of its level and how the level groups. -/
theorem getElem?_of_mem_operatorsFrom {rank : Nat} {levels : List Level}
    {x : String × Precedence} (h : x ∈ operatorsFrom rank levels) :
    ∃ i level, x.2 = ⟨rank + i, level.assoc⟩ ∧ levels[i]? = some level := by
  induction levels generalizing rank with
  | nil => exact absurd h List.not_mem_nil
  | cons level rest ih =>
    rcases List.mem_append.mp h with h | h
    · obtain ⟨op, _, rfl⟩ := List.mem_map.mp h
      exact ⟨0, level, rfl, rfl⟩
    · obtain ⟨i, level, hx, hi⟩ := ih h
      refine ⟨i + 1, level, hx.trans ?_, hi⟩
      rw [Nat.add_right_comm, Nat.add_assoc]

/-- **Operators of one rank group in one way.** -/
theorem assoc_eq_of_rank_eq {levels : List Level} {x y : String × Precedence}
    (hx : x ∈ operatorsOf levels) (hy : y ∈ operatorsOf levels) (h : x.2.rank = y.2.rank) :
    x.2.assoc = y.2.assoc := by
  obtain ⟨i, level, hx, hi⟩ := getElem?_of_mem_operatorsFrom hx
  obtain ⟨k, level', hy, hk⟩ := getElem?_of_mem_operatorsFrom hy
  rw [hx, hy] at h ⊢
  obtain rfl : i = k := Nat.add_left_cancel h
  obtain rfl : level = level' := Option.some.inj (hi.symm.trans hk)
  rfl

/-! ## Merging -/

/-- What is found under a key stands in the list. -/
theorem mem_of_lookup {α β : Type} [BEq α] [LawfulBEq α] {xs : List (α × β)} {a : α} {b : β}
    (h : xs.lookup a = some b) : (a, b) ∈ xs := by
  obtain ⟨front, back, rfl, _⟩ := List.lookup_eq_some_iff.mp h
  exact List.mem_append_right _ List.mem_cons_self

/-- What stands in a list of pairs whose keys are different is found under its key. -/
theorem lookup_of_nodup {α β : Type} [BEq α] [LawfulBEq α] {xs : List (α × β)} {a : α} {b : β}
    (h : (xs.map (·.1)).Nodup) (hx : (a, b) ∈ xs) : xs.lookup a = some b := by
  obtain ⟨front, back, rfl⟩ := List.append_of_mem hx
  refine List.lookup_eq_some_iff.mpr ⟨front, back, rfl, fun p hp => ?_⟩
  rw [List.map_append, List.map_cons, List.nodup_middle] at h
  refine bne_iff_ne.mpr fun heq => (List.nodup_cons.mp h).1 ?_
  exact List.mem_append_left _ (List.mem_map.mpr ⟨p, hp, heq.symm⟩)

namespace LevelTable

/-- Putting new operators on a level. -/
theorem foldlM_place {t : LevelTable} {name : String} {index : Nat} {ops : List String}
    (hops : (t.operators.map (·.1) ++ ops.map String.toLower).Nodup) :
    ops.foldlM (place name index) t = .ok { t with
      operators := (ops.map fun op => (op.toLower, index)).reverse ++ t.operators } := by
  induction ops generalizing t with
  | nil => rfl
  | cons op rest ih =>
    rw [List.map_cons, List.nodup_middle] at hops
    have hnone : t.operatorLevel? op = none := by
      unfold operatorLevel?
      refine List.lookup_eq_none_iff.mpr fun p hp => bne_iff_ne.mpr fun heq => ?_
      refine (List.nodup_cons.mp hops).1 (List.mem_append_left _ ?_)
      exact heq ▸ List.mem_map_of_mem hp
    have hplace : place name index t op = .ok (t.assign op index) := by
      unfold place
      rw [hnone]
    rw [List.foldlM_cons, hplace]
    show rest.foldlM (place name index) (t.assign op index) = _
    rw [ih (t := t.assign op index) hops, List.map_cons, List.reverse_cons, List.append_assoc]
    rfl

/-- **Merging puts every level where it was declared**, and every operator on its level. -/
theorem mergeFrom_eq {t : LevelTable} {previous : Option Nat} {levels : List Level}
    (hnames : (t.levels.map (·.1) ++ levels.map (·.name)).Nodup)
    (hops : (t.operators.map (·.1) ++
      (levels.flatMap (·.operators)).map String.toLower).Nodup) :
    t.mergeFrom previous levels = .ok ⟨t.levels ++ levels.map fun l => (l.name, l.assoc),
      ((operatorsFrom t.levels.length levels).map fun x => (x.1.toLower, x.2.rank)).reverse ++
        t.operators⟩ := by
  induction levels generalizing t previous with
  | nil =>
    show Except.ok t = Except.ok ⟨t.levels ++ [], t.operators⟩
    rw [List.append_nil]
  | cons level rest ih =>
    rw [List.map_cons, List.nodup_middle] at hnames
    rw [List.flatMap_cons, List.map_append, ← List.append_assoc] at hops
    have hnone : t.indexOf? level.name = none := by
      refine List.findIdx?_eq_none_iff.mpr fun p hp => beq_eq_false_iff_ne.mpr fun heq => ?_
      refine (List.nodup_cons.mp hnames).1 (List.mem_append_left _ ?_)
      exact heq ▸ List.mem_map_of_mem hp
    have hpush : t.push level.name level.assoc =
        { t with levels := t.levels ++ [(level.name, level.assoc)] } := by
      unfold push
      rw [hnone]
      rfl
    have hjoin : t.join previous level =
        .ok ({ t with levels := t.levels ++ [(level.name, level.assoc)] }, t.levels.length) := by
      unfold join
      rw [hnone, hpush]
    have hplace : level.operators.foldlM (place level.name t.levels.length)
        { t with levels := t.levels ++ [(level.name, level.assoc)] } = .ok _ :=
      foldlM_place (List.nodup_append.mp hops).1
    unfold mergeFrom
    rw [hjoin]
    show (level.operators.foldlM (place level.name t.levels.length) _ >>= _) = _
    rw [hplace]
    show mergeFrom _ (some t.levels.length) rest = _
    have hkeys : (((level.operators.map fun op => (op.toLower, t.levels.length)).reverse ++
        t.operators).map (·.1)).Perm
          (t.operators.map (·.1) ++ level.operators.map String.toLower) := by
      rw [List.map_append, List.map_reverse, List.map_map]
      exact (List.perm_append_comm.trans
        (List.Perm.append_left _ (List.reverse_perm _)))
    rw [ih]
    · have hlength : (t.levels ++ [(level.name, level.assoc)]).length = t.levels.length + 1 :=
        List.length_append
      rw [hlength, List.append_assoc, operatorsFrom, List.map_append, List.reverse_append,
        List.append_assoc, List.map_map]
      rfl
    · rw [List.map_append, List.append_assoc]
      exact (List.perm_middle.nodup_iff).mpr hnames
    · exact ((hkeys.append_right _).nodup_iff).mpr hops

end LevelTable

/-- The levels of a grammar that is composed alone. -/
def mergedAlone (id : GrammarId) (levels : List Level) : MergedLevels :=
  ⟨⟨levels.map fun l => (l.name, l.assoc),
    ((operatorsOf levels).map fun x => (x.1.toLower, x.2.rank)).reverse⟩, [(id, [])]⟩

theorem Distinct.map_toLower {levels : List Level} (h : Distinct levels) :
    ((operatorsOf levels).map fun x => x.1.toLower).Nodup := by
  have hmap := map_fst_operatorsFrom 0 levels
  have hops := h.operators
  rw [← hmap, List.map_map] at hops
  exact hops

/-- **Every operator has the precedence of its level.** -/
theorem Distinct.ofOperator? {levels : List Level} (h : Distinct levels) (id : GrammarId)
    {x : String × Precedence} (hx : x ∈ operatorsOf levels) :
    (mergedAlone id levels).ofOperator? id x.1 = some x.2 := by
  obtain ⟨i, level, hprec, hi⟩ := getElem?_of_mem_operatorsFrom hx
  rw [Nat.zero_add] at hprec
  have hlocal : (mergedAlone id levels).localLevel? id x.1 = none := by
    unfold MergedLevels.localLevel? mergedAlone
    rw [List.lookup_cons_self]
    rfl
  have hlevel : (mergedAlone id levels).table.operatorLevel? x.1 = some x.2.rank := by
    refine lookup_of_nodup ?_ (List.mem_reverse.mpr (List.mem_map_of_mem hx))
    show (((operatorsOf levels).map fun x => (x.1.toLower, x.2.rank)).reverse.map (·.1)).Nodup
    rw [List.map_reverse, List.map_map]
    exact List.nodup_reverse.mpr h.map_toLower
  have hlt : i < levels.length := (List.getElem?_eq_some_iff.mp hi).1
  unfold MergedLevels.ofOperator? LevelTable.ofOperator?
  rw [hlocal]
  show ((mergedAlone id levels).table.operatorLevel? x.1).bind _ = _
  rw [hlevel, hprec]
  show ((levels.map fun l => (l.name, l.assoc))[i]?).map _ = _
  rw [List.getElem?_map, hi]
  have hmod : i % LevelTable.rankLimit = i := Nat.mod_eq_of_lt (Nat.lt_trans hlt h.few)
  show some (Precedence.mk (i % LevelTable.rankLimit) level.assoc) = _
  rw [hmod]

/-- Symbols that are no operators have no precedence. -/
theorem ofOperator?_mergedAlone_eq_none {levels : List Level} (id : GrammarId) {text : String}
    (h : ∀ op ∈ levels.flatMap (·.operators), op.toLower ≠ text.toLower) :
    (mergedAlone id levels).ofOperator? id text = none := by
  have hlocal : (mergedAlone id levels).localLevel? id text = none := by
    unfold MergedLevels.localLevel? mergedAlone
    rw [List.lookup_cons_self]
    rfl
  have hlevel : (mergedAlone id levels).table.operatorLevel? text = none := by
    refine List.lookup_eq_none_iff.mpr fun p hp => bne_iff_ne.mpr fun heq => ?_
    obtain ⟨x, hx, rfl⟩ := List.mem_map.mp (List.mem_reverse.mp hp)
    refine h x.1 ?_ heq.symm
    rw [← map_fst_operatorsFrom 0]
    exact List.mem_map_of_mem hx
  unfold MergedLevels.ofOperator? LevelTable.ofOperator?
  rw [hlocal]
  show ((mergedAlone id levels).table.operatorLevel? text).bind _ = _
  rw [hlevel]
  rfl

/-! ## Texts -/

/-- A character in front of the letters is that of no letter. -/
theorem toLower_of_lt {c : Char} (h : c.toLower.toNat < 65) : c.toLower = c := by
  unfold Char.toLower at h ⊢
  split
  · next hupper =>
    rw [dif_pos hupper] at h
    obtain ⟨hge, hle⟩ := hupper
    have hge' : 65 ≤ c.val.toNat := UInt32.le_iff_toNat_le.mp hge
    have hle' : c.val.toNat ≤ 90 := UInt32.le_iff_toNat_le.mp hle
    have hval : (c.val + ('a'.val - 'A'.val)).toNat < 65 := h
    have h32 : ('a'.val - 'A'.val).toNat = 32 := rfl
    rw [UInt32.toNat_add, h32] at hval
    omega
  · rfl

/-- **A text of characters in front of the letters** is the only one in its case. -/
theorem eq_of_toLower_eq {a b : String} (hb : b.toList.all (·.toNat < 65) = true)
    (h : a.toLower = b) : a = b := by
  subst h
  have hkeep : ∀ c ∈ a.toList, c.toLower = c := by
    intro c hc
    refine toLower_of_lt (of_decide_eq_true (List.all_eq_true.mp hb c.toLower ?_))
    unfold String.toLower
    rw [String.toList_map]
    exact List.mem_map_of_mem hc
  refine String.toList_inj.mp ?_
  unfold String.toLower
  rw [String.toList_map, List.map_congr_left hkeep, List.map_id']

/-- Operators are no parentheses in any case. -/
theorem Distinct.toLower_ne {levels : List Level} (h : Distinct levels) {op : String}
    (hop : op ∈ levels.flatMap (·.operators)) :
    op.toLower ≠ "(" ∧ op.toLower ≠ ")" :=
  ⟨fun heq => (h.parens op hop).1 (eq_of_toLower_eq (by decide) heq),
    fun heq => (h.parens op hop).2 (eq_of_toLower_eq (by decide) heq)⟩

/-- **The texts of the symbols are different** in any case. -/
theorem Distinct.nodup_texts {levels : List Level} (h : Distinct levels) :
    (("(" :: ")" :: (operatorsOf levels).map (·.1)).map String.toLower).Nodup := by
  have hopening : "(".toLower = "(" := by decide +kernel
  have hclosing : ")".toLower = ")" := by decide +kernel
  have hops : (operatorsOf levels).map (·.1) = levels.flatMap (·.operators) :=
    map_fst_operatorsFrom 0 levels
  rw [List.map_cons, List.map_cons, hops, hopening, hclosing]
  refine List.nodup_cons.mpr ⟨fun hmem => ?_, List.nodup_cons.mpr ⟨fun hmem => ?_, h.operators⟩⟩
  · rcases List.mem_cons.mp hmem with hno | hmem
    · exact absurd hno (by decide)
    · obtain ⟨op, hop, heq⟩ := List.mem_map.mp hmem
      exact (h.toLower_ne hop).1 heq
  · obtain ⟨op, hop, heq⟩ := List.mem_map.mp hmem
    exact (h.toLower_ne hop).2 heq

/-! ## The grammar -/

/-- Two expressions with an operator between them. -/
def Alternative.joining (op : String) : Alternative :=
  ⟨[.rule "e", .terminal (.sym op), .rule "e"], none, true, none⟩

namespace Grammar

/-- **The grammar of expressions** over the operators of some levels. -/
def climbing (id : GrammarId) (levels : List Level) : Grammar :=
  ⟨id, "e", [⟨"e", .plain [.terminal (.kind .number)] ::
    .plain [.terminal (.sym "("), .rule "e", .terminal (.sym ")")] ::
      (levels.flatMap (·.operators)).map .joining⟩], [], [], levels, [], []⟩

variable {id : GrammarId} {levels : List Level}

theorem hasRule_climbing : (climbing id levels).hasRule "e" = true := by
  unfold hasRule rule? climbing
  rw [List.find?_cons_of_pos (by exact beq_self_eq_true _)]
  rfl

/-- A check of all elements passes when the check of each does. -/
theorem forM_ok {ε α : Type} {f : α → Except ε Unit} {xs : List α}
    (h : ∀ x ∈ xs, f x = .ok ()) : xs.forM f = .ok () := by
  induction xs with
  | nil => rfl
  | cons x xs ih =>
    rw [List.forM_eq_forM, List.forM_cons, h x List.mem_cons_self]
    exact ih fun y hy => h y (List.mem_cons_of_mem _ hy)

theorem checkSymbol_climbing {rule : String} {s : Symbol}
    (h : s = .rule "e" ∨ ∃ t, s = .terminal t) : (climbing id levels).checkSymbol rule s = .ok () := by
  rcases h with rfl | ⟨t, rfl⟩
  · unfold checkSymbol
    exact if_pos hasRule_climbing
  · rfl

/-- The alternatives of the grammar: a number, parentheses, and one for each operator. -/
theorem mem_alternatives_climbing {rule : Rule} {a : Alternative}
    (h : rule ∈ (climbing id levels).rules) (ha : a ∈ rule.alternatives) :
    a = .plain [.terminal (.kind .number)] ∨
      a = .plain [.terminal (.sym "("), .rule "e", .terminal (.sym ")")] ∨
      ∃ op ∈ levels.flatMap (·.operators), a = .joining op := by
  obtain rfl := List.mem_singleton.mp h
  rcases List.mem_cons.mp ha with ha | ha
  · exact .inl ha
  · rcases List.mem_cons.mp ha with ha | ha
    · exact .inr (.inl ha)
    · obtain ⟨op, hop, rfl⟩ := List.mem_map.mp ha
      exact .inr (.inr ⟨op, hop, rfl⟩)

theorem checkRule_climbing {rule : Rule} (h : rule ∈ (climbing id levels).rules) :
    (climbing id levels).checkRule rule = .ok () := by
  have hall : rule.alternatives.forM ((climbing id levels).checkAlternative rule.name) = .ok () := by
    refine forM_ok fun a ha => ?_
    have hsymbols : a.symbols.isEmpty = false ∧
        ∀ s ∈ a.symbols, s = .rule "e" ∨ ∃ t, s = .terminal t := by
      rcases mem_alternatives_climbing h ha with rfl | rfl | ⟨op, _, rfl⟩
      all_goals refine ⟨rfl, fun s hs => ?_⟩
      all_goals simp only [Alternative.plain, Alternative.joining, List.mem_cons, List.not_mem_nil,
        or_false] at hs
      all_goals grind
    unfold checkAlternative
    rw [hsymbols.1]
    exact forM_ok fun s hs => checkSymbol_climbing (hsymbols.2 s hs)
  obtain rfl := List.mem_singleton.mp h
  exact hall

/-- A grammar of one rule needs it, if the rule is the start. -/
theorem checkReachable_of_sole {g : Grammar} {r : Rule} (hrules : g.rules = [r])
    (hstart : g.start = r.name) : g.checkReachable = .ok () := by
  have hplace : 0 ∈ g.rulePlaces (g.start :: g.exports) := by
    refine List.mem_filterMap.mpr ⟨_, List.mem_cons_self, ?_⟩
    rw [hrules, hstart]
    exact if_pos (beq_self_eq_true _)
  have hnone : g.unreachable? = none := by
    refine List.findSome?_eq_none_iff.mpr fun p hp => if_pos ?_
    -- There is no other rule.
    obtain ⟨i, hi⟩ := List.mem_iff_getElem?.mp hp
    obtain ⟨hrule, hmark⟩ := List.getElem?_zip_eq_some.mp hi
    rw [hrules] at hrule hmark
    obtain rfl : i = 0 := Nat.lt_one_iff.mp (List.getElem?_eq_some_iff.mp hrule).1
    rw [Array.getElem?_toList] at hmark
    refine Option.some.inj (hmark.symm.trans (mem_marked.mp ((mem_marked_reach fun x hx => ?_).mpr
      ⟨Nat.one_pos, .start hplace⟩)))
    rw [Array.getElem?_eq_none (by rw [Array.size_map]; exact hx)]
    rfl
  unfold checkReachable
  rw [hnone]

/-- **Nothing is wrong with the grammar.** -/
theorem check_climbing : (climbing id levels).check [climbing id levels] = .ok () := by
  have hrules : (climbing id levels).rules.forM (climbing id levels).checkRule = .ok () :=
    forM_ok fun rule h => checkRule_climbing h
  have hstart : (climbing id levels).checkStart = .ok () := if_pos hasRule_climbing
  have hreachable : (climbing id levels).checkReachable = .ok () := checkReachable_of_sole rfl rfl
  unfold check
  rw [hstart, hrules, hreachable]
  rfl

end Grammar

/-! ## Lowering -/

namespace Composite

/-- The production that joins two expressions by the operator of a terminal. -/
def joinedBy (id : GrammarId) (terminal : Nat) (p : Precedence) : Production :=
  ⟨0, [.n 0, .t terminal, .n 0], id, some p, none, true⟩

variable {id : GrammarId} {levels : List Level} {grammars : List Grammar} {c : Composite}

/-- A terminal that is new is put behind the others. -/
theorem number_of_notMem {t : Terminal} (h : t ∉ c.terminals.toList) :
    c.number t = (c.terminals.size + 1, { c with terminals := c.terminals.push t }) := by
  have hnone : c.terminals.findIdx? (· == t) = none := by
    refine Array.findIdx?_eq_none_iff.mpr fun x hx => beq_eq_false_iff_ne.mpr ?_
    rintro rfl
    exact h (Array.mem_toList_iff.mpr hx)
  unfold number
  rw [hnone]

/-- **A new operator has a new terminal**, and a production of its precedence. -/
theorem lowerAlternative_joining {op : String} {p : Precedence}
    (hrule : c.ruleNumber? id "e" = some 0) (hnew : Terminal.sym op ∉ c.terminals.toList)
    (hp : c.levels.ofOperator? id op = some p) :
    lowerAlternative grammars (.climbing id levels) "e" 0 c (.joining op) = .ok { c with
      terminals := c.terminals.push (.sym op)
      productions := c.productions.push (joinedBy id (c.terminals.size + 1) p) } := by
  have hsymbols : lowerSymbols grammars (.climbing id levels) "e" c []
      (Alternative.joining op).symbols = .ok ([.n 0, .t (c.terminals.size + 1), .n 0],
        { c with terminals := c.terminals.push (.sym op) }) := by
    have hrule' : ruleNumber? { c with terminals := c.terminals.push (.sym op) } id "e" =
      some 0 := hrule
    simp only [Alternative.joining, lowerSymbols, lowerSymbol, Grammar.climbing, hrule,
      number_of_notMem hnew, hrule', bind, Except.bind, List.reverse_cons, List.reverse_nil,
      List.nil_append, List.cons_append]
  have hprecedence : precedenceOf c.levels id (.joining op) = .ok (some p) := by
    show Except.ok (lastOperator? c.levels id [.rule "e", .terminal (.sym op), .rule "e"]) = _
    have hlast : lastOperator? c.levels id [.rule "e", .terminal (.sym op), .rule "e"] =
        c.levels.ofOperator? id op := by
      unfold lastOperator?
      simp only [List.reverse_cons, List.reverse_nil, List.nil_append, List.cons_append,
        List.findSome?_cons, List.findSome?_nil, Terminal.operator?, Option.bind_some]
      cases c.levels.ofOperator? id op <;> rfl
    rw [hlast, hp]
  unfold lowerAlternative
  refine Except.bind_eq_ok.mpr ⟨_, hsymbols, ?_⟩
  exact Except.bind_eq_ok.mpr ⟨_, hprecedence, rfl⟩

/-- The productions of some operators, when the first one has the terminal of a number. -/
def joiningFrom (id : GrammarId) (terminal : Nat) (ops : List (String × Precedence)) :
    List Production :=
  ops.mapIdx fun m x => joinedBy id (terminal + m) x.2

/-- **Lowering the operators** gives one terminal and one production for each. -/
theorem foldlM_joining {ops : List (String × Precedence)}
    (hrule : c.ruleNumber? id "e" = some 0)
    (hnew : (c.terminals.toList ++ ops.map fun x => Terminal.sym x.1).Nodup)
    (hp : ∀ x ∈ ops, c.levels.ofOperator? id x.1 = some x.2) :
    (ops.map fun x => Alternative.joining x.1).foldlM
        (lowerAlternative grammars (.climbing id levels) "e" 0) c = .ok { c with
      terminals := c.terminals ++ (ops.map fun x => Terminal.sym x.1).toArray
      productions := c.productions ++ (joiningFrom id (c.terminals.size + 1) ops).toArray } := by
  induction ops generalizing c with
  | nil =>
    show Except.ok c = Except.ok { c with
      terminals := c.terminals ++ #[], productions := c.productions ++ #[] }
    rw [Array.append_empty, Array.append_empty]
  | cons x rest ih =>
    rw [List.map_cons, List.nodup_middle] at hnew
    have hfresh := List.nodup_cons.mp hnew
    have hstep : lowerAlternative grammars (.climbing id levels) "e" 0 c (.joining x.1) = .ok _ :=
      lowerAlternative_joining hrule (fun h => hfresh.1 (List.mem_append_left _ h))
        (hp x List.mem_cons_self)
    have hnodup : ((c.terminals.push (.sym x.1)).toList ++
        rest.map fun x => Terminal.sym x.1).Nodup := by
      rw [Array.toList_push, List.append_assoc, List.singleton_append, List.nodup_middle]
      exact hnew
    rw [List.map_cons, List.foldlM_cons]
    refine Except.bind_eq_ok.mpr ⟨_, hstep, ?_⟩
    refine (ih (c := { c with
      terminals := c.terminals.push (.sym x.1)
      productions := c.productions.push (joinedBy id (c.terminals.size + 1) x.2) }) hrule hnodup
        fun y hy => hp y (List.mem_cons_of_mem _ hy)).trans ?_
    have hrest : joinedBy id (c.terminals.size + 1) x.2 ::
        joiningFrom id ((c.terminals.push (.sym x.1)).size + 1) rest =
          joiningFrom id (c.terminals.size + 1) (x :: rest) := by
      unfold joiningFrom
      rw [List.mapIdx_cons, Array.size_push]
      refine congrArg _ (List.mapIdx_eq_mapIdx_iff.mpr fun m _ => ?_)
      rw [Nat.add_assoc, Nat.add_comm 1 m]
    rw [← hrest]
    simp only [List.map_cons, List.push_append_toArray]

/-- **What is known of the composite** of an expression grammar: its numbers, down to the last. -/
structure Climbs (c : Composite) (id : GrammarId) (ops : List (String × Precedence)) : Prop where
  terminals : c.terminals.toList =
    [.kind .number, .sym "(", .sym ")"] ++ ops.map fun x => .sym x.1
  nonterminals : c.nonterminals.toList =
    nonterminalsOf (.climbing id []) ++ [rootOf (.climbing id [])]
  productions : c.productions.toList =
    [⟨0, [.t 1], id, none, none, false⟩, ⟨0, [.t 2, .n 0, .t 3], id, none, none, false⟩] ++
      joiningFrom id 4 ops ++ [⟨1, [.n 0], id, none, none, false⟩]
  roots : c.roots = [⟨id, 2 + ops.length, 0⟩]
  precedence : ∀ x ∈ ops, c.levels.ofOperator? id x.1 = some x.2
  /-- The texts of the symbols are different in any case. -/
  texts : (("(" :: ")" :: ops.map (·.1)).map String.toLower).Nodup
  /-- Operators of one rank group in one way. -/
  assoc : ∀ x ∈ ops, ∀ y ∈ ops, x.2.rank = y.2.rank → x.2.assoc = y.2.assoc

/-- What there is before the first operator is lowered. -/
def beforeOperators (id : GrammarId) (levels : List Level) : Composite :=
  { Composite.empty with
    grammars := [id]
    terminals := #[.kind .number, .sym "(", .sym ")"]
    nonterminals := (nonterminalsOf (.climbing id [])).toArray
    productions :=
      #[⟨0, [.t 1], id, none, none, false⟩, ⟨0, [.t 2, .n 0, .t 3], id, none, none, false⟩]
    levels := mergedAlone id levels }

/-- The rule has the first number. -/
theorem ruleNumber?_climbing
    (h : c.nonterminals = (nonterminalsOf (.climbing id levels)).toArray) :
    c.ruleNumber? id "e" = some 0 := by
  unfold ruleNumber?
  rw [h]
  simp [nonterminalsOf, Grammar.climbing, List.findIdx?_cons]

/-- What there is before anything is lowered. -/
def beforeRule (id : GrammarId) (levels : List Level) : Composite :=
  { beforeOperators id levels with terminals := #[], productions := #[] }

/-- A number has the first terminal and the first production. -/
theorem lowerAlternative_number :
    lowerAlternative grammars (.climbing id levels) "e" 0 (beforeRule id levels)
      (.plain [.terminal (.kind .number)]) = .ok { beforeRule id levels with
        terminals := #[.kind .number]
        productions := #[⟨0, [.t 1], id, none, none, false⟩] } := by
  have hnumber : (beforeRule id levels).number (.kind .number) =
      (1, { beforeRule id levels with terminals := #[.kind .number] }) :=
    number_of_notMem List.not_mem_nil
  unfold lowerAlternative
  refine Except.bind_eq_ok.mpr
    ⟨([.t 1], { beforeRule id levels with terminals := #[.kind .number] }), ?_, rfl⟩
  simp only [Alternative.plain, lowerSymbols, lowerSymbol, hnumber, bind, Except.bind,
    List.reverse_cons, List.reverse_nil, List.nil_append]

/-- **Parentheses have the next ones**, and no precedence. -/
theorem lowerAlternative_paren (h : Distinct levels) :
    lowerAlternative grammars (.climbing id levels) "e" 0 { beforeRule id levels with
        terminals := #[.kind .number]
        productions := #[⟨0, [.t 1], id, none, none, false⟩] }
      (.plain [.terminal (.sym "("), .rule "e", .terminal (.sym ")")]) =
        .ok (beforeOperators id levels) := by
  let c : Composite := { beforeRule id levels with
    terminals := #[.kind .number]
    productions := #[⟨0, [.t 1], id, none, none, false⟩] }
  have hopening : c.number (.sym "(") =
      (2, { c with terminals := #[.kind .number, .sym "("] }) :=
    number_of_notMem (show Terminal.sym "(" ∉ [.kind .number] by decide)
  have hclosing : number { c with terminals := #[.kind .number, .sym "("] } (.sym ")") =
      (3, { c with terminals := #[.kind .number, .sym "(", .sym ")"] }) :=
    number_of_notMem (show Terminal.sym ")" ∉ [.kind .number, .sym "("] by decide)
  have hrule : ruleNumber? { c with terminals := #[.kind .number, .sym "("] } id "e" = some 0 :=
    ruleNumber?_climbing rfl
  have hprecedence : precedenceOf (mergedAlone id levels) id
      (.plain [.terminal (.sym "("), .rule "e", .terminal (.sym ")")]) = .ok none := by
    have hnone : ∀ text : String, (∀ op ∈ levels.flatMap (·.operators), op.toLower ≠ text) →
        text.toLower = text → (mergedAlone id levels).ofOperator? id text = none :=
      fun text hne hsame => ofOperator?_mergedAlone_eq_none id fun op hop =>
        hsame.symm ▸ hne op hop
    have hopens := hnone "(" (fun op hop => (h.toLower_ne hop).1) (by decide +kernel)
    have hcloses := hnone ")" (fun op hop => (h.toLower_ne hop).2) (by decide +kernel)
    show Except.ok (lastOperator? _ _ _) = _
    unfold lastOperator?
    simp only [Alternative.plain, List.reverse_cons, List.reverse_nil, List.nil_append,
      List.cons_append, List.findSome?_cons, List.findSome?_nil, Terminal.operator?,
      Option.bind_some, hopens, hcloses]
  unfold lowerAlternative
  refine Except.bind_eq_ok.mpr ⟨([.t 2, .n 0, .t 3],
    { c with terminals := #[.kind .number, .sym "(", .sym ")"] }), ?_, ?_⟩
  · show lowerSymbols grammars (.climbing id levels) "e" c [] _ = _
    simp only [Alternative.plain, lowerSymbols, lowerSymbol, Grammar.climbing, hopening, hrule,
      hclosing, bind, Except.bind, List.reverse_cons, List.reverse_nil, List.nil_append,
      List.cons_append]
  · exact Except.bind_eq_ok.mpr ⟨_, hprecedence, rfl⟩

/-- All terminals are different, since their texts are. -/
theorem nodup_terminals (h : Distinct levels) :
    ((beforeOperators id levels).terminals.toList ++
      (operatorsOf levels).map fun x => Terminal.sym x.1).Nodup := by
  have htexts : ("(" :: ")" :: (operatorsOf levels).map (·.1)).Nodup :=
    h.nodup_texts.of_map
  have hsymbols := htexts.map (f := Terminal.sym) fun _ _ => Terminal.sym.inj
  rw [List.map_cons, List.map_cons, List.map_map] at hsymbols
  refine List.nodup_cons.mpr ⟨fun hmem => ?_, hsymbols⟩
  rcases List.mem_cons.mp hmem with hno | hmem
  · cases hno
  · rcases List.mem_cons.mp hmem with hno | hmem
    · cases hno
    · obtain ⟨x, _, hno⟩ := List.mem_map.mp hmem
      cases hno

/-- **Lowering the rule.** -/
theorem lowerRule_climbing (h : Distinct levels) {r : Rule}
    (hr : r ∈ (Grammar.climbing id levels).rules) :
    lowerRule grammars (.climbing id levels) (beforeRule id levels) r =
      .ok { beforeOperators id levels with
        terminals := (beforeOperators id levels).terminals ++
          ((operatorsOf levels).map fun x => Terminal.sym x.1).toArray
        productions := (beforeOperators id levels).productions ++
          (joiningFrom id 4 (operatorsOf levels)).toArray } := by
  obtain rfl := List.mem_singleton.mp hr
  have hrule : (beforeRule id levels).ruleNumber? id "e" = some 0 := ruleNumber?_climbing rfl
  have hops : (levels.flatMap (·.operators)).map Alternative.joining =
      (operatorsOf levels).map fun x => Alternative.joining x.1 := by
    rw [← map_fst_operatorsFrom 0, List.map_map]
    rfl
  unfold lowerRule
  rw [show (beforeRule id levels).ruleNumber? (Grammar.climbing id levels).id "e" = some 0 from hrule]
  dsimp only
  show List.foldlM _ _ (_ :: _ :: List.map Alternative.joining _) = _
  rw [hops, List.foldlM_cons]
  refine Except.bind_eq_ok.mpr ⟨_, lowerAlternative_number, ?_⟩
  rw [List.foldlM_cons]
  refine Except.bind_eq_ok.mpr ⟨_, lowerAlternative_paren h, ?_⟩
  exact foldlM_joining (ruleNumber?_climbing rfl) (nodup_terminals h)
    fun x hx => h.ofOperator? id hx

/-- The root of the grammar is put behind everything else. -/
theorem addRoot_climbing (hns : c.nonterminals = (nonterminalsOf (.climbing id levels)).toArray) :
    c.addRoot (.climbing id levels) = .ok { c with
      nonterminals := c.nonterminals.push (rootOf (.climbing id levels))
      productions := c.productions.push ⟨1, [.n 0], id, none, none, false⟩
      roots := c.roots ++ [⟨id, c.productions.size, 0⟩]
      resync := c.resync ++ [(id, [])] } := by
  have hrule : c.ruleNumber? (Grammar.climbing id levels).id (Grammar.climbing id levels).start =
      some 0 := ruleNumber?_climbing hns
  unfold addRoot
  rw [hrule, hns]
  rfl

/-- A fold over one element is one step. -/
theorem foldlM_singleton {ε α β : Type} {f : β → α → Except ε β} {a : α} {b b' : β}
    (h : f b a = .ok b') : [a].foldlM f b = .ok b' :=
  Except.bind_eq_ok.mpr ⟨b', h, rfl⟩

theorem lower_climbing (h : Distinct levels) :
    ∃ c, lower [.climbing id levels] (mergedAlone id levels) = .ok c ∧
      c.Climbs id (operatorsOf levels) := by
  have hrules : [Grammar.climbing id levels].foldlM (lowerGrammar [.climbing id levels])
      (beforeRule id levels) = .ok _ :=
    foldlM_singleton (foldlM_singleton (lowerRule_climbing h List.mem_cons_self))
  have hbare : lower [.climbing id levels] (mergedAlone id levels) =
      [Grammar.climbing id levels].foldlM (lowerGrammar [.climbing id levels])
        (beforeRule id levels) >>= fun c => [Grammar.climbing id levels].foldlM addRoot c := rfl
  refine ⟨_, hbare.trans (Except.bind_eq_ok.mpr
    ⟨_, hrules, foldlM_singleton (addRoot_climbing rfl)⟩), ?_, rfl, ?_, ?_, ?_, ?_, ?_⟩
  · exact Array.toList_append.trans rfl
  · show (((beforeOperators id levels).productions ++
      (joiningFrom id 4 (operatorsOf levels)).toArray).push _).toList = _
    rw [Array.toList_push, Array.toList_append]
    rfl
  · show [(⟨id, ((beforeOperators id levels).productions ++
      (joiningFrom id 4 (operatorsOf levels)).toArray).size, 0⟩ : Root)] = _
    have hsize : (joiningFrom id 4 (operatorsOf levels)).toArray.size =
        (operatorsOf levels).length := List.length_mapIdx
    rw [Array.size_append, hsize]
    rfl
  · exact fun x hx => h.ofOperator? id hx
  · exact h.nodup_texts
  · exact fun x hx y hy => assoc_eq_of_rank_eq hx hy

/-- **Grammars of expressions compose**, whatever their levels are. -/
theorem compositeOf_climbing (h : Distinct levels) (id : GrammarId) :
    ∃ c, compositeOf [.climbing id levels] = .ok c ∧ c.Climbs id (operatorsOf levels) := by
  have hmerge : mergeLevels [.climbing id levels] = .ok (mergedAlone id levels) := by
    have htable : LevelTable.empty.mergeFrom none levels = .ok (mergedAlone id levels).table := by
      refine (LevelTable.mergeFrom_eq (t := .empty) h.names h.operators).trans ?_
      show Except.ok (LevelTable.mk _ (_ ++ [])) = _
      rw [List.append_nil]
      rfl
    refine Except.bind_eq_ok.mpr ⟨_, foldlM_singleton htable, ?_⟩
    rfl
  have hcheck : [Grammar.climbing id levels].forM (Grammar.check [.climbing id levels]) = .ok () :=
    Grammar.forM_ok fun g hg => List.mem_singleton.mp hg ▸ Grammar.check_climbing
  have hcycle : embeddingCycle? [Grammar.climbing id levels] = none := by
    have hfind : findGrammar? [Grammar.climbing id levels] id = some (.climbing id levels) :=
      List.find?_cons_of_pos (by exact beq_self_eq_true id)
    have hwalk : walkEmbeddings [Grammar.climbing id levels] [] [] id 2 = .ok [id] := by
      unfold walkEmbeddings
      rw [if_neg List.not_mem_nil, if_neg List.not_mem_nil, hfind]
      rfl
    have hwalks : [Grammar.climbing id levels].foldlM (fun done g =>
        walkEmbeddings [.climbing id levels] [] done g.id 2) [] = .ok [id] :=
      foldlM_singleton hwalk
    unfold embeddingCycle?
    dsimp only [List.length_cons, List.length_nil]
    rw [hwalks]
  obtain ⟨c, hc, hclimbs⟩ := lower_climbing h
  refine ⟨c, ?_, hclimbs⟩
  unfold compositeOf
  rw [show distinctGrammars [Grammar.climbing id levels] = [.climbing id levels] from rfl]
  dsimp only
  rw [hcycle]
  refine Except.bind_eq_ok.mpr ⟨_, hcheck, ?_⟩
  exact Except.bind_eq_ok.mpr ⟨_, hmerge, hc⟩

end Composite

end LayeredSyntax
