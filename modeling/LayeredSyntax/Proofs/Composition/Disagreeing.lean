/-
  LEVELS THAT DISAGREE — when a merge of levels fails.

  Levels disagree (`Disagree`) when one name groups in two ways, when one operator is on levels of
  two names, or when two names stand in both orders.  A merge reports all of that, and more.  It
  puts a level that it does not know behind all that it knows, so it also fails on a grammar with a
  new level in front of a known one, whether or not anything speaks against that order:

  1. a merge fails for its levels exactly if they conflict (`LevelConflict`), where the order of two
     names is that of their first declarations in the whole list (`mergeLevels_conflict_iff`), and
     so does a composition that comes as far (`compose_conflict_iff`);
  2. levels that disagree conflict (`Disagree.conflict`);
  3. the converse fails: the same two grammars can be merged in one order and not in the other
     (`compose_conflict_without_disagreement`).

  **The crux** is what a row is while it is built up: its levels stand in the order of their first
  declarations among all that is merged, and each has been declared, with its associativity and its
  operators, by something merged so far (`LevelTable.Records`).
-/
import LayeredSyntax.Proofs.Composition.Cycles
import LayeredSyntax.Proofs.Composition.Merging

namespace LayeredSyntax

variable {grammars : List Grammar}

/-- All levels that some grammars declare, in the order in which they are merged. -/
def declaredLevels (grammars : List Grammar) : List Level := grammars.flatMap (·.levels)

/-- Where a name is declared first. -/
def firstPlace (levels : List Level) (name : String) : Nat := levels.findIdx (·.name == name)

/-- The names of a grammar's levels, in their order. -/
def Grammar.levelNames (g : Grammar) : List String := g.levels.map (·.name)

/-- **Grammars that contradict each other**, or themselves, in what they say of levels. -/
inductive Disagree (grammars : List Grammar) : Prop where
  /-- One name groups in two ways. -/
  | associativity {a b : Level} (ha : a ∈ declaredLevels grammars)
      (hb : b ∈ declaredLevels grammars) (hname : a.name = b.name) (hassoc : a.assoc ≠ b.assoc)
  /-- One operator is on levels of two names. -/
  | operator {a b : Level} {op : String} (ha : a ∈ declaredLevels grammars)
      (hb : b ∈ declaredLevels grammars) (hop : a.Lists op) (hop' : b.Lists op)
      (hname : a.name ≠ b.name)
  /-- Two names stand in both orders. -/
  | order {g g' : Grammar} {x y : String} (hg : g ∈ grammars) (hg' : g' ∈ grammars) (hne : x ≠ y)
      (h : [x, y].Sublist g.levelNames) (h' : [y, x].Sublist g'.levelNames)

/-- **Levels for which a merge fails.** -/
inductive LevelConflict (grammars : List Grammar) : Prop where
  | associativity {a b : Level} (ha : a ∈ declaredLevels grammars)
      (hb : b ∈ declaredLevels grammars) (hname : a.name = b.name) (hassoc : a.assoc ≠ b.assoc)
  | operator {a b : Level} {op : String} (ha : a ∈ declaredLevels grammars)
      (hb : b ∈ declaredLevels grammars) (hop : a.Lists op) (hop' : b.Lists op)
      (hname : a.name ≠ b.name)
  /-- A grammar puts a name behind one that is declared only later. -/
  | order {g : Grammar} {x y : String} (hg : g ∈ grammars) (h : [x, y].Sublist g.levelNames)
      (hfirst : firstPlace (declaredLevels grammars) y < firstPlace (declaredLevels grammars) x)

/-! ## First declarations -/

section

variable {done more : List Level} {name x y : String}

theorem firstPlace_lt (h : ∃ l ∈ done, l.name = name) :
    firstPlace (done ++ more) name < done.length := by
  have hlt : done.findIdx (·.name == name) < done.length := by
    obtain ⟨l, hl, hname⟩ := h
    exact List.findIdx_lt_length_of_exists ⟨l, hl, beq_iff_eq.mpr hname⟩
  unfold firstPlace
  rw [List.findIdx_append, if_pos hlt]
  exact hlt

theorem le_firstPlace (h : ∀ l ∈ done, l.name ≠ name) :
    done.length ≤ firstPlace (done ++ more) name := by
  have hge : ¬ done.findIdx (·.name == name) < done.length := by
    intro hlt
    obtain ⟨l, hl, hname⟩ := List.findIdx_lt_length.mp hlt
    exact h l hl (beq_iff_eq.mp hname)
  unfold firstPlace
  rw [List.findIdx_append, if_neg hge]
  exact Nat.le_add_left _ _

/-- Different names have different first places. -/
theorem eq_of_firstPlace_eq {levels : List Level} (h : ∃ l ∈ levels, l.name = x)
    (heq : firstPlace levels x = firstPlace levels y) : x = y := by
  have hlt : firstPlace levels x < levels.length := by
    have hfront : firstPlace (levels ++ []) x < levels.length := firstPlace_lt h
    rwa [List.append_nil] at hfront
  have hx : levels[firstPlace levels x].name = x := beq_iff_eq.mp (List.findIdx_getElem (w := hlt))
  have hlt' : firstPlace levels y < levels.length := heq ▸ hlt
  have hy : levels[firstPlace levels y].name = y := beq_iff_eq.mp (List.findIdx_getElem (w := hlt'))
  simp only [heq] at hx
  exact hx.symm.trans hy

end

/-- **Grammars that disagree conflict**: of two names that stand in both orders one is declared
    first. -/
theorem Disagree.conflict (h : Disagree grammars) : LevelConflict grammars := by
  cases h with
  | associativity ha hb hname hassoc => exact .associativity ha hb hname hassoc
  | operator ha hb hop hop' hname => exact .operator ha hb hop hop' hname
  | @order g g' x y hg hg' hne h h' =>
    have hx : ∃ l ∈ declaredLevels grammars, l.name = x := by
      obtain ⟨l, hl, hname⟩ := List.mem_map.mp (h.subset List.mem_cons_self)
      exact ⟨l, List.mem_flatMap.mpr ⟨g, hg, hl⟩, hname⟩
    rcases Nat.lt_trichotomy (firstPlace (declaredLevels grammars) x)
      (firstPlace (declaredLevels grammars) y) with hlt | heq | hgt
    · exact .order hg' h' hlt
    · exact absurd (eq_of_firstPlace_eq hx heq) hne
    · exact .order hg h hgt

namespace LevelTable

variable {t t' : LevelTable} {level : Level} {all done more : List Level} {op name : String}
  {index : Nat}

/-! ## What a row records -/

/-- **What a row is while it is built up**, when `done` of `all` levels have been merged. -/
structure Records (all : List Level) (t : LevelTable) (done : List Level) : Prop where
  known : ∀ {name : String} {i : Nat}, t.indexOf? name = some i → ∃ l ∈ done, l.name = name
  complete : ∀ l ∈ done, ∃ i, t.indexOf? l.name = some i
  assoc : ∀ {i : Nat} {entry : String × Assoc}, t.levels[i]? = some entry →
    ∃ l ∈ done, l.name = entry.1 ∧ l.assoc = entry.2
  operators : ∀ {op : String} {i : Nat}, t.operatorLevel? op = some i →
    ∃ l ∈ done, l.Lists op ∧ t.indexOf? l.name = some i
  /-- Levels stand in the order of their first declarations. -/
  order : ∀ {x y : String} {i j : Nat}, t.indexOf? x = some i → t.indexOf? y = some j → i < j →
    firstPlace all x < firstPlace all y

theorem records_empty (all : List Level) : Records all .empty [] where
  known h := nomatch h
  complete _ h := nomatch h
  assoc h := nomatch h
  operators h := nomatch h
  order h := nomatch h

theorem indexOf?_push (hnone : t.indexOf? level.name = none) (name : String) :
    (t.push level.name level.assoc).indexOf? name =
      (t.indexOf? name).or (if level.name = name then some t.levels.length else none) := by
  unfold push
  rw [hnone]
  show (t.levels ++ [(level.name, level.assoc)]).findIdx? (·.1 == name) = _
  rw [List.findIdx?_append]
  unfold LevelTable.indexOf?
  by_cases hname : level.name = name
  · simp [hname]
  · simp [hname]

/-- What is found behind a new level was known, or it is the new level. -/
theorem indexOf?_push_cases (hnone : t.indexOf? level.name = none)
    (h : (t.push level.name level.assoc).indexOf? name = some index) :
    t.indexOf? name = some index ∨ level.name = name ∧ index = t.levels.length := by
  rw [indexOf?_push hnone, Option.or_eq_some_iff] at h
  rcases h with h | ⟨-, h⟩
  · exact .inl h
  · right
    split at h
    · next hname => exact ⟨hname, (Option.some.inj h).symm⟩
    · cases h

/-- What is known keeps its place behind a new level. -/
theorem indexOf?_push_of_some (hnone : t.indexOf? level.name = none)
    (h : t.indexOf? name = some index) :
    (t.push level.name level.assoc).indexOf? name = some index := by
  rw [indexOf?_push hnone, h]
  rfl

/-- A new level has the next place. -/
theorem indexOf?_push_self (hnone : t.indexOf? level.name = none) :
    (t.push level.name level.assoc).indexOf? level.name = some t.levels.length := by
  rw [indexOf?_push hnone, hnone, if_pos rfl]
  rfl

theorem levels_push (hnone : t.indexOf? level.name = none) :
    (t.push level.name level.assoc).levels = t.levels ++ [(level.name, level.assoc)] := by
  unfold push
  rw [hnone]
  rfl

theorem operatorLevel?_push (t : LevelTable) (level : Level) (op : String) :
    (t.push level.name level.assoc).operatorLevel? op = t.operatorLevel? op := by
  unfold push
  split <;> rfl

/-- A level that is known is recorded as it is. -/
theorem Records.again (h : Records all t done) (hknown : t.indexOf? level.name = some index) :
    Records all t (done ++ [level]) where
  known hi := by
    obtain ⟨l, hl, hname⟩ := h.known hi
    exact ⟨l, List.mem_append_left _ hl, hname⟩
  complete l hl := by
    rcases List.mem_append.mp hl with hl | hl
    · exact h.complete l hl
    · rw [List.mem_singleton.mp hl]
      exact ⟨index, hknown⟩
  assoc hi := by
    obtain ⟨l, hl, hentry⟩ := h.assoc hi
    exact ⟨l, List.mem_append_left _ hl, hentry⟩
  operators hop := by
    obtain ⟨l, hl, hlists⟩ := h.operators hop
    exact ⟨l, List.mem_append_left _ hl, hlists⟩
  order := h.order

/-- **A level that is new is put at the end**, and everything known was declared before it. -/
theorem Records.push (h : Records all t done) (hall : all = done ++ level :: more)
    (hnone : t.indexOf? level.name = none) :
    Records all (t.push level.name level.assoc) (done ++ [level]) := by
  refine ⟨fun hi => ?_, fun l hl => ?_, fun {i entry} hi => ?_, fun hop => ?_,
    fun {x y i j} hx hy hlt => ?_⟩
  · rcases indexOf?_push_cases hnone hi with hi | ⟨hname, -⟩
    · obtain ⟨l, hl, hname⟩ := h.known hi
      exact ⟨l, List.mem_append_left _ hl, hname⟩
    · exact ⟨level, List.mem_append_right _ List.mem_cons_self, hname⟩
  · rcases List.mem_append.mp hl with hl | hl
    · obtain ⟨i, hi⟩ := h.complete l hl
      exact ⟨i, indexOf?_push_of_some hnone hi⟩
    · rw [List.mem_singleton.mp hl]
      exact ⟨_, indexOf?_push_self hnone⟩
  · rw [levels_push hnone, List.getElem?_append] at hi
    split at hi
    · obtain ⟨l, hl, hentry⟩ := h.assoc hi
      exact ⟨l, List.mem_append_left _ hl, hentry⟩
    · rw [List.getElem?_singleton] at hi
      split at hi
      · rw [← Option.some.inj hi]
        exact ⟨level, List.mem_append_right _ List.mem_cons_self, rfl, rfl⟩
      · cases hi
  · rw [operatorLevel?_push] at hop
    obtain ⟨l, hl, hlists, hi⟩ := h.operators hop
    exact ⟨l, List.mem_append_left _ hl, hlists, indexOf?_push_of_some hnone hi⟩
  · rcases indexOf?_push_cases hnone hx with hx | ⟨-, rfl⟩
    · rcases indexOf?_push_cases hnone hy with hy | ⟨rfl, -⟩
      · exact h.order hx hy hlt
      · -- The first name was declared before, and the second one was not.
        have hnew : ∀ l ∈ done, l.name ≠ level.name := by
          intro l hl hname
          obtain ⟨i, hi⟩ := h.complete l hl
          rw [hname, hnone] at hi
          cases hi
        rw [hall]
        exact (firstPlace_lt (h.known hx)).trans_le (le_firstPlace hnew)
    · rcases indexOf?_push_cases hnone hy with hy | ⟨-, rfl⟩
      · have := indexOf?_lt hy
        omega
      · omega

/-- Putting an operator on a level that lists it. -/
theorem Records.assign (h : Records all t done) (hlevel : level ∈ done) (hop : level.Lists op)
    (hindex : t.indexOf? level.name = some index) : Records all (t.assign op index) done where
  known := h.known
  complete := h.complete
  assoc := h.assoc
  order := h.order
  operators := by
    intro op' i hop'
    change ((op.toLower, index) :: t.operators).lookup op'.toLower = some i at hop'
    rw [List.lookup_cons] at hop'
    split at hop'
    · next heq =>
      obtain rfl := Option.some.inj hop'
      obtain ⟨listed, hlisted, hlower⟩ := hop
      exact ⟨level, hlevel, ⟨listed, hlisted, hlower.trans (eq_of_beq heq).symm⟩, hindex⟩
    · exact h.operators hop'

/-! ## Steps of a merge -/

/-- A name that a grammar declares behind another one. -/
theorem sublist_levelNames {g : Grammar} {past rest : List Level} {l : Level}
    (hg : g.levels = past ++ level :: rest) (hl : l ∈ past) :
    [l.name, level.name].Sublist g.levelNames := by
  have hfront : [l.name].Sublist (past.map (·.name)) :=
    List.singleton_sublist.mpr (List.mem_map_of_mem hl)
  have hback : [level.name].Sublist ((level :: rest).map (·.name)) :=
    List.singleton_sublist.mpr (List.mem_map_of_mem List.mem_cons_self)
  unfold Grammar.levelNames
  rw [hg, List.map_append]
  exact hfront.append hback

section

variable {grammars : List Grammar} {g : Grammar} {front past rest back : List Level}
  {previous : Option Nat}

/-- Finding a level its place fails on a conflict, or the level is recorded. -/
theorem Records.join (hg : g ∈ grammars) (hlevels : g.levels = past ++ level :: rest)
    (hall : declaredLevels grammars = front ++ past ++ level :: more)
    (h : Records (declaredLevels grammars) t (front ++ past))
    (hprevious : ∀ p, previous = some p → ∃ l ∈ past, t.indexOf? l.name = some p) :
    Yields (fun _ => LevelConflict grammars)
      (fun joined => Records (declaredLevels grammars) joined.1 (front ++ past ++ [level]) ∧
        joined.1.indexOf? level.name = some joined.2) (t.join previous level) := by
  have hdone : ∀ l ∈ front ++ past, l ∈ declaredLevels grammars := by
    intro l hl
    rw [hall]
    exact List.mem_append_left _ hl
  have hself : level ∈ declaredLevels grammars := by
    rw [hall]
    exact List.mem_append_right _ List.mem_cons_self
  unfold LevelTable.join
  split
  · next hnone =>
    exact ⟨h.push hall hnone, indexOf?_push_self hnone⟩
  · next place hplace =>
    split
    · exact ⟨h.again hplace, hplace⟩
    · next found assoc hget =>
      split
      · next hassoc =>
        -- What is recorded of the level was declared by something else.
        obtain ⟨l, hl, hname, hlassoc⟩ := h.assoc hget
        refine .associativity (hdone l hl) hself (hname.trans (fst_of_indexOf? hplace hget)) ?_
        rw [hlassoc]
        exact hassoc
      · split
        · next before =>
          split
          · next hlt =>
            obtain ⟨l, hl, hbefore⟩ := hprevious before rfl
            exact .order hg (sublist_levelNames hlevels hl) (h.order hplace hbefore hlt)
          · exact ⟨h.again hplace, hplace⟩
        · exact ⟨h.again hplace, hplace⟩

/-- Putting an operator on a level fails on a conflict, or the operator is recorded. -/
theorem Records.place (hdone : ∀ l ∈ done, l ∈ declaredLevels grammars)
    (h : Records (declaredLevels grammars) t done) (hlevel : level ∈ done)
    (hop : op ∈ level.operators) (hindex : t.indexOf? level.name = some index) :
    Yields (fun _ => LevelConflict grammars)
      (fun t' => Records (declaredLevels grammars) t' done ∧
        t'.indexOf? level.name = some index) (t.place level.name index op) := by
  have hlists : level.Lists op := ⟨op, hop, rfl⟩
  unfold LevelTable.place
  split
  · next existing hexisting =>
    dsimp only
    split
    · exact ⟨h.assign hlevel hlists hindex, hindex⟩
    · next hne =>
      obtain ⟨l, hl, hllists, hlindex⟩ := h.operators hexisting
      refine .operator (hdone l hl) (hdone level hlevel) hllists hlists fun hname => hne ?_
      rw [hname, hindex] at hlindex
      exact (Option.some.inj hlindex).symm
  · exact ⟨h.assign hlevel hlists hindex, hindex⟩

/-- **Merging the levels of a grammar** fails on a conflict, or all of them are recorded. -/
theorem Records.mergeFrom (hg : g ∈ grammars)
    (hall : declaredLevels grammars = front ++ g.levels ++ back) (rest : List Level) :
    ∀ {t : LevelTable} {previous : Option Nat} {past : List Level}, g.levels = past ++ rest →
      Records (declaredLevels grammars) t (front ++ past) →
      (∀ p, previous = some p → ∃ l ∈ past, t.indexOf? l.name = some p) →
      Yields (fun _ => LevelConflict grammars)
        (fun t' => Records (declaredLevels grammars) t' (front ++ g.levels))
        (t.mergeFrom previous rest) := by
  induction rest with
  | nil =>
    intro t previous past hlevels h _
    rw [List.append_nil] at hlevels
    rw [hlevels]
    exact h
  | cons level rest ih =>
    intro t previous past hlevels h hprevious
    have hsplit : declaredLevels grammars = front ++ past ++ level :: (rest ++ back) := by
      rw [hall, hlevels]
      simp only [List.append_assoc, List.cons_append]
    have hdone : ∀ l ∈ front ++ past ++ [level], l ∈ declaredLevels grammars := by
      intro l hl
      rw [hsplit]
      rcases List.mem_append.mp hl with hl | hl
      · exact List.mem_append_left _ hl
      · exact List.mem_append_right _ (List.mem_cons.mpr (.inl (List.mem_singleton.mp hl)))
    unfold LevelTable.mergeFrom
    refine (h.join hg hlevels hsplit hprevious).bind fun joined hjoined => ?_
    obtain ⟨t', index⟩ := joined
    have hplaced : Yields (fun _ => LevelConflict grammars)
        (fun u => Records (declaredLevels grammars) u (front ++ past ++ [level]) ∧
          u.indexOf? level.name = some index)
        (level.operators.foldlM (LevelTable.place level.name index) t') := by
      refine Yields.foldlM (R := fun _ u => Records (declaredLevels grammars) u
        (front ++ past ++ [level]) ∧ u.indexOf? level.name = some index) hjoined ?_
      intro ops op others u hops hu
      exact hu.1.place hdone (List.mem_append_right _ List.mem_cons_self)
        (hops ▸ List.mem_append_right _ List.mem_cons_self) hu.2
    refine hplaced.bind fun u hu => @ih u (some index) (past ++ [level]) ?_ ?_ ?_
    · rw [hlevels, List.append_assoc]
      rfl
    · rw [← List.append_assoc]
      exact hu.1
    · intro p hp
      obtain rfl := Option.some.inj hp
      exact ⟨level, List.mem_append_right _ List.mem_cons_self, hu.2⟩

end

end LevelTable

/-! ## Whole merges -/

theorem declaredLevels_append (gs hs : List Grammar) :
    declaredLevels (gs ++ hs) = declaredLevels gs ++ declaredLevels hs := List.flatMap_append

/-- The row of all grammars. -/
theorem foldlM_mergeFrom_records (grammars : List Grammar) :
    Yields (fun _ => LevelConflict grammars)
      (fun t => LevelTable.Records (declaredLevels grammars) t (declaredLevels grammars))
      (grammars.foldlM (fun t g => t.mergeFrom none g.levels) LevelTable.empty) := by
  refine Yields.foldlM
    (R := fun gs t => LevelTable.Records (declaredLevels grammars) t (declaredLevels gs))
    (LevelTable.records_empty _) ?_
  intro gs g rest t hgrammars h
  have hg : g ∈ grammars := hgrammars ▸ List.mem_append_right _ List.mem_cons_self
  have hone : declaredLevels [g] = g.levels := List.flatMap_singleton ..
  have hall : declaredLevels grammars = declaredLevels gs ++ g.levels ++ declaredLevels rest := by
    rw [hgrammars, ← List.singleton_append, declaredLevels_append, declaredLevels_append, hone,
      List.append_assoc]
  rw [declaredLevels_append, hone]
  have hstart : LevelTable.Records (declaredLevels grammars) t (declaredLevels gs ++ []) := by
    rw [List.append_nil]
    exact h
  exact LevelTable.Records.mergeFrom hg hall g.levels rfl hstart (by simp)

/-- **Where a row respects every grammar nothing conflicts.** -/
theorem not_levelConflict {t : LevelTable}
    (hrecords : t.Records (declaredLevels grammars) (declaredLevels grammars))
    (hrow : ∀ g ∈ grammars, t.Respects g.levels) : ¬ LevelConflict grammars := by
  have hhas : ∀ l ∈ declaredLevels grammars, ∃ i, t.Has l i ∧
      ∀ op, l.Lists op → t.operatorLevel? op = some i := by
    intro l hl
    obtain ⟨g, hg, hl⟩ := List.mem_flatMap.mp hl
    obtain ⟨i, hi, hops⟩ := (hrow g hg).has l hl
    exact ⟨i, hi, fun op hop => LevelTable.operatorLevel?_of_lists hops hop⟩
  intro h
  cases h with
  | @associativity a b ha hb hname hassoc =>
    obtain ⟨i, hi, -⟩ := hhas a ha
    obtain ⟨j, hj, -⟩ := hhas b hb
    have hindex := hi.indexOf?
    rw [hname, hj.indexOf?] at hindex
    obtain rfl := Option.some.inj hindex
    have hentry := hi.getElem?.symm.trans hj.getElem?
    exact hassoc (congrArg Prod.snd (Option.some.inj hentry))
  | @operator a b op ha hb hop hop' hname =>
    obtain ⟨i, hi, hops⟩ := hhas a ha
    obtain ⟨j, hj, hops'⟩ := hhas b hb
    obtain rfl := Option.some.inj ((hops op hop).symm.trans (hops' op hop'))
    have hentry := hi.getElem?.symm.trans hj.getElem?
    exact hname (congrArg Prod.fst (Option.some.inj hentry))
  | @order g x y hg h hfirst =>
    -- The grammar's own order is that of the row, and the row's is that of first declarations.
    obtain ⟨i, j, hij, hx, hy⟩ : ∃ i j, i ≤ j ∧ t.indexOf? x = some i ∧ t.indexOf? y = some j := by
      obtain ⟨both, hboth, hnames⟩ := List.sublist_map_iff.mp h
      obtain ⟨a, b, rfl⟩ : ∃ a b, both = [a, b] := by
        match both, hnames with
        | [a, b], _ => exact ⟨a, b, rfl⟩
      obtain ⟨rfl, rfl⟩ : x = a.name ∧ y = b.name := by simpa using hnames
      obtain ⟨i, ha, -⟩ := (hrow g hg).has a (hboth.subset List.mem_cons_self)
      obtain ⟨j, hb, -⟩ := (hrow g hg).has b (hboth.subset (by simp))
      have horder := (hrow g hg).order.sublist hboth
      rw [List.pairwise_pair] at horder
      exact ⟨i, j, horder i j ha.indexOf? hb.indexOf?, ha.indexOf?, hb.indexOf?⟩
    rcases Nat.lt_or_eq_of_le hij with hlt | rfl
    · have := hrecords.order hx hy hlt
      omega
    · have hlt := LevelTable.indexOf?_lt hx
      have hget := List.getElem?_eq_getElem hlt
      have hsame : x = y := (LevelTable.fst_of_indexOf? hx hget).symm.trans
        (LevelTable.fst_of_indexOf? hy hget)
      rw [hsame] at hfirst
      omega

/-- **A merge fails for its levels exactly if they conflict.** -/
theorem mergeLevels_conflict_iff (grammars : List Grammar) :
    (∃ cause, mergeLevels grammars = .error (.conflictingPrecedence cause)) ↔
      LevelConflict grammars := by
  have hrecords := foldlM_mergeFrom_records grammars
  cases hrow : grammars.foldlM (fun t g => t.mergeFrom none g.levels) LevelTable.empty with
  | error fault =>
    rw [hrow] at hrecords
    obtain ⟨cause, rfl⟩ : fault.IsConflict := by
      refine Yields.fault (P := fun _ => True) ?_ hrow
      exact Yields.foldlM (R := fun _ _ => True) trivial fun _ g _ t _ _ =>
        LevelTable.mergeFrom_yields g.levels t none
    refine ⟨fun _ => hrecords, fun _ => ⟨cause, ?_⟩⟩
    unfold mergeLevels
    rw [hrow]
    rfl
  | ok table =>
    rw [hrow] at hrecords
    constructor
    · -- What can still fail is to find a level that a grammar names, which is no conflict.
      rintro ⟨cause, hcause⟩
      unfold mergeLevels at hcause
      rw [hrow] at hcause
      have hlocals : Yields CompositionFault.IsOwn (fun _ => True)
          (grammars.mapM (localLevels table)) :=
        Yields.mapM fun g _ => localLevels_yields table g
      have hmerged : Yields CompositionFault.IsOwn (fun _ => True)
          (grammars.mapM (localLevels table) >>= fun locals =>
            .ok (MergedLevels.mk table locals)) :=
        hlocals.bind fun _ _ => trivial
      exact (hmerged.fault hcause).elim
    · exact fun h => absurd h (not_levelConflict hrecords (foldlM_mergeFrom_respects hrow))

/-- **A composition fails for its levels exactly if they conflict**, among grammars that embed each
    other without a cycle and that are in order by themselves. -/
theorem compose_conflict_iff (grammars : List Grammar)
    (hcycle : embeddingCycle? (distinctGrammars grammars) = none)
    (hchecks : (distinctGrammars grammars).forM
      (Grammar.check (distinctGrammars grammars)) = .ok ()) :
    (∃ cause, compose grammars = .error (.conflictingPrecedence cause)) ↔
      LevelConflict (distinctGrammars grammars) := by
  rw [← mergeLevels_conflict_iff]
  constructor
  · rintro ⟨cause, h⟩
    cases (compositeOf_yields grammars).fault (compositeOf_eq_error h) with
    | levels hmerge => exact ⟨cause, hmerge⟩
    | own hown => exact hown.elim
  · rintro ⟨cause, h⟩
    refine ⟨cause, ?_⟩
    unfold compose compositeOf
    dsimp only
    rw [hcycle]
    dsimp only
    rw [hchecks]
    show Except.map Table.ofComposite (mergeLevels _ >>= _) = _
    rw [h]
    rfl

/-- Sums of products. -/
def Grammar.products : Grammar :=
  { Grammar.sums [⟨"sum", .left, ["+"]⟩, ⟨"product", .left, ["*"]⟩] with id := ⟨"products"⟩ }

/-- Choices between sums. -/
def Grammar.choices : Grammar :=
  { Grammar.sums [⟨"choice", .left, ["!"]⟩, ⟨"sum", .left, ["+"]⟩] with id := ⟨"choices"⟩ }

/-- The one level that both have groups in one way and is on one operator, and no two names are
    declared by both. -/
theorem not_disagree_products_choices : ¬ Disagree [.products, .choices] := by
  have hassocs : ∀ a ∈ declaredLevels [.products, .choices],
      ∀ b ∈ declaredLevels [.products, .choices], a.name = b.name → a.assoc = b.assoc := by decide
  have hoperators : ∀ a ∈ declaredLevels [.products, .choices],
      ∀ b ∈ declaredLevels [.products, .choices], ∀ op ∈ a.operators, ∀ op' ∈ b.operators,
        op.toLower = op'.toLower → a.name = b.name := by decide +kernel
  have hnames : ∀ g ∈ [Grammar.products, .choices],
      g.levelNames = ["sum", "product"] ∨ g.levelNames = ["choice", "sum"] := by decide
  intro h
  cases h with
  | associativity ha hb hname hassoc => exact hassoc (hassocs _ ha _ hb hname)
  | operator ha hb hop hop' hname =>
    obtain ⟨op, hop, hlower⟩ := hop
    obtain ⟨op', hop', hlower'⟩ := hop'
    exact hname (hoperators _ ha _ hb op hop op' hop' (hlower.trans hlower'.symm))
  | @order g g' x y hg hg' hne h h' =>
    -- Each grammar declares two names only.
    rcases hnames g hg with hn | hn <;> rcases hnames g' hg' with hn' | hn' <;>
      · have hfirst := (hn ▸ h).eq_of_length rfl
        have hsecond := (hn' ▸ h').eq_of_length rfl
        simp_all

/-- **Levels that do not disagree may conflict**: what is loosest of all is put at the tight end,
    since it is declared last.  The other way round the same grammars go together. -/
theorem compose_conflict_without_disagreement :
    ¬ Disagree [.products, .choices] ∧
      compose [.products, .choices] =
        .error (.conflictingPrecedence (.order "sum" "choice")) ∧
      ∃ t, compose [.choices, .products] = .ok t := by
  refine ⟨not_disagree_products_choices, by cbv, ?_⟩
  have hok : (compose [.choices, .products]).toOption.isSome = true := by cbv
  obtain ⟨t, ht⟩ := Option.isSome_iff_exists.mp hok
  exact ⟨t, compose_of_toOption ht⟩

end LayeredSyntax
