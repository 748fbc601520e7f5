/-
  MERGED LEVELS — the common row says what every grammar says.

  The levels of several grammars are put into one row.  Whatever the grammars are, when they can be
  merged the row respects each of them (`mergeLevels_respects`):

  1. two levels of a grammar stand in the row in the order in which the grammar declares them;
  2. a level groups as it is declared, and its operators are on it;
  3. so two operators compare in the row as the grammar by itself has them compare.

  **The crux**: the row of the grammars merged early has to outlast all that comes later.  It does,
  since a row only grows at its end and no operator ever changes its level (`LevelTable.Keeps`), and
  what `Respects` says is kept along with that (`Keeps.respects`).  What is left is one grammar at a
  time: no level is put in front of the one that the grammar declares before it (`mergeFrom_spec`).
-/
import LayeredSyntax.Proofs.Composition.Faithful

namespace LayeredSyntax

/-- A level lists an operator, in any case. -/
def Level.Lists (level : Level) (operator : String) : Prop :=
  ∃ op ∈ level.operators, op.toLower = operator.toLower

/-- What a row of levels says of one of them by itself: its rank is where its name stands first. -/
def Level.among (levels : List Level) (level : Level) : Precedence :=
  ⟨levels.findIdx (·.name == level.name), level.assoc⟩

namespace LevelTable

variable {t t' u : LevelTable} {level : Level} {levels : List Level} {op name : String}
  {index i : Nat} {previous : Option Nat}

/-! ## Growing -/

/-- **A row keeps what another one says**: it begins with its levels, and no operator of it has
    changed its level. -/
structure Keeps (t t' : LevelTable) : Prop where
  levels : t.levels <+: t'.levels
  operators : ∀ {op : String} {i : Nat},
    t.operatorLevel? op = some i → t'.operatorLevel? op = some i

theorem Keeps.refl (t : LevelTable) : Keeps t t := ⟨List.prefix_refl _, fun h => h⟩

theorem Keeps.trans (h : Keeps t t') (h' : Keeps t' u) : Keeps t u :=
  ⟨h.levels.trans h'.levels, fun hop => h'.operators (h.operators hop)⟩

theorem Keeps.getElem? {l : String × Assoc} (h : Keeps t t') (hl : t.levels[i]? = some l) :
    t'.levels[i]? = some l := by
  obtain ⟨rest, hrest⟩ := h.levels
  rw [← hrest, List.getElem?_append_left (List.getElem?_eq_some_iff.mp hl).1]
  exact hl

/-- A level keeps its place. -/
theorem Keeps.indexOf? (h : Keeps t t') (hname : t.indexOf? name = some i) :
    t'.indexOf? name = some i := by
  obtain ⟨rest, hrest⟩ := h.levels
  unfold LevelTable.indexOf? at hname ⊢
  rw [← hrest, List.findIdx?_append, hname]
  rfl

theorem indexOf?_lt (h : t.indexOf? name = some i) : i < t.levels.length := by
  obtain ⟨hlt, _⟩ := List.findIdx?_eq_some_iff_getElem.mp h
  exact hlt

/-- At the place of a level there is a level of its name. -/
theorem fst_of_indexOf? {l : String × Assoc} (h : t.indexOf? name = some i)
    (hl : t.levels[i]? = some l) : l.1 = name := by
  obtain ⟨hlt, hname, _⟩ := List.findIdx?_eq_some_iff_getElem.mp h
  rw [List.getElem?_eq_getElem hlt] at hl
  obtain rfl := Option.some.inj hl
  exact eq_of_beq hname

/-- Putting an operator on the level it is on, or on a first one, changes no other operator. -/
theorem keeps_assign (h : ∀ i, t.operatorLevel? op = some i → i = index) :
    Keeps t (t.assign op index) := by
  refine ⟨List.prefix_refl _, fun {op' i} hop => ?_⟩
  show ((op.toLower, index) :: t.operators).lookup op'.toLower = some i
  rw [List.lookup_cons]
  split
  · next heq =>
    have hsame : t.operatorLevel? op = some i := by
      unfold operatorLevel? at hop ⊢
      rwa [← eq_of_beq heq]
    rw [h i hsame]
  · exact hop

theorem operatorLevel?_assign (t : LevelTable) (op : String) (index : Nat) :
    (t.assign op index).operatorLevel? op = some index := by
  show ((op.toLower, index) :: t.operators).lookup op.toLower = some index
  exact List.lookup_cons_self

/-! ## One level -/

/-- What putting an operator on a level comes to. -/
theorem place_spec (h : place name index t op = .ok t') :
    Keeps t t' ∧ t'.operatorLevel? op = some index := by
  have hassign : t' = t.assign op index ∧ ∀ i, t.operatorLevel? op = some i → i = index := by
    unfold place at h
    split at h
    · next existing hexisting =>
      split at h
      · next heq =>
        cases h
        refine ⟨rfl, fun i hi => ?_⟩
        rw [hexisting] at hi
        exact (Option.some.inj hi).symm.trans heq
      · cases h
    · next hnone =>
      cases h
      refine ⟨rfl, fun i hi => ?_⟩
      rw [hnone] at hi
      cases hi
  obtain ⟨rfl, hsame⟩ := hassign
  exact ⟨keeps_assign hsame, operatorLevel?_assign t op index⟩

theorem foldlM_place_spec {ops : List String} (h : ops.foldlM (place name index) t = .ok t') :
    Keeps t t' ∧ ∀ op ∈ ops, t'.operatorLevel? op = some index := by
  induction ops generalizing t with
  | nil =>
    cases h
    exact ⟨.refl _, fun _ hop => absurd hop List.not_mem_nil⟩
  | cons op rest ih =>
    rw [List.foldlM_cons] at h
    obtain ⟨u, hu, h⟩ := Except.bind_eq_ok.mp h
    obtain ⟨hkeeps, hop⟩ := place_spec hu
    obtain ⟨hkeeps', hrest⟩ := ih h
    refine ⟨hkeeps.trans hkeeps', fun op' hop' => ?_⟩
    rcases List.mem_cons.mp hop' with rfl | hop'
    · exact hkeeps'.operators hop
    · exact hrest op' hop'

/-- Where a level has its place. -/
structure Has (t : LevelTable) (level : Level) (index : Nat) : Prop where
  indexOf? : t.indexOf? level.name = some index
  getElem? : t.levels[index]? = some (level.name, level.assoc)

/-- What finding a level its place comes to. -/
theorem join_spec (hprevious : ∀ p, previous = some p → p < t.levels.length)
    (h : t.join previous level = .ok (t', index)) :
    Keeps t t' ∧ t'.Has level index ∧ ∀ p, previous = some p → p ≤ index := by
  unfold join at h
  split at h
  · next hnone =>
    cases h
    have hpush : t.push level.name level.assoc =
        { t with levels := t.levels ++ [(level.name, level.assoc)] } := by
      unfold push
      rw [hnone]
      rfl
    rw [hpush]
    refine ⟨⟨List.prefix_append _ _, fun hop => hop⟩, ⟨?_, ?_⟩, fun p hp => ?_⟩
    · unfold LevelTable.indexOf? at hnone ⊢
      rw [List.findIdx?_append, hnone]
      simp
    · exact List.getElem?_concat_length
    · exact Nat.le_of_lt (hprevious p hp)
  · next place hplace =>
    split at h
    · next hget =>
      have := List.getElem?_eq_none_iff.mp hget
      have := indexOf?_lt hplace
      omega
    · next found assoc hget =>
      -- The level is there already, and it groups in the same way.
      have hfound : found = level.name := fst_of_indexOf? hplace hget
      split at h
      · cases h
      · next hassoc =>
        have hhas : t.Has level place := by
          refine ⟨hplace, ?_⟩
          rw [hget, hfound, not_not.mp hassoc]
        split at h
        · next before =>
          split at h
          · cases h
          · next hle =>
            cases h
            refine ⟨.refl t, hhas, fun p hp => ?_⟩
            obtain rfl := Option.some.inj hp
            exact Nat.not_lt.mp hle
        · cases h
          exact ⟨.refl t, hhas, fun p hp => absurd hp (by simp)⟩

/-! ## Rows of levels -/

/-- **What a row of a grammar's levels finds in the common one.** -/
structure Respects (t : LevelTable) (levels : List Level) : Prop where
  has : ∀ level ∈ levels, ∃ index, t.Has level index ∧
    ∀ op ∈ level.operators, t.operatorLevel? op = some index
  /-- No level stands in front of one that is declared before it. -/
  order : levels.Pairwise fun a b =>
    ∀ i j, t.indexOf? a.name = some i → t.indexOf? b.name = some j → i ≤ j

theorem Keeps.has (h : Keeps t t') (hlevel : t.Has level index) : t'.Has level index :=
  ⟨h.indexOf? hlevel.indexOf?, h.getElem? hlevel.getElem?⟩

/-- **What a row says is kept while it grows.** -/
theorem Keeps.respects (h : Keeps t t') (hrow : t.Respects levels) : t'.Respects levels := by
  refine ⟨fun level hlevel => ?_, ?_⟩
  · obtain ⟨index, hhas, hops⟩ := hrow.has level hlevel
    exact ⟨index, h.has hhas, fun op hop => h.operators (hops op hop)⟩
  · refine hrow.order.imp_of_mem fun {a b} ha hb hab i j hi hj => ?_
    -- The levels were there before, so their places are the old ones.
    obtain ⟨x, hx, _⟩ := hrow.has a ha
    obtain ⟨y, hy, _⟩ := hrow.has b hb
    obtain rfl := Option.some.inj ((h.indexOf? hx.indexOf?).symm.trans hi)
    obtain rfl := Option.some.inj ((h.indexOf? hy.indexOf?).symm.trans hj)
    exact hab _ _ hx.indexOf? hy.indexOf?

/-- **Merging the levels of a grammar** puts them behind the level at `previous`, in their order. -/
theorem mergeFrom_spec (levels : List Level) :
    ∀ {t t' : LevelTable} {previous : Option Nat},
      (∀ p, previous = some p → p < t.levels.length) → t.mergeFrom previous levels = .ok t' →
      Keeps t t' ∧ t'.Respects levels ∧ ∀ p, previous = some p → ∀ level ∈ levels,
        ∀ i, t'.indexOf? level.name = some i → p ≤ i := by
  induction levels with
  | nil =>
    intro t t' previous _ h
    cases h
    exact ⟨.refl t, ⟨fun _ hlevel => absurd hlevel List.not_mem_nil, .nil⟩,
      fun _ _ _ hlevel => absurd hlevel List.not_mem_nil⟩
  | cons level rest ih =>
    intro t t' previous hprevious h
    unfold mergeFrom at h
    obtain ⟨⟨u, index⟩, hjoin, h⟩ := Except.bind_eq_ok.mp h
    obtain ⟨v, hplace, h⟩ := Except.bind_eq_ok.mp h
    obtain ⟨htu, hlevel, hle⟩ := join_spec hprevious hjoin
    obtain ⟨huv, hops⟩ := foldlM_place_spec hplace
    have hv := huv.has hlevel
    obtain ⟨hvt', hrest, hbehind⟩ := ih
      (fun p hp => Option.some.inj hp ▸ indexOf?_lt hv.indexOf?) h
    -- The place of the first level is the one that the others stand behind.
    have hfirst : ∀ i, t'.indexOf? level.name = some i → i = index := fun i hi =>
      Option.some.inj (hi.symm.trans (hvt'.has hv).indexOf?)
    refine ⟨htu.trans (huv.trans hvt'), ⟨fun other hother => ?_, ?_⟩,
      fun p hp other hother i hi => ?_⟩
    · rcases List.mem_cons.mp hother with rfl | hother
      · exact ⟨index, hvt'.has hv, fun op hop => hvt'.operators (hops op hop)⟩
      · exact hrest.has other hother
    · refine List.pairwise_cons.mpr ⟨fun other hother i j hi hj => ?_, hrest.order⟩
      rw [hfirst i hi]
      exact hbehind index rfl other hother j hj
    · rcases List.mem_cons.mp hother with rfl | hother
      · rw [hfirst i hi]
        exact hle p hp
      · exact (hle p hp).trans (hbehind index rfl other hother i hi)

/-! ## Comparing operators -/

theorem compare_eq_of_lt_iff {x y i j : Nat} (h : x < y ↔ i < j) (h' : y < x ↔ j < i) :
    compare x y = compare i j := by
  rcases Nat.lt_trichotomy x y with hlt | heq | hgt
  · rw [Nat.compare_eq_lt.mpr hlt, Nat.compare_eq_lt.mpr (h.mp hlt)]
  · rw [Nat.compare_eq_eq.mpr heq, Nat.compare_eq_eq.mpr (by omega)]
  · rw [Nat.compare_eq_gt.mpr hgt, Nat.compare_eq_gt.mpr (h'.mp hgt)]

/-- Two levels of different names stand in the row as they are declared. -/
theorem Respects.lt_iff {a b : Level} {j x y : Nat} (h : t.Respects levels)
    (ha : levels[i]? = some a) (hb : levels[j]? = some b) (hne : a.name ≠ b.name)
    (hx : t.indexOf? a.name = some x) (hy : t.indexOf? b.name = some y) : x < y ↔ i < j := by
  obtain ⟨hi, rfl⟩ := List.getElem?_eq_some_iff.mp ha
  obtain ⟨hj, rfl⟩ := List.getElem?_eq_some_iff.mp hb
  -- Levels of different names have different places.
  have hplaces : x ≠ y := by
    rintro rfl
    have hlt := indexOf?_lt hx
    have hget := List.getElem?_eq_getElem hlt
    exact hne ((fst_of_indexOf? hx hget).symm.trans (fst_of_indexOf? hy hget))
  have hij : i ≠ j := by
    rintro rfl
    exact hne rfl
  constructor
  · intro hxy
    by_contra hge
    have hle := List.pairwise_iff_getElem.mp h.order j i hj hi (by omega) y x hy hx
    omega
  · intro hlt
    have hle := List.pairwise_iff_getElem.mp h.order i j hi hj hlt x y hx hy
    omega

/-- The first place of a level's name holds a level of that name. -/
theorem exists_getElem?_among (hlevel : level ∈ levels) :
    ∃ first, levels[(level.among levels).rank]? = some first ∧ first.name = level.name := by
  have hlt : levels.findIdx (·.name == level.name) < levels.length :=
    List.findIdx_lt_length_of_exists ⟨level, hlevel, beq_self_eq_true _⟩
  exact ⟨_, List.getElem?_eq_getElem hlt, eq_of_beq (List.findIdx_getElem (w := hlt))⟩

/-- **Two levels compare in the row as they do in their grammar.** -/
theorem Respects.compare_eq {a b : Level} {x y : Nat} (h : t.Respects levels) (ha : a ∈ levels)
    (hb : b ∈ levels) (hx : t.indexOf? a.name = some x) (hy : t.indexOf? b.name = some y) :
    compare x y = compare (a.among levels).rank (b.among levels).rank := by
  by_cases hname : a.name = b.name
  · rw [hname] at hx
    obtain rfl := Option.some.inj (hx.symm.trans hy)
    have hrank : (a.among levels).rank = (b.among levels).rank := by
      unfold Level.among
      rw [hname]
    rw [hrank, Nat.compare_eq_eq.mpr rfl, Nat.compare_eq_eq.mpr rfl]
  · obtain ⟨first, hfirst, hfirstName⟩ := exists_getElem?_among ha
    obtain ⟨second, hsecond, hsecondName⟩ := exists_getElem?_among hb
    have hne : first.name ≠ second.name := by rw [hfirstName, hsecondName]; exact hname
    rw [← hfirstName] at hx
    rw [← hsecondName] at hy
    exact compare_eq_of_lt_iff (h.lt_iff hfirst hsecond hne hx hy)
      (h.lt_iff hsecond hfirst hne.symm hy hx)

/-- An operator is found on its level in any case. -/
theorem operatorLevel?_of_lists (hops : ∀ op ∈ level.operators, t.operatorLevel? op = some index)
    (hlists : level.Lists op) : t.operatorLevel? op = some index := by
  obtain ⟨op', hop', hlower⟩ := hlists
  have hlevel := hops op' hop'
  unfold operatorLevel? at hlevel ⊢
  rwa [← hlower]

/-- The precedence of an operator in the row. -/
theorem ofOperator?_of_lists (hsize : t.levels.length ≤ rankLimit) (hhas : t.Has level index)
    (hops : ∀ op ∈ level.operators, t.operatorLevel? op = some index) (hlists : level.Lists op) :
    t.ofOperator? op = some ⟨index, level.assoc⟩ := by
  have hlevel := operatorLevel?_of_lists hops hlists
  have hlt := (indexOf?_lt hhas.indexOf?).trans_le hsize
  unfold ofOperator? ofLevel?
  rw [hlevel, Option.bind_some, hhas.getElem?, Nat.mod_eq_of_lt hlt, Option.map_some]

end LevelTable

/-- What a comparison comes to depends on how the ranks compare and on how the production groups. -/
theorem resolve_congr {p q p' q' : Precedence}
    (hcompare : compare p.rank q.rank = compare p'.rank q'.rank) (hassoc : p.assoc = p'.assoc) :
    resolve p q = resolve p' q' := by
  have hlt : p.rank < q.rank ↔ p'.rank < q'.rank := by
    rw [← Nat.compare_eq_lt, hcompare, Nat.compare_eq_lt]
  have hgt : q.rank < p.rank ↔ q'.rank < p'.rank := by
    rw [← Nat.compare_eq_gt, hcompare, Nat.compare_eq_gt]
  unfold resolve
  simp only [hlt, hgt, hassoc]

/-- The row of some grammars respects every one of them. -/
theorem foldlM_mergeFrom_respects {grammars : List Grammar} {table : LevelTable}
    (h : grammars.foldlM (fun t g => t.mergeFrom none g.levels) LevelTable.empty = .ok table) :
    ∀ g ∈ grammars, table.Respects g.levels := by
  have hfold : Yields (fun _ => True)
      (fun (table : LevelTable) => ∀ g ∈ grammars, table.Respects g.levels)
      (grammars.foldlM (fun t g => t.mergeFrom none g.levels) LevelTable.empty) := by
    refine Yields.foldlM
      (R := fun (gs : List Grammar) (t : LevelTable) => ∀ g ∈ gs, t.Respects g.levels) ?_ ?_
    · exact fun _ hg => absurd hg List.not_mem_nil
    · intro gs g rest t _ hgs
      cases hmerge : t.mergeFrom none g.levels with
      | error fault => trivial
      | ok t' =>
        obtain ⟨hkeeps, hrow, _⟩ := LevelTable.mergeFrom_spec g.levels (by simp) hmerge
        intro g' hg'
        rcases List.mem_append.mp hg' with hg' | hg'
        · exact hkeeps.respects (hgs g' hg')
        · obtain rfl := List.mem_singleton.mp hg'
          exact hrow
  rw [h] at hfold
  exact hfold

/-- The row of a merge respects every grammar. -/
theorem mergeLevels_table {grammars : List Grammar} {m : MergedLevels}
    (h : mergeLevels grammars = .ok m) : ∀ g ∈ grammars, m.table.Respects g.levels := by
  unfold mergeLevels at h
  obtain ⟨table, htable, h⟩ := Except.bind_eq_ok.mp h
  obtain ⟨locals, _, h⟩ := Except.bind_eq_ok.mp h
  cases h
  exact foldlM_mergeFrom_respects htable

/-- **Merged levels respect every grammar.**  In the common row of grammars that can be merged,
    the levels of each of them stand in its order and group as it says, and an operator is on the
    level that lists it, whatever its case.  As long as no rank comes round to 0 again, two
    operators therefore compare as they do in each grammar that lists both. -/
theorem mergeLevels_respects {grammars : List Grammar} {m : MergedLevels}
    (h : mergeLevels grammars = .ok m) : ∀ g ∈ grammars,
      (∀ (i j : Nat) (a b : Level),
        g.levels[i]? = some a → g.levels[j]? = some b → a.name ≠ b.name →
        ∃ x y, m.table.indexOf? a.name = some x ∧ m.table.indexOf? b.name = some y ∧
          (x < y ↔ i < j)) ∧
      (∀ level ∈ g.levels, ∃ x, m.table.indexOf? level.name = some x ∧
        m.table.levels[x]? = some (level.name, level.assoc) ∧
        ∀ op, level.Lists op → m.table.operatorLevel? op = some x) ∧
      (m.table.levels.length ≤ LevelTable.rankLimit →
        ∀ a ∈ g.levels, ∀ b ∈ g.levels, ∀ op₁ op₂, a.Lists op₁ → b.Lists op₂ →
          ∃ p q, m.table.ofOperator? op₁ = some p ∧ m.table.ofOperator? op₂ = some q ∧
            compare p.rank q.rank = compare (a.among g.levels).rank (b.among g.levels).rank ∧
            resolve p q = resolve (a.among g.levels) (b.among g.levels)) := by
  intro g hg
  have hrow := mergeLevels_table h g hg
  refine ⟨fun i j a b ha hb hne => ?_, fun level hlevel => ?_,
    fun hsize a ha b hb op₁ op₂ h₁ h₂ => ?_⟩
  · obtain ⟨x, hx, _⟩ := hrow.has a (List.mem_of_getElem? ha)
    obtain ⟨y, hy, _⟩ := hrow.has b (List.mem_of_getElem? hb)
    exact ⟨x, y, hx.indexOf?, hy.indexOf?, hrow.lt_iff ha hb hne hx.indexOf? hy.indexOf?⟩
  · obtain ⟨x, hx, hops⟩ := hrow.has level hlevel
    exact ⟨x, hx.indexOf?, hx.getElem?, fun op hop => LevelTable.operatorLevel?_of_lists hops hop⟩
  · obtain ⟨x, hx, hxops⟩ := hrow.has a ha
    obtain ⟨y, hy, hyops⟩ := hrow.has b hb
    have hcompare := hrow.compare_eq ha hb hx.indexOf? hy.indexOf?
    exact ⟨⟨x, a.assoc⟩, ⟨y, b.assoc⟩, LevelTable.ofOperator?_of_lists hsize hx hxops h₁,
      LevelTable.ofOperator?_of_lists hsize hy hyops h₂, hcompare, resolve_congr hcompare rfl⟩

/-- **Two grammars that share a level**, each with a level the other one does not have. -/
theorem mergeLevels_respects_shared :
    let tests : Grammar :=
      { Grammar.sums [⟨"sum", .left, ["+"]⟩, ⟨"test", .nonAssoc, ["in"]⟩] with id := ⟨"tests"⟩ }
    ∃ m, mergeLevels [.sums [⟨"sum", .left, ["+"]⟩, ⟨"power", .right, ["**"]⟩], tests] = .ok m ∧
      ∃ p q, m.table.ofOperator? "IN" = some p ∧ m.table.ofOperator? "+" = some q ∧
        resolve p q = .reduce := by
  intro tests
  have hmerge : mergeLevels [.sums [⟨"sum", .left, ["+"]⟩, ⟨"power", .right, ["**"]⟩], tests] =
      .ok ⟨⟨[("sum", .left), ("power", .right), ("test", .nonAssoc)],
        [("in", 2), ("+", 0), ("**", 1), ("+", 0)]⟩, [(⟨"sums"⟩, []), (⟨"tests"⟩, [])]⟩ := by cbv
  obtain ⟨p, q, hp, hq, -, hresolve⟩ := (mergeLevels_respects hmerge tests (by simp)).2.2
    (by decide) ⟨"test", .nonAssoc, ["in"]⟩ (by simp [tests, Grammar.sums])
    ⟨"sum", .left, ["+"]⟩ (by simp [tests, Grammar.sums]) "IN" "+" ⟨"in", by simp, by cbv⟩
    ⟨"+", by simp, by cbv⟩
  exact ⟨_, hmerge, p, q, hp, hq, hresolve.trans (by cbv)⟩

end LayeredSyntax
