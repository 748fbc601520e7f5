/-
  FORCED READING — what a state and the tokens alone decide.

  Where a state can do just one thing with the token ahead, that is done whatever lies below the
  state and whatever was read before.  `Forced` gathers such steps: from a state at a position the
  tokens up to another position can only be read in one way, it leads to a certain state, and
  certain subtrees are made.

  1. A token is READ where reading it is all that the state can do.
  2. A production is FINISHED where finishing it is all that the state can do, **over subtrees that
     were themselves forced**, and where it leads to a state that no head is in yet.

  Behind a forced subtree further productions may be finished that consist of it alone; where these
  come to an end is said by `Quiet`.

  **The crux**: nothing of this is about the job as a whole.  A job with the same table that reads
  the same tokens in the same states is forced to the same subtrees (`Forced.moved`), wherever they
  stand in its text.
-/
import LayeredSyntax.Proofs.Parse.Deriving

namespace LayeredSyntax

namespace ParseJob

/-- **What is forced** from a state at a position: the subtrees, the state and the position that
    they lead to, and the states of the heads there, in the order in which they are made. -/
inductive Forced (j : ParseJob) : Nat → Nat → List Label → Nat → Nat → List Nat → Prop where
  /-- Nothing has been read. -/
  | nil (state p : Nat) : Forced j state p [] state p []
  /-- The token is read, which is all that can be done. -/
  | read {below first mid m x above : Nat} {pieces : List Label} {tops : List Nat}
      (h : Forced j below first pieces mid m tops)
      (hactions : j.actions mid m = [.shift above]) (hshift : (x, above) ∈ j.shifts mid m) :
      Forced j below first (pieces ++ [⟨j.leaf m x above, m, m + 1⟩]) above (m + 1) [above]
  /-- A production is finished, which is all that can be done. -/
  | finish {below first mid m top stop q above : Nat} {pieces inner : List Label}
      {tops tops' : List Nat} (h : Forced j below first pieces mid m tops)
      (hinner : Forced j mid m inner top stop tops') (hne : inner ≠ [])
      (hactions : j.actions top stop = [.reduce q])
      (hlength : inner.length = (j.table.production q).rhs.length)
      (hgoto : j.table.goto? mid (j.table.production q).lhs = some above) (hnew : above ∉ tops') :
      Forced j below first (pieces ++ [(j.reduceLabel [] q mid inner).1]) above stop
        (tops' ++ [above])

/-- **Where no production is left that consists of a forced subtree alone**: `below` is the state
    that the subtree stands on, and `above` the state that the last one led to. -/
inductive Quiet (j : ParseJob) (below p : Nat) : List Nat → Nat → Prop where
  /-- Nothing that can be finished consists of the subtree alone. -/
  | rest {tops : List Nat} {above : Nat}
      (h : ∀ q ∈ j.reductions above p, (j.table.production q).rhs.length = 1 →
        j.table.goto? below (j.table.production q).lhs = none) : Quiet j below p tops above
  /-- Such a production is all that can be finished, and it leads on. -/
  | step {tops : List Nat} {above q next : Nat} (hactions : j.actions above p = [.reduce q])
      (hlength : (j.table.production q).rhs.length = 1)
      (hgoto : j.table.goto? below (j.table.production q).lhs = some next) (hnew : next ∉ tops)
      (h : Quiet j below p (tops ++ [next]) next) : Quiet j below p tops above

variable {j j' : ParseJob} {below first above stop mid m : Nat} {pieces front : List Label}
  {label : Label} {tops tops' : List Nat}

/-- **What is forced lies side by side.** -/
theorem Forced.tight (h : j.Forced below first pieces above stop tops) :
    Tight first stop pieces := by
  induction h with
  | nil => exact rfl
  | read _ _ _ ih => exact ih.append ⟨rfl, Nat.lt_succ_self _, rfl⟩
  | @finish _ _ _ _ _ _ q _ _ _ _ _ _ _ hne _ _ _ _ ih ihinner =>
    refine ih.append ?_
    rw [reduceLabel_of_tight [] q _ ihinner hne]
    exact ⟨rfl, ihinner.lt hne, rfl⟩

/-- Where no subtree is made, nothing was read. -/
theorem Forced.eq_of_nil (h : j.Forced below first [] above stop tops) :
    above = below ∧ stop = first := by
  generalize hpieces : ([] : List Label) = pieces at h
  cases h with
  | nil => exact ⟨rfl, rfl⟩
  | read => exact absurd hpieces.symm (List.append_ne_nil_of_right_ne_nil _ (List.cons_ne_nil _ _))
  | finish =>
    exact absurd hpieces.symm (List.append_ne_nil_of_right_ne_nil _ (List.cons_ne_nil _ _))

/-- **One more forced subtree behind others.** -/
theorem Forced.append (h : j.Forced below first front mid m tops)
    (hlabel : j.Forced mid m [label] above stop tops') :
    j.Forced below first (front ++ [label]) above stop tops' := by
  generalize hpieces : [label] = pieces at hlabel
  cases hlabel with
  | nil => cases hpieces
  | @read _ _ _ _ _ _ pieces _ hfront hactions hshift =>
    have hpieces : [] ++ [label] = pieces ++ _ := hpieces
    obtain ⟨hnil, hlast⟩ := List.append_inj' hpieces rfl
    subst hnil
    cases hlast
    obtain ⟨rfl, rfl⟩ := hfront.eq_of_nil
    exact h.read hactions hshift
  | @finish _ _ _ _ _ _ _ _ pieces _ _ _ hfront hinner hne hactions hlength hgoto hnew =>
    have hpieces : [] ++ [label] = pieces ++ _ := hpieces
    obtain ⟨hnil, hlast⟩ := List.append_inj' hpieces rfl
    subst hnil
    cases hlast
    obtain ⟨rfl, rfl⟩ := hfront.eq_of_nil
    exact h.finish hinner hne hactions hlength hgoto hnew

end ParseJob

/-! ## The same tokens elsewhere -/

/-- A subtree that is taken from position `f` to position `p` with everything around it. -/
def Label.moved (f p : Nat) (l : Label) : Label := ⟨l.node, p + (l.first - f), p + (l.stop - f)⟩

namespace ParseJob

/-- **Whether two jobs read the same** over `n` positions, the one from `f` on and the other from `p`
    on, and see the same terminals ahead. -/
structure Agrees (j j' : ParseJob) (f p n : Nat) : Prop where
  table : j'.table = j.table
  terminals : ∀ m, f ≤ m → m ≤ f + n → j'.terminalsAt (p + (m - f)) = j.terminalsAt m
  leaf : ∀ m, f ≤ m → m < f + n → ∀ x target, j'.leaf (p + (m - f)) x target = j.leaf m x target
  trivia : ∀ m, f < m → m < f + n → ∀ out, j'.triviaOnto (p + (m - f)) out = j.triviaOnto m out

theorem Agrees.refl (j : ParseJob) (f n : Nat) : j.Agrees j f f n := by
  refine ⟨rfl, fun m hm _ => ?_, fun m hm _ _ _ => ?_, fun m hm _ _ => ?_⟩ <;>
    rw [Nat.add_sub_cancel' (by omega)]

variable {j j' : ParseJob} {f p n m low high : Nat} {pieces : List Label}

theorem Agrees.actions (h : j.Agrees j' f p n) (hm : f ≤ m) (hle : m ≤ f + n) (state : Nat) :
    j'.actions state (p + (m - f)) = j.actions state m := by
  unfold ParseJob.actions
  rw [h.terminals m hm hle, h.table]

theorem Agrees.shifts (h : j.Agrees j' f p n) (hm : f ≤ m) (hle : m ≤ f + n) (state : Nat) :
    j'.shifts state (p + (m - f)) = j.shifts state m := by
  unfold ParseJob.shifts
  rw [h.terminals m hm hle, h.table]

theorem Agrees.reductions (h : j.Agrees j' f p n) (hm : f ≤ m) (hle : m ≤ f + n) (state : Nat) :
    j'.reductions state (p + (m - f)) = j.reductions state m := by
  unfold ParseJob.reductions
  rw [h.actions hm hle]

/-- Pieces side by side stay side by side. -/
theorem Tight.moved (h : Tight low high pieces) (hlow : f ≤ low) :
    Tight (p + (low - f)) (p + (high - f)) (pieces.map (Label.moved f p)) := by
  induction pieces generalizing low with
  | nil =>
    obtain rfl : low = high := h
    exact rfl
  | cons piece rest ih =>
    obtain ⟨rfl, hlt, hrest⟩ := h
    refine ⟨rfl, ?_, ih hrest (by omega)⟩
    show p + (piece.first - f) < p + (piece.stop - f)
    omega

/-- **Where there are no gaps, the children depend on the pieces and on the trivia between them**, and
    on nothing else. -/
theorem assembleFrom_moved (h : j.Agrees j' f p n) (regions regions' : Regions) (opens : Bool)
    (hlow : f ≤ low) (hhigh : high ≤ f + n) : ∀ {m : Nat} {a a' : Assembled}, low ≤ m →
      Tight m high pieces → a'.reversed = a.reversed →
      (j'.assembleFrom regions' opens (p + (low - f)) (p + (high - f)) (p + (m - f)) a'
        (pieces.map (Label.moved f p))).reversed =
        (j.assembleFrom regions opens low high m a pieces).reversed := by
  induction pieces with
  | nil =>
    intro m a a' hm htight ha
    obtain rfl : m = high := htight
    unfold assembleFrom
    rw [if_neg (Nat.lt_irrefl _), if_neg (Nat.lt_irrefl _)]
    exact ha
  | cons piece rest ih =>
    intro m a a' hm htight ha
    obtain ⟨rfl, hlt, hrest⟩ := htight
    have hle := hrest.le
    have hmax : max (max piece.first piece.first) piece.stop = piece.stop := by omega
    have hmax' : max (max (p + (piece.first - f)) (p + (piece.first - f)))
        (p + (piece.stop - f)) = p + (piece.stop - f) := by omega
    have hfirst : (piece.moved f p).first = p + (piece.first - f) := rfl
    have hstop : (piece.moved f p).stop = p + (piece.stop - f) := rfl
    rw [List.map_cons]
    unfold assembleFrom
    dsimp only
    rw [hfirst, hstop, hmax, hmax', if_neg (Nat.lt_irrefl _), if_neg (Nat.lt_irrefl _)]
    refine ih (Nat.le_trans hm (Nat.le_of_lt hlt)) hrest ?_
    -- The trivia in front of the piece are the same, and there are some in the same case.
    have htrivia : (if (decide (p + (piece.first - f) < p + (piece.stop - f)) &&
          decide (p + (low - f) < p + (piece.first - f))) = true then
        j'.triviaOnto (p + (piece.first - f)) a'.reversed else a'.reversed) =
        if (decide (piece.first < piece.stop) && decide (low < piece.first)) = true then
          j.triviaOnto piece.first a.reversed else a.reversed := by
      have hsame : (decide (p + (piece.first - f) < p + (piece.stop - f)) &&
          decide (p + (low - f) < p + (piece.first - f))) =
          (decide (piece.first < piece.stop) && decide (low < piece.first)) := by
        rw [Bool.eq_iff_iff]
        simp only [Bool.and_eq_true, decide_eq_true_eq]
        omega
      rw [hsame, ha]
      split
      · next hcond =>
        simp only [Bool.and_eq_true, decide_eq_true_eq] at hcond
        exact h.trivia piece.first (by omega) (by omega) _
      · rfl
    dsimp only
    rw [htrivia, h.table]
    rfl

/-- **The same production over the same pieces makes the same subtree.** -/
theorem reduceLabel_moved (h : j.Agrees j' f p n) (regions regions' : Regions) (q before : Nat)
    (htight : Tight low high pieces) (hne : pieces ≠ []) (hlow : f ≤ low) (hhigh : high ≤ f + n) :
    (j'.reduceLabel regions' q before (pieces.map (Label.moved f p))).1 =
      (j.reduceLabel regions q before pieces).1.moved f p := by
  have hchildren : ∀ opens, (j'.assemble regions' opens (p + (low - f)) (p + (high - f))
      (pieces.map (Label.moved f p))).children =
        (j.assemble regions opens low high pieces).children := by
    intro opens
    exact congrArg List.reverse (assembleFrom_moved h regions regions' opens hlow hhigh
      (Nat.le_refl _) htight (Eq.refl (⟨[], 0⟩ : Assembled).reversed))
  rw [reduceLabel_of_tight regions' q before (htight.moved hlow)
    (fun hnil => hne (List.map_eq_nil_iff.mp hnil)),
    reduceLabel_of_tight regions q before htight hne, h.table]
  dsimp only
  rw [hchildren]
  rfl

/-- Over pieces side by side nothing that was left behind counts. -/
theorem reduceLabel_congr (j : ParseJob) (regions regions' : Regions) (q before : Nat)
    (htight : Tight low high pieces) (hne : pieces ≠ []) :
    (j.reduceLabel regions q before pieces).1 = (j.reduceLabel regions' q before pieces).1 := by
  have hsame : ∀ l : Label, l.moved 0 0 = l := by
    intro l
    unfold Label.moved
    rw [Nat.zero_add, Nat.zero_add]
    rfl
  have hmap : pieces.map (Label.moved 0 0) = pieces := by
    rw [List.map_congr_left fun l _ => hsame l, List.map_id']
  have hmoved := reduceLabel_moved (.refl j 0 high) regions' regions q before htight hne
    (Nat.zero_le _) (Nat.le_add_left _ _)
  rwa [hmap, hsame] at hmoved

/-- **What is forced is forced wherever the same is read.** -/
theorem Forced.moved {below first above stop : Nat} {tops : List Nat} (h : j.Agrees j' f p n)
    (hforced : j.Forced below first pieces above stop tops) (hfirst : f ≤ first)
    (hstop : stop ≤ f + n) :
    j'.Forced below (p + (first - f)) (pieces.map (Label.moved f p)) above (p + (stop - f))
      tops := by
  induction hforced with
  | nil state m => exact .nil state _
  | @read below first mid m x above pieces tops hfront hactions hshift ih =>
    have hle := hfront.tight.le
    have hm : f ≤ m := by omega
    have hmle : m ≤ f + n := by omega
    have hread := (ih hfirst hmle).read ((h.actions hm hmle mid).trans hactions)
      (h.shifts hm hmle mid ▸ hshift)
    have hsucc : p + (m + 1 - f) = p + (m - f) + 1 := by omega
    rw [List.map_append, List.map_singleton]
    unfold Label.moved
    dsimp only
    rw [hsucc, ← h.leaf m hm (by omega)]
    exact hread
  | @finish below first mid m top stop q above pieces inner tops tops' hfront hinner hne hactions
      hlength hgoto hnew ih ihinner =>
    have hle := hfront.tight.le
    have hle' := hinner.tight.le
    have hlabel := reduceLabel_moved h [] [] q mid hinner.tight hne (by omega) hstop
    rw [List.map_append, List.map_singleton, ← hlabel]
    refine (ih hfirst (by omega)).finish (ihinner (by omega) hstop)
      (fun hnil => hne (List.map_eq_nil_iff.mp hnil))
      ((h.actions (by omega) hstop top).trans hactions) ?_ ?_ hnew
    · rw [List.length_map, h.table, hlength]
    · rw [h.table, hgoto]

theorem Quiet.moved {below above stop : Nat} {tops : List Nat} (h : j.Agrees j' f p n)
    (hstop : f ≤ stop) (hle : stop ≤ f + n) (hquiet : j.Quiet below stop tops above) :
    j'.Quiet below (p + (stop - f)) tops above := by
  induction hquiet with
  | rest hrest =>
    refine .rest fun q hq hlength => ?_
    rw [h.reductions hstop hle] at hq
    rw [h.table] at hlength ⊢
    exact hrest q hq hlength
  | @step _ _ q _ hactions hlength hgoto hnew _ ih =>
    refine .step ((h.actions hstop hle _).trans hactions) ?_ ?_ hnew ih
    · rw [h.table, hlength]
    · rw [h.table, hgoto]

end ParseJob

end LayeredSyntax
