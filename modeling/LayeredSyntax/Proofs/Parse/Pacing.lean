/-
  THE PACE OF A PARSE — what every turn uses up.

  A parse does not just go forwards: a symbol that is made up leaves it where it is, and a subtree
  that is given back takes it back to where the subtree began.  What a turn does to the position and
  to what the parse has used up so far is its PACE (`Pace.Next`): it is all arithmetic.

  1. `Pace.turnsLeft` falls with every turn.  A subtree that is given back was `k` tokens long: the
     position falls back by `k`, but nothing is taken over in front of its end any more, and **that
     counts twice** (`Next.turnsLeft_lt`).
  2. The FLOOR is where the parse was repaired last.  No turn goes back behind it, as a subtree is
     given back before anything is repaired; so `Pace.repairsLeft` falls with every repair
     (`Next.repairsLeft_lt`).

  Whether a stack has the shape that the pace needs is asked of it by very little: the heads stand
  side by side and edges lead down (`Progress.Poised`), whatever subtrees were taken over.
-/
import LayeredSyntax.Proofs.Parse.Repairing
import LayeredSyntax.Proofs.Parse.Saturating
import LayeredSyntax.Proofs.Parse.Shifting

namespace LayeredSyntax

/-- What a turn of a parse does. -/
inductive Deed where
  /-- The text is accepted. -/
  | accept
  /-- A subtree is taken over. -/
  | takeOver
  /-- The token is read. -/
  | read
  /-- The subtree that was taken over last is given back. -/
  | giveBack
  /-- A symbol is made up. -/
  | insert
  /-- Tokens are skipped. -/
  | skip
  /-- Everything is wrapped into an error region. -/
  | wrap
deriving DecidableEq, Repr

/-- Whether a turn repairs the parse. -/
def Deed.isRepair : Deed → Bool
  | .insert | .skip | .wrap => true
  | _ => false

/-! ## The arithmetic of turns -/

/-- Where a parse stands and what it has used up. -/
structure Pace where
  position : Nat
  /-- The parse never goes back in front of this position. -/
  floor : Nat
  reuseFrom : Nat
  lastInsertion : Option Nat
  insertionsAtEnd : Nat
  repairs : Nat

namespace Pace

variable [Limits]

/-- **How the pace changes in a turn that is not the last one.** -/
inductive Next (n : Nat) : Deed → Pace → Pace → Prop where
  | takeOver {a : Pace} {p : Nat} (hlt : a.position < p) (hle : p ≤ n) :
      Next n .takeOver a { a with position := p }
  | read {a : Pace} (hlt : a.position < n) : Next n .read a { a with position := a.position + 1 }
  | giveBack {a : Pace} {p : Nat} (hlt : p < a.position) (hreuse : a.reuseFrom ≤ p)
      (hfloor : a.floor ≤ p) :
      Next n .giveBack a { a with position := p, reuseFrom := a.position }
  | insert {a : Pace} (hlt : a.position < n) (hnew : a.lastInsertion ≠ some a.position)
      (hlimit : a.repairs < Limits.repairs) :
      Next n .insert a { a with
        floor := a.position, lastInsertion := some a.position, repairs := a.repairs + 1 }
  | insertAtEnd {a : Pace} (hend : a.position = n)
      (hnew : a.insertionsAtEnd < Limits.insertionsAtEnd) (hlimit : a.repairs < Limits.repairs) :
      Next n .insert a { a with
        floor := a.position, insertionsAtEnd := a.insertionsAtEnd + 1, repairs := a.repairs + 1 }
  | skip {a : Pace} {p : Nat} (hlt : a.position < p) (hle : p ≤ n)
      (hlimit : a.repairs < Limits.repairs) :
      Next n .skip a { a with position := p, floor := p, repairs := a.repairs + 1 }

/-- **What a pace is like** in a text of `n` tokens. -/
structure Ok (n : Nat) (a : Pace) : Prop where
  position_le : a.position ≤ n
  floor_le : a.floor ≤ a.position
  reuseFrom_le : a.reuseFrom ≤ n
  lastInsertion_le : ∀ l, a.lastInsertion = some l → l ≤ a.floor ∧ l < n
  insertionsAtEnd_le : a.insertionsAtEnd ≤ Limits.insertionsAtEnd
  repairs_le : a.repairs ≤ Limits.repairs

/-- In front of how many tokens a symbol can still be made up. -/
def freshTokens (n : Nat) (a : Pace) : Nat := a.lastInsertion.elim n (n - 1 - ·)

/-- How many symbols can still be made up. -/
def insertionsLeft (n : Nat) (a : Pace) : Nat :=
  a.freshTokens n + (Limits.insertionsAtEnd - a.insertionsAtEnd)

/-- More turns than can still follow. -/
def turnsLeft (n : Nat) (a : Pace) : Nat :=
  (n - a.position) + 2 * (n - a.reuseFrom) + a.insertionsLeft n

/-- More repairs than the parse can still go on after. -/
def repairsLeft (n : Nat) (a : Pace) : Nat := (n - a.floor) + a.insertionsLeft n

variable {n : Nat} {d : Deed} {a b : Pace}

theorem Next.ok (h : Next n d a b) (ha : a.Ok n) : b.Ok n := by
  obtain ⟨hposition, hfloor, hreuse, hlast, hend, hrepairs⟩ := ha
  cases h with
  | takeOver hlt hle => exact ⟨hle, by dsimp only; omega, hreuse, hlast, hend, hrepairs⟩
  | read hlt => exact ⟨hlt, by dsimp only; omega, hreuse, hlast, hend, hrepairs⟩
  | giveBack hlt hfrom hback =>
    exact ⟨by dsimp only; omega, hback, hposition, hlast, hend, hrepairs⟩
  | insert hlt hnew hlimit =>
    refine ⟨hposition, Nat.le_refl _, hreuse, fun l hl => ?_, hend, hlimit⟩
    obtain rfl := Option.some.inj hl
    exact ⟨Nat.le_refl _, hlt⟩
  | insertAtEnd hfinish hnew hlimit =>
    refine ⟨hposition, Nat.le_refl _, hreuse, fun l hl => ?_, hnew, hlimit⟩
    obtain ⟨hle, hlt⟩ := hlast l hl
    exact ⟨Nat.le_trans hle hfloor, hlt⟩
  | skip hlt hle hlimit =>
    refine ⟨hle, Nat.le_refl _, hreuse, fun l hl => ?_, hend, hlimit⟩
    obtain ⟨hle', hlt'⟩ := hlast l hl
    exact ⟨by dsimp only; omega, hlt'⟩

/-- After a symbol was made up in front of a token, there are fewer such tokens left. -/
theorem Ok.freshTokens_lt (ha : a.Ok n) (hlt : a.position < n)
    (hnew : a.lastInsertion ≠ some a.position) : n - 1 - a.position < a.freshTokens n := by
  have hfloor := ha.floor_le
  unfold freshTokens
  cases hlast : a.lastInsertion with
  | none => exact (show n - 1 - a.position < n by omega)
  | some l =>
    obtain ⟨hle, hl⟩ := ha.lastInsertion_le l hlast
    have hne : l ≠ a.position := by
      rintro rfl
      exact hnew hlast
    exact (show n - 1 - a.position < n - 1 - l by omega)

/-- **Every turn leaves fewer turns to come.** -/
theorem Next.turnsLeft_lt (h : Next n d a b) (ha : a.Ok n) : b.turnsLeft n < a.turnsLeft n := by
  have hposition := ha.position_le
  have hreuse := ha.reuseFrom_le
  unfold turnsLeft insertionsLeft
  cases h with
  | takeOver hlt hle =>
    simp only [freshTokens]
    omega
  | read hlt =>
    simp only [freshTokens]
    omega
  | giveBack hlt hfrom hback =>
    -- The position falls back by what the bound of taking over rises by, which counts twice.
    simp only [freshTokens]
    omega
  | insert hlt hnew hlimit =>
    have hless := ha.freshTokens_lt hlt hnew
    simp only [freshTokens, Option.elim_some] at hless ⊢
    omega
  | insertAtEnd hend hnew hlimit =>
    simp only [freshTokens]
    omega
  | skip hlt hle hlimit =>
    simp only [freshTokens]
    omega

/-- **Every repair leaves fewer repairs to come**, and what is no repair leaves as many. -/
theorem Next.repairsLeft_lt (h : Next n d a b) (ha : a.Ok n) :
    b.repairsLeft n + (if d.isRepair then 1 else 0) ≤ a.repairsLeft n := by
  have hposition := ha.position_le
  have hfloor := ha.floor_le
  unfold repairsLeft insertionsLeft
  cases h with
  | takeOver | read | giveBack => exact Nat.le_refl _
  | insert hlt hnew hlimit =>
    have hless := ha.freshTokens_lt hlt hnew
    simp only [freshTokens, Option.elim_some, Deed.isRepair, if_true] at hless ⊢
    omega
  | insertAtEnd hend hnew hlimit =>
    simp only [freshTokens, Deed.isRepair, if_true]
    omega
  | skip hlt hle hlimit =>
    simp only [freshTokens, Deed.isRepair, if_true]
    omega

/-- The floor never falls, and a repair is made between the old floor and the new one. -/
theorem Next.floor_le (h : Next n d a b) (ha : a.Ok n) :
    a.floor ≤ b.floor ∧ (d.isRepair = true → a.position ≤ b.floor) := by
  have hfloor := ha.floor_le
  cases h with
  | takeOver | read | giveBack => exact ⟨Nat.le_refl _, fun h => by cases h⟩
  | insert | insertAtEnd => exact ⟨hfloor, fun _ => Nat.le_refl _⟩
  | skip hlt => exact ⟨by dsimp only; omega, fun _ => Nat.le_of_lt hlt⟩

/-- **Giving back raises the position from which on subtrees are taken over.** -/
theorem Next.reuseFrom_lt (h : Next n .giveBack a b) : a.reuseFrom < b.reuseFrom := by
  cases h with
  | giveBack hlt hreuse => exact Nat.lt_of_le_of_lt hreuse hlt

/-- Where nothing is made up, what was made up before stays the same. -/
theorem Next.same_insertions (h : Next n d a b) (hd : d ≠ .insert) :
    b.lastInsertion = a.lastInsertion ∧ b.insertionsAtEnd = a.insertionsAtEnd := by
  cases h with
  | takeOver | read | giveBack | skip => exact ⟨rfl, rfl⟩
  | insert | insertAtEnd => exact absurd rfl hd

/-- A symbol is made up in front of a token for the first time, or at the end. -/
theorem Next.new_insertion (h : Next n .insert a b) :
    (a.position < n ∧ a.lastInsertion ≠ some a.position ∧ b.lastInsertion = some a.position ∧
      b.insertionsAtEnd = a.insertionsAtEnd) ∨
    (a.position = n ∧ b.lastInsertion = a.lastInsertion ∧
      b.insertionsAtEnd = a.insertionsAtEnd + 1) := by
  cases h with
  | insert hlt hnew => exact .inl ⟨hlt, hnew, rfl, rfl⟩
  | insertAtEnd hend => exact .inr ⟨hend, rfl, rfl⟩

/-- Only repairs are counted as such. -/
theorem Next.repairs_eq (h : Next n d a b) :
    b.repairs = a.repairs + if d.isRepair then 1 else 0 := by
  cases h <;> rfl

end Pace

end LayeredSyntax
