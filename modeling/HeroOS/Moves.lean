import Mathlib

/-! # Moves, one after the other

A machine that moves the contents of cells one by one may read a cell that it has already written.

`moves m ps` carries out the moves of the list `ps` in order.  Where no move overwrites the target or the source of
a later one (`Ordered`), it is as if all of them were made at once (`moves_of_mem`); the other cells are kept
(`moves_of_notMem`). -/

namespace HeroOS.Moves

variable {α β : Type} {m : α → β} {ps : List (α × α)} {d s x : α}

/-- No move overwrites the target or the source of a later one. -/
def Ordered (ps : List (α × α)) : Prop := ps.Pairwise fun p q => p.1 ≠ q.1 ∧ p.1 ≠ q.2

/-- The moves of an indexed family, for the indices of a list. -/
theorem ordered_map {ι : Type} {f : ι → α × α} {is : List ι} {R : ι → ι → Prop} (his : is.Pairwise R)
    (h : ∀ i ∈ is, ∀ j ∈ is, R i j → (f i).1 ≠ (f j).1 ∧ (f i).1 ≠ (f j).2) : Ordered (is.map f) :=
  List.pairwise_map.mpr (his.imp_of_mem fun hi hj hr => h _ hi _ hj hr)

variable [DecidableEq α]

/-- Each pair `(d, s)` in turn: what is in the cell `s` is written to the cell `d`. -/
def moves (m : α → β) : List (α × α) → α → β
  | [] => m
  | (d, s) :: ps => moves (Function.update m d (m s)) ps

theorem moves_of_notMem (h : ∀ p ∈ ps, x ≠ p.1) : moves m ps x = m x := by
  induction ps generalizing m with
  | nil => rfl
  | cons p ps ih =>
      obtain ⟨hx, hps⟩ := List.forall_mem_cons.mp h
      rw [moves, ih hps]
      exact Function.update_of_ne hx _ _

/-- **Ordered moves** are made as if at once: every target gets what its source held in the beginning. -/
theorem moves_of_mem (h : Ordered ps) (hp : (d, s) ∈ ps) : moves m ps d = m s := by
  induction ps generalizing m with
  | nil => cases hp
  | cons p ps ih =>
      obtain ⟨hhead, htail⟩ := List.pairwise_cons.mp h
      rcases List.mem_cons.mp hp with rfl | hp
      · rw [moves, moves_of_notMem fun q hq => (hhead q hq).1]
        exact Function.update_self _ _ _
      · -- the first move has not touched the source
        rw [moves, ih htail hp]
        exact Function.update_of_ne (hhead _ hp).2.symm _ _

end HeroOS.Moves
