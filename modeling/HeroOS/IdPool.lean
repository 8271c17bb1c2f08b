import Mathlib

/-! # Pools of identifiers that are given out once

A pool gives out the identifiers `0`, `1`, `2` and so on up to a capacity and takes none of them back:
what is destroyed is no longer live, but its identifier is not used again.  In a sound pool every
identifier that was given out is live or has been released (`Sound.balance`), so that a pool which has
given out all of them is full of live ones exactly when none was released (`Sound.full_iff`). -/

namespace HeroOS

/-- The next identifier, the live ones, and the number of those that were destroyed. -/
structure IdPool where
  next : ℕ
  live : Finset ℕ
  released : ℕ

namespace IdPool

/-- Nothing has been given out. -/
def empty : IdPool := ⟨0, ∅, 0⟩

/-- Give out the next identifier, unless all `cap` of them have been. -/
def create (cap : ℕ) (p : IdPool) : IdPool :=
  if p.next < cap then ⟨p.next + 1, insert p.next p.live, p.released⟩ else p

/-- Destroy what has the identifier `i`. -/
def destroy (p : IdPool) (i : ℕ) : IdPool :=
  if i ∈ p.live then ⟨p.next, p.live.erase i, p.released + 1⟩ else p

/-- Every identifier given out is live or released. -/
structure Sound (cap : ℕ) (p : IdPool) : Prop where
  bound : p.next ≤ cap
  given : ∀ i ∈ p.live, i < p.next
  balance : p.live.card + p.released = p.next

variable {cap i : ℕ} {p : IdPool}

theorem Sound.empty (cap : ℕ) : Sound cap empty := ⟨Nat.zero_le cap, fun i hi => absurd hi (Finset.notMem_empty i), rfl⟩

theorem Sound.create (h : Sound cap p) : Sound cap (p.create cap) := by
  unfold IdPool.create
  split
  · rename_i hlt
    have hnew : p.next ∉ p.live := fun hm => absurd (h.given _ hm) (lt_irrefl _)
    refine ⟨hlt, fun i hi => ?_, ?_⟩
    · rcases Finset.mem_insert.mp hi with rfl | hi
      · exact Nat.lt_succ_self _
      · exact (h.given i hi).trans (Nat.lt_succ_self _)
    · have hb := h.balance
      dsimp only
      rw [Finset.card_insert_of_notMem hnew]
      omega
  · exact h

theorem Sound.destroy (h : Sound cap p) (i : ℕ) : Sound cap (p.destroy i) := by
  unfold IdPool.destroy
  split
  · rename_i hi
    refine ⟨h.bound, fun j hj => h.given j (Finset.mem_of_mem_erase hj), ?_⟩
    have hb := h.balance
    have hcard := Finset.card_erase_add_one hi
    dsimp only
    omega
  · exact h

/-- **A pool that gives out nothing more** is full of live identifiers exactly when none was released. -/
theorem Sound.full_iff (h : Sound cap p) : (cap ≤ p.next → p.live.card = cap) ↔ p.next < cap ∨ p.released = 0 := by
  have hb := h.balance
  have hle := h.bound
  constructor
  · intro hfull
    by_cases hlt : p.next < cap
    · exact .inl hlt
    · have hcard := hfull (not_lt.mp hlt)
      exact .inr (by omega)
  · rintro (hlt | h0) hge
    · omega
    · omega

end IdPool
end HeroOS
