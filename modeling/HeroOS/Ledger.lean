import Mathlib

/-! # Ledgers of disjoint holdings

A ledger lists the holdings of the clients of an allocator, each a finite set of resources.
`release a` takes the resource `a` back from whoever holds it.  In a ledger whose holdings are
pairwise disjoint a resource has one holder, so releasing it lowers the total by one
(`total_release`), and releasing what one client holds leaves the others alone
(`release_append_right`, `without_of_disjoint`). -/

namespace HeroOS

/-- The outstanding holdings, the most recent first. -/
abbrev Ledger (α : Type) := List (Finset α)

namespace Ledger

variable {α : Type} {l : Ledger α} {a b : α}

/-- Some client holds `a`. -/
def Holds (l : Ledger α) (a : α) : Prop := ∃ o ∈ l, a ∈ o

/-- The number of resources held. -/
def total (l : Ledger α) : ℕ := (l.map Finset.card).sum

@[simp] theorem holds_cons {o : Finset α} : Holds (o :: l) a ↔ a ∈ o ∨ Holds l a := by
  simp [Holds]

@[simp] theorem total_cons {o : Finset α} : total (o :: l) = o.card + total l := by
  simp [total]

theorem not_holds_of_empty (h : ∀ o ∈ l, o = ∅) : ¬ Holds l a := by
  rintro ⟨o, ho, ha⟩
  rw [h o ho] at ha
  exact Finset.notMem_empty a ha

theorem total_of_empty (h : ∀ o ∈ l, o = ∅) : total l = 0 := by
  induction l with
  | nil => rfl
  | cons o l ih =>
      rw [total_cons, h o List.mem_cons_self, ih (fun o' ho' => h o' (List.mem_cons_of_mem _ ho'))]
      rfl

/-! ### Parts of a ledger -/

variable {k l' : Ledger α} {o : Finset α}

theorem holds_append : Holds (k ++ l) a ↔ Holds k a ∨ Holds l a := by
  simp only [Holds, List.mem_append, or_and_right, exists_or]

theorem holds_perm (h : l.Perm l') : Holds l a ↔ Holds l' a := by
  simp only [Holds, h.mem_iff]

theorem total_append : total (k ++ l) = total k + total l := by
  unfold total
  rw [List.map_append, List.sum_append]

theorem total_perm (h : l.Perm l') : total l = total l' := (h.map _).sum_eq

theorem pairwise_perm (h : l.Perm l') (hl : l.Pairwise Disjoint) : l'.Pairwise Disjoint :=
  h.pairwise hl fun hd => hd.symm

/-- In disjoint parts of a ledger no resource is held twice. -/
theorem not_holds_left (h : (k ++ l).Pairwise Disjoint) (ha : Holds l a) : ¬ Holds k a := by
  rintro ⟨o, ho, hao⟩
  obtain ⟨o', ho', hao'⟩ := ha
  exact Finset.disjoint_left.mp ((List.pairwise_append.mp h).2.2 o ho o' ho') hao hao'

/-! ### Release -/

variable [DecidableEq α]

instance (l : Ledger α) (a : α) : Decidable (Holds l a) :=
  inferInstanceAs (Decidable (∃ o ∈ l, a ∈ o))

/-- Take `a` back. -/
def release (l : Ledger α) (a : α) : Ledger α := l.map (fun o => o.erase a)

theorem holds_release : Holds (l.release b) a ↔ a ≠ b ∧ Holds l a := by
  simp only [Holds, release, List.mem_map, exists_exists_and_eq_and, Finset.mem_erase]
  constructor
  · rintro ⟨o, ho, hne, ha⟩
    exact ⟨hne, o, ho, ha⟩
  · rintro ⟨hne, o, ho, ha⟩
    exact ⟨o, ho, hne, ha⟩

theorem pairwise_release (h : l.Pairwise Disjoint) (b : α) : (l.release b).Pairwise Disjoint := by
  refine List.Pairwise.map _ (fun o o' ho => ?_) h
  exact ho.mono (Finset.erase_subset _ _) (Finset.erase_subset _ _)

theorem release_of_not_holds (h : ¬ Holds l a) : l.release a = l := by
  have he : ∀ o ∈ l, o.erase a = o := fun o ho =>
    Finset.erase_eq_of_notMem (fun ha => h ⟨o, ho, ha⟩)
  exact (List.map_congr_left he).trans (List.map_id l)

/-- Releasing a resource that is held lowers the total by one. -/
theorem total_release (h : l.Pairwise Disjoint) (ha : Holds l a) :
    total (l.release a) + 1 = total l := by
  induction l with
  | nil =>
      obtain ⟨o, ho, _⟩ := ha
      cases ho
  | cons o l ih =>
      obtain ⟨hd, hp⟩ := List.pairwise_cons.mp h
      rw [show release (o :: l) a = o.erase a :: release l a from rfl, total_cons, total_cons]
      by_cases hao : a ∈ o
      · -- the rest of the ledger does not hold `a`
        have hrest : ¬ Holds l a := by
          rintro ⟨o', ho', ha'⟩
          exact Finset.disjoint_left.mp (hd o' ho') hao ha'
        rw [release_of_not_holds hrest, ← Finset.card_erase_add_one hao]
        omega
      · rw [Finset.erase_eq_of_notMem hao]
        have := ih hp ((holds_cons.mp ha).resolve_left hao)
        omega

/-! ### Sets of resources -/

/-- Disjoint holdings do not exceed what there is. -/
theorem total_le_card (h : l.Pairwise Disjoint) {u : Finset α} (hu : ∀ a, Holds l a → a ∈ u) : total l ≤ u.card := by
  induction l generalizing u with
  | nil => exact Nat.zero_le _
  | cons o l ih =>
      obtain ⟨hd, hp⟩ := List.pairwise_cons.mp h
      have hsub : o ⊆ u := fun a ha => hu a (holds_cons.mpr (.inl ha))
      have hrest : ∀ a, Holds l a → a ∈ u \ o := by
        intro a ha
        refine Finset.mem_sdiff.mpr ⟨hu a (holds_cons.mpr (.inr ha)), fun hao => ?_⟩
        obtain ⟨o', ho', ha'⟩ := ha
        exact Finset.disjoint_left.mp (hd o' ho') hao ha'
      have hle := ih hp hrest
      rw [Finset.card_sdiff_of_subset hsub] at hle
      have := Finset.card_le_card hsub
      rw [total_cons]
      omega

theorem release_append_right (h : ¬ Holds k a) : (k ++ l).release a = k ++ l.release a := by
  unfold release
  rw [List.map_append]
  congr 1
  exact release_of_not_holds h

/-- Take all resources of `o` back. -/
def without (l : Ledger α) (o : Finset α) : Ledger α := l.map (fun o' => o' \ o)

theorem holds_without : Holds (l.without o) a ↔ Holds l a ∧ a ∉ o := by
  simp only [Holds, without, List.mem_map, exists_exists_and_eq_and, Finset.mem_sdiff]
  constructor
  · rintro ⟨o', ho', ha, hn⟩
    exact ⟨⟨o', ho', ha⟩, hn⟩
  · rintro ⟨⟨o', ho', ha⟩, hn⟩
    exact ⟨o', ho', ha, hn⟩

theorem without_of_disjoint (h : ∀ o' ∈ l, Disjoint o' o) : l.without o = l := by
  have he : ∀ o' ∈ l, o' \ o = o' := fun o' ho' => Finset.sdiff_eq_self_of_disjoint (h o' ho')
  exact (List.map_congr_left he).trans (List.map_id l)

end Ledger
end HeroOS
