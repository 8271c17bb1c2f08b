import Mathlib

/-! # Radix trees

A radix tree is given by the links of its nodes, `next t i`, and by the values at its lowest level,
`leaf t i`.  `descend next t is` follows a path of indices, `lookup next leaf t is i` reads the value
at its end.  Nothing is assumed about the types of nodes, indices and values.

* In a layered tree (`Layered`) a path ends at a node as many levels down as it is long.
* If every node has one parent (`SingleParent`), different paths end at different nodes
  (`descend_injective`).
* Grafting an empty node below a missing link (`Grafts`) keeps layers and single parents and
  changes no lookup (`Grafts.lookup_eq`). -/

namespace HeroOS.RadixTree

variable {τ ι α : Type}

/-- The node at the end of a path. -/
def descend (next : τ → ι → Option τ) : τ → List ι → Option τ
  | t, [] => some t
  | t, i :: is => (next t i).bind (fun c => descend next c is)

/-- The value at index `i` of the node at the end of a path. -/
def lookup (next : τ → ι → Option τ) (leaf : τ → ι → Option α) (t : τ) (is : List ι) (i : ι) :
    Option α :=
  (descend next t is).bind (fun p => leaf p i)

/-- Links lead from nodes to nodes one level below. -/
structure Layered (next : τ → ι → Option τ) (node : τ → Prop) (level : τ → ℕ) : Prop where
  closed : ∀ {t i c}, node t → next t i = some c → node c
  level_eq : ∀ {t i c}, node t → next t i = some c → level t = level c + 1

/-- Every node is the target of at most one link. -/
def SingleParent (next : τ → ι → Option τ) (node : τ → Prop) : Prop :=
  ∀ {t t' i i' c}, node t → node t' → next t i = some c → next t' i' = some c → t = t' ∧ i = i'

variable {next next' : τ → ι → Option τ} {leaf leaf' : τ → ι → Option α} {node : τ → Prop}
  {level : τ → ℕ} {t t' p : τ} {is is' : List ι}

theorem Layered.descend (hl : Layered next node level) (ht : node t)
    (h : descend next t is = some p) : node p ∧ level t = level p + is.length := by
  induction is generalizing t with
  | nil =>
      obtain rfl := Option.some.inj h
      exact ⟨ht, rfl⟩
  | cons i is ih =>
      obtain ⟨c, hc, h⟩ := Option.bind_eq_some_iff.mp h
      obtain ⟨hp, hlv⟩ := ih (hl.closed ht hc) h
      have := hl.level_eq ht hc
      exact ⟨hp, by rw [List.length_cons]; omega⟩

/-- Paths of the same length that end at the same node are the same path. -/
theorem descend_injective (hl : Layered next node level) (hs : SingleParent next node) (ht : node t)
    (ht' : node t') (hlen : is.length = is'.length) (h : descend next t is = some p)
    (h' : descend next t' is' = some p) : t = t' ∧ is = is' := by
  induction is generalizing t t' is' with
  | nil =>
      obtain rfl := List.eq_nil_of_length_eq_zero hlen.symm
      exact ⟨Option.some.inj (h.trans h'.symm), rfl⟩
  | cons i is ih =>
      obtain ⟨i', is', rfl⟩ := List.exists_cons_of_length_eq_add_one hlen.symm
      obtain ⟨c, hc, h⟩ := Option.bind_eq_some_iff.mp h
      obtain ⟨c', hc', h'⟩ := Option.bind_eq_some_iff.mp h'
      obtain ⟨rfl, rfl⟩ := ih (hl.closed ht hc) (hl.closed ht' hc') (Nat.succ.inj hlen) h h'
      obtain ⟨rfl, rfl⟩ := hs ht ht' hc hc'
      exact ⟨rfl, rfl⟩

/-- A descent depends only on the links of the nodes above its end. -/
theorem descend_congr (hl : Layered next node level)
    (hn : ∀ t i, node t → 2 ≤ level t → next' t i = next t i) (ht : node t)
    (hlen : is.length < level t) : RadixTree.descend next' t is = RadixTree.descend next t is := by
  induction is generalizing t with
  | nil => rfl
  | cons i is ih =>
      rw [List.length_cons] at hlen
      simp only [RadixTree.descend]
      rw [hn t i ht (by omega)]
      cases hc : next t i with
      | none => rfl
      | some c =>
          have := hl.level_eq ht hc
          exact ih (hl.closed ht hc) (by omega)

/-! ### Grafting -/

/-- The tree after the empty node `c` has been grafted below `t₀` at the index `i₀`. -/
structure Grafts (next : τ → ι → Option τ) (leaf : τ → ι → Option α) (next' : τ → ι → Option τ)
    (leaf' : τ → ι → Option α) (node : τ → Prop) (level : τ → ℕ) (t₀ : τ) (i₀ : ι) (c : τ) : Prop where
  parent : node t₀
  missing : next t₀ i₀ = none
  grafted : next' t₀ i₀ = some c
  fresh : ¬ node c
  next_empty : ∀ i, next' c i = none
  leaf_empty : ∀ i, leaf' c i = none
  next_eq : ∀ {t i}, node t → ¬ (t = t₀ ∧ i = i₀) → next' t i = next t i
  leaf_eq : ∀ {t i}, node t → level t = 1 → leaf' t i = leaf t i

variable {t₀ c : τ} {i₀ : ι}

/-- Grafting an empty node changes no lookup. -/
theorem Grafts.lookup_eq {i : ι} (hg : Grafts next leaf next' leaf' node level t₀ i₀ c)
    (hl : Layered next node level) (ht : node t) (hlen : level t = is.length + 1) :
    lookup next' leaf' t is i = lookup next leaf t is i := by
  induction is generalizing t with
  | nil => exact hg.leaf_eq ht hlen
  | cons j js ih =>
      simp only [lookup, RadixTree.descend]
      by_cases hj : t = t₀ ∧ j = i₀
      · obtain ⟨rfl, rfl⟩ := hj
        rw [hg.missing, hg.grafted]
        -- the path now enters the empty node, where it ends or finds no link
        cases js with
        | nil => simp [RadixTree.descend, hg.leaf_empty]
        | cons k ks => simp [RadixTree.descend, hg.next_empty]
      · rw [hg.next_eq ht hj]
        cases hc : next t j with
        | none => rfl
        | some d =>
            have := hl.level_eq ht hc
            rw [List.length_cons] at hlen
            exact ih (hl.closed ht hc) (by omega)

theorem Grafts.layered [DecidableEq τ] (hg : Grafts next leaf next' leaf' node level t₀ i₀ c)
    (hl : Layered next node level) (h0 : 1 ≤ level t₀) :
    Layered next' (fun t => t = c ∨ node t) (Function.update level c (level t₀ - 1)) := by
  have hne : ∀ {t}, node t → Function.update level c (level t₀ - 1) t = level t := by
    intro t ht
    refine Function.update_of_ne (fun e => hg.fresh ?_) _ _
    rwa [← e]
  constructor
  · rintro t i d (rfl | ht) hd
    · rw [hg.next_empty] at hd
      cases hd
    · by_cases hj : t = t₀ ∧ i = i₀
      · obtain ⟨rfl, rfl⟩ := hj
        exact .inl (Option.some.inj (hd.symm.trans hg.grafted))
      · rw [hg.next_eq ht hj] at hd
        exact .inr (hl.closed ht hd)
  · rintro t i d (rfl | ht) hd
    · rw [hg.next_empty] at hd
      cases hd
    · by_cases hj : t = t₀ ∧ i = i₀
      · obtain ⟨rfl, rfl⟩ := hj
        obtain rfl : d = c := Option.some.inj (hd.symm.trans hg.grafted)
        rw [hne ht, Function.update_self]
        omega
      · rw [hg.next_eq ht hj] at hd
        rw [hne ht, hne (hl.closed ht hd)]
        exact hl.level_eq ht hd

theorem Grafts.singleParent (hg : Grafts next leaf next' leaf' node level t₀ i₀ c)
    (hl : Layered next node level) (hs : SingleParent next node) :
    SingleParent next' (fun t => t = c ∨ node t) := by
  -- a link of the new tree is the grafted one or leads from a node to a node
  have hcases : ∀ {t i d}, t = c ∨ node t → next' t i = some d →
      (t = t₀ ∧ i = i₀ ∧ d = c) ∨ (node t ∧ node d ∧ next t i = some d) := by
    rintro t i d (rfl | ht) hd
    · rw [hg.next_empty] at hd
      cases hd
    · by_cases hj : t = t₀ ∧ i = i₀
      · obtain ⟨rfl, rfl⟩ := hj
        exact .inl ⟨rfl, rfl, Option.some.inj (hd.symm.trans hg.grafted)⟩
      · rw [hg.next_eq ht hj] at hd
        exact .inr ⟨ht, hl.closed ht hd, hd⟩
  intro t t' i i' d ht ht' hd hd'
  rcases hcases ht hd with ⟨rfl, rfl, rfl⟩ | ⟨hn, hnd, h⟩
  · rcases hcases ht' hd' with ⟨rfl, rfl, _⟩ | ⟨_, hnd', _⟩
    · exact ⟨rfl, rfl⟩
    · exact absurd hnd' hg.fresh
  · rcases hcases ht' hd' with ⟨_, _, rfl⟩ | ⟨hn', _, h'⟩
    · exact absurd hnd hg.fresh
    · exact hs hn hn' h h'

end HeroOS.RadixTree
