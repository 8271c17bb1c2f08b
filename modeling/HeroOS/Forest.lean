import Mathlib

/-! # Forests of allocated nodes

Nodes are values of any type, `kids d` lists the children of the node `d`, and `live` are the nodes
that are allocated.  What a node that is not allocated says about its children is of no account, so
that a node may be freed without being cleared and be allocated again later.

* `IsForest`: the children of allocated nodes are allocated, no node is a child twice, and the root
  is no child at all;
* `IsForest.attach`, `IsForest.detach`: a new leaf and the removal of one child keep this;
* `Detach.not_reach`, `Detach.reached`: the nodes below a removed child stay allocated and are no
  longer reached, and nothing else is lost;
* `IsForest.unique_slot`: every node that is reached occurs in exactly one place. -/

namespace HeroOS.Forest

variable {ν : Type} {kids kids' : ν → List ν} {live live' : ν → Prop} {root p c d : ν}

/-- The nodes below the root. -/
inductive Reach (kids : ν → List ν) (root : ν) : ν → Prop
  | root : Reach kids root root
  | child {d c : ν} : Reach kids root d → c ∈ kids d → Reach kids root c

/-- The allocated nodes form a forest, and `root` is one of its roots. -/
structure IsForest (kids : ν → List ν) (live : ν → Prop) (root : ν) : Prop where
  root_live : live root
  kids_live : ∀ d, live d → ∀ c ∈ kids d, live c
  nodup : ∀ d, live d → (kids d).Nodup
  disjoint : ∀ d d' c, live d → live d' → c ∈ kids d → c ∈ kids d' → d = d'
  root_free : ∀ d, live d → root ∉ kids d

theorem Reach.is_live (hr : Reach kids root d) (h : IsForest kids live root) : live d := by
  induction hr with
  | root => exact h.root_live
  | child _ hc ih => exact h.kids_live _ ih _ hc

/-- Fewer children reach fewer nodes. -/
theorem Reach.mono (hsub : ∀ d, kids' d ⊆ kids d) (hr : Reach kids' root d) : Reach kids root d := by
  induction hr with
  | root => exact .root
  | child _ hc ih => exact .child ih (hsub _ hc)

/-- A node that is reached, other than the root, has exactly one place among the children of the
nodes that are reached. -/
theorem IsForest.unique_slot (h : IsForest kids live root) (hr : Reach kids root c) (hne : c ≠ root) :
    ∃! s : ν × ℕ, Reach kids root s.1 ∧ (kids s.1)[s.2]? = some c := by
  cases hr with
  | root => exact absurd rfl hne
  | @child d _ hd hc =>
      obtain ⟨i, hi⟩ := List.getElem?_of_mem hc
      refine ⟨(d, i), ⟨hd, hi⟩, ?_⟩
      rintro ⟨d', j⟩ ⟨hd', hj⟩
      obtain rfl := h.disjoint d' d c (hd'.is_live h) (hd.is_live h) (List.mem_of_getElem? hj) hc
      obtain ⟨hi, hic⟩ := List.getElem?_eq_some_iff.mp hi
      obtain ⟨hj, hjc⟩ := List.getElem?_eq_some_iff.mp hj
      have hij := (h.nodup d' (hd.is_live h)).getElem_inj_iff.mp (hjc.trans hic.symm)
      exact Prod.ext rfl hij

/-! ### Attaching a leaf -/

/-- The node `c` is allocated as a new last child of `p`, without children of its own. -/
structure Attach (kids : ν → List ν) (live : ν → Prop) (p c : ν) (kids' : ν → List ν) (live' : ν → Prop) :
    Prop where
  fresh : ¬ live c
  leaf : kids' c = []
  parent : kids' p = kids p ++ [c]
  other : ∀ d, d ≠ p → d ≠ c → kids' d = kids d
  live_iff : ∀ d, live' d ↔ live d ∨ d = c

theorem Attach.mem_kids (a : Attach kids live p c kids' live') {x : ν} (hd : live' d) (hx : x ∈ kids' d) :
    live d ∧ (x ∈ kids d ∨ d = p ∧ x = c) := by
  by_cases hdc : d = c
  · rw [hdc, a.leaf] at hx
    cases hx
  · have hlive : live d := ((a.live_iff d).mp hd).resolve_right hdc
    by_cases hdp : d = p
    · subst hdp
      rw [a.parent, List.mem_append, List.mem_singleton] at hx
      obtain hx | hx := hx
      · exact ⟨hlive, .inl hx⟩
      · exact ⟨hlive, .inr ⟨rfl, hx⟩⟩
    · rw [a.other d hdp hdc] at hx
      exact ⟨hlive, .inl hx⟩

theorem IsForest.attach (h : IsForest kids live root) (hp : live p) (a : Attach kids live p c kids' live') :
    IsForest kids' live' root := by
  have hnew : ∀ d, live d → c ∉ kids d := fun d hd hc => a.fresh (h.kids_live d hd c hc)
  refine ⟨(a.live_iff root).mpr (.inl h.root_live), ?_, ?_, ?_, ?_⟩
  · intro d hd x hx
    rw [a.live_iff]
    obtain ⟨hlive, hx | ⟨_, hx⟩⟩ := a.mem_kids hd hx
    · exact .inl (h.kids_live d hlive x hx)
    · exact .inr hx
  · intro d hd
    by_cases hdc : d = c
    · rw [hdc, a.leaf]
      exact List.nodup_nil
    · have hlive : live d := ((a.live_iff d).mp hd).resolve_right hdc
      by_cases hdp : d = p
      · rw [hdp, a.parent]
        exact (h.nodup p hp).append (List.nodup_singleton c) (by simpa using hnew p hp)
      · rw [a.other d hdp hdc]
        exact h.nodup d hlive
  · intro d d' x hd hd' hx hx'
    obtain ⟨hlive, hx | ⟨hdp, rfl⟩⟩ := a.mem_kids hd hx
    · obtain ⟨hlive', hx' | ⟨_, rfl⟩⟩ := a.mem_kids hd' hx'
      · exact h.disjoint d d' x hlive hlive' hx hx'
      · exact absurd hx (hnew d hlive)
    · obtain ⟨hlive', hx' | ⟨hdp', _⟩⟩ := a.mem_kids hd' hx'
      · exact absurd hx' (hnew d' hlive')
      · exact hdp.trans hdp'.symm
  · intro d hd hx
    obtain ⟨hlive, hx | ⟨_, hx⟩⟩ := a.mem_kids hd hx
    · exact h.root_free d hlive hx
    · exact a.fresh (hx ▸ h.root_live)

/-- Only the new leaf is reached in addition. -/
theorem Attach.reach (a : Attach kids live p c kids' live') (h : IsForest kids live root) (hp : live p)
    (hr : Reach kids' root d) : Reach kids root d ∨ d = c := by
  induction hr with
  | root => exact .inl .root
  | @child d x hd hx ih =>
      obtain ⟨hlive, hx | ⟨_, hx⟩⟩ := a.mem_kids (hd.is_live (h.attach hp a)) hx
      · obtain ih | rfl := ih
        · exact .inl (.child ih hx)
        · exact absurd hlive a.fresh
      · exact .inr hx

/-- What was reached stays reached. -/
theorem Attach.reached (a : Attach kids live p c kids' live') (h : IsForest kids live root)
    (hr : Reach kids root d) : Reach kids' root d := by
  induction hr with
  | root => exact .root
  | @child d x hd hx ih =>
      refine .child ih ?_
      by_cases hdp : d = p
      · rw [hdp, a.parent]
        exact List.mem_append_left _ (hdp ▸ hx)
      · have hdc : d ≠ c := fun e => a.fresh (e ▸ hd.is_live h)
        rwa [a.other d hdp hdc]

/-! ### Detaching a child -/

/-- The child `c` of `p` is taken out of its place and freed. -/
structure Detach (kids : ν → List ν) (live : ν → Prop) (p c : ν) (kids' : ν → List ν) (live' : ν → Prop) :
    Prop where
  parent : ∃ l r, kids p = l ++ c :: r ∧ kids' p = l ++ r
  other : ∀ d, d ≠ p → kids' d = kids d
  live_iff : ∀ d, live' d ↔ live d ∧ d ≠ c

theorem Detach.mem (t : Detach kids live p c kids' live') : c ∈ kids p := by
  obtain ⟨l, r, h, _⟩ := t.parent
  rw [h]
  simp

theorem Detach.sublist (t : Detach kids live p c kids' live') (d : ν) : (kids' d).Sublist (kids d) := by
  by_cases hd : d = p
  · obtain ⟨l, r, h, h'⟩ := t.parent
    rw [hd, h, h']
    exact (List.Sublist.refl l).append (List.sublist_cons_self c r)
  · rw [t.other d hd]

theorem Detach.reach (t : Detach kids live p c kids' live') (hr : Reach kids' root d) : Reach kids root d :=
  hr.mono fun d => (t.sublist d).subset

/-- Looking for a child finds the same one, unless that is the freed node. -/
theorem Detach.find? (t : Detach kids live p c kids' live') {q : ν → Bool} {x : ν} (h : (kids d).find? q = some x)
    (hne : x ≠ c) : (kids' d).find? q = some x := by
  by_cases hd : d = p
  · subst hd
    obtain ⟨l, r, hk, hk'⟩ := t.parent
    rw [hk, List.find?_append, List.find?_cons] at h
    rw [hk', List.find?_append]
    -- the freed node does not match, or comes behind the one that is found
    cases hl : l.find? q with
    | some y => simpa [hl] using h
    | none =>
        cases hc : q c with
        | true => simp [hl, hc, hne.symm] at h
        | false => simpa [hl, hc] using h
  · rwa [t.other d hd]

/-- The freed node is no child of anybody. -/
theorem Detach.not_mem (t : Detach kids live p c kids' live') (h : IsForest kids live root) (hp : live p)
    (hd : live d) : c ∉ kids' d := by
  intro hc
  obtain rfl := h.disjoint d p c hd hp ((t.sublist d).subset hc) t.mem
  obtain ⟨l, r, hk, hk'⟩ := t.parent
  have hnodup := h.nodup d hp
  rw [hk, List.nodup_middle, List.nodup_cons] at hnodup
  rw [hk'] at hc
  exact hnodup.1 hc

/-- Nothing below the freed node is reached any more. -/
theorem Detach.not_reach (t : Detach kids live p c kids' live') (h : IsForest kids live root) (hp : live p)
    (hd : d ∈ kids c) : ¬ Reach kids' root d := by
  have hc : live c := h.kids_live p hp c t.mem
  intro hr
  cases hr with
  | root => exact h.root_free c hc hd
  | @child x _ hx hdx =>
      have hlive : live x := (t.reach hx).is_live h
      obtain rfl := h.disjoint x c d hlive hc ((t.sublist x).subset hdx) hd
      cases hx with
      | root => exact h.root_free p hp t.mem
      | child hy hc' => exact t.not_mem h hp ((t.reach hy).is_live h) hc'

/-- Where the freed node was a leaf, everything else stays reached. -/
theorem Detach.reached (t : Detach kids live p c kids' live') (hleaf : kids c = []) (hr : Reach kids root d) :
    d = c ∨ Reach kids' root d := by
  induction hr with
  | root => exact .inr .root
  | @child d x hd hx ih =>
      by_cases hxc : x = c
      · exact .inl hxc
      · right
        obtain rfl | ih := ih
        · rw [hleaf] at hx
          cases hx
        · refine .child ih ?_
          by_cases hdp : d = p
          · obtain ⟨l, r, hk, hk'⟩ := t.parent
            subst hdp
            rw [hk, List.mem_append, List.mem_cons] at hx
            rw [hk', List.mem_append]
            obtain hx | hx | hx := hx
            · exact .inl hx
            · exact absurd hx hxc
            · exact .inr hx
          · rwa [t.other d hdp]

/-- No node that is reached is its own child. -/
theorem Reach.irrefl (hr : Reach kids root d) (h : IsForest kids live root) : d ∉ kids d := by
  induction hr with
  | root => exact h.root_free root h.root_live
  | @child d x hd hx ih =>
      intro hself
      obtain rfl := h.disjoint d x x (hd.is_live h) (h.kids_live d (hd.is_live h) x hx) hx hself
      exact ih hself

theorem IsForest.detach (h : IsForest kids live root) (hp : live p) (t : Detach kids live p c kids' live') :
    IsForest kids' live' root := by
  have hlive : ∀ d, live' d → live d := fun d hd => ((t.live_iff d).mp hd).1
  have hsub : ∀ d, kids' d ⊆ kids d := fun d => (t.sublist d).subset
  refine ⟨?_, ?_, ?_, ?_, ?_⟩
  · rw [t.live_iff]
    refine ⟨h.root_live, ?_⟩
    rintro rfl
    exact h.root_free p hp t.mem
  · intro d hd x hx
    rw [t.live_iff]
    refine ⟨h.kids_live d (hlive d hd) x (hsub d hx), ?_⟩
    rintro rfl
    exact t.not_mem h hp (hlive d hd) hx
  · intro d hd
    exact (t.sublist d).nodup (h.nodup d (hlive d hd))
  · intro d d' x hd hd' hx hx'
    exact h.disjoint d d' x (hlive d hd) (hlive d' hd') (hsub d hx) (hsub d' hx')
  · intro d hd hx
    exact h.root_free d (hlive d hd) (hsub d hx)

end HeroOS.Forest
