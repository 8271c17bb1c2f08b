import HeroOS.KheapNull

/-! # `kcalloc`

`kcalloc` computes the product of its arguments modulo `2 ^ 64`, twice: for `kmalloc` and for the bytes to clear.

* `HeapInv.clear`: clearing bytes of a payload keeps the heap in order;
* `kcalloc_sound`: a product that does not wrap and that `kmalloc` serves is cleared;
* `kcalloc_payload_iff`: otherwise the call keeps its promise only by returning `NULL`. -/

namespace HeroOS

open Word Mem

/-- `kcalloc` -/
def Heap.kcalloc (fuel : ℕ) (s : Heap) (count size : ℕ) : Except Halt (Heap × ℕ) := do
  let (s, ptr) ← s.kmalloc fuel (wmul count size)
  if ptr = 0 then .ok (s, 0) else .ok ({ s with mem := s.mem.fill ptr (wmul count size) 0 }, ptr)

variable {bs : List Block} {b : Block} {s s' : Heap} {fuel count size n ptr : ℕ}

/-- A pointer that is returned heads a used block of at least `n` bytes, the first `n` of which are zero. -/
def ZeroedPayload (n : ℕ) (s : Heap) (ptr : ℕ) : Prop :=
  ptr ≠ 0 → ∃ bs, HeapInv s bs ∧ ∃ b ∈ bs, b.free = false ∧ ptr = b.addr + 40 ∧ n ≤ b.size ∧ ∀ i < n, s.mem (ptr + i) = 0

/-- A call in which neither the product nor a size of `kmalloc` wraps to something that is served. -/
def CallocHarmless (s : Heap) (bs : List Block) (count size : ℕ) : Prop :=
  count * size < 2 ^ 64 ∧ WrapHarmless s bs (count * size) ∨ Refuses s bs (wmul count size)

theorem ZeroedPayload.size_lt (h : ZeroedPayload n s ptr) (hp : ptr ≠ 0) : n < 2 ^ 32 := by
  obtain ⟨bs, hi, b, hb, _, _, hle, _⟩ := h hp
  exact hle.trans_lt (hi.size_lt hb)

/-- Writing to the payload of a block. -/
theorem HeapInv.clear (hi : HeapInv s bs) (hb : b ∈ bs) (hn : n ≤ b.size) :
    HeapInv { s with mem := s.mem.fill (b.addr + 40) n 0 } bs := by
  apply hi.withMem _ hi.owned
  apply hi.list.congr
  intro c hc x hx
  apply fill_of_outside
  by_contra hin
  have hpayload : x ∈ b.payload := by
    unfold Block.payload
    rw [Set.mem_Ico]
    omega
  exact hi.list.payload_untagged hb hpayload c hc hx

/-- What a call that returns has done. -/
theorem kcalloc_cases (h : s.kcalloc fuel count size = .ok (s', ptr)) : ∃ s₁, s.kmalloc fuel (wmul count size) = .ok (s₁, ptr) ∧
    s' = if ptr = 0 then s₁ else { s₁ with mem := s₁.mem.fill ptr (wmul count size) 0 } := by
  obtain ⟨⟨s₁, p⟩, hm, h⟩ := bind_eq_ok.mp h
  dsimp only at h
  split at h
  · rename_i hp
    obtain ⟨rfl, rfl⟩ := Prod.mk.inj (Except.ok.inj h)
    exact ⟨s₁, hp ▸ hm, rfl⟩
  · rename_i hp
    obtain ⟨rfl, rfl⟩ := Prod.mk.inj (Except.ok.inj h)
    exact ⟨s₁, hm, (if_neg hp).symm⟩

/-- **A product that does not wrap.** -/
theorem kcalloc_sound (hi : HeapInv s bs) (hz : ¬ s.obtained.Holds 0) (hlt : count * size < 2 ^ 64)
    (hw : WrapHarmless s bs (count * size)) (h : s.kcalloc fuel count size = .ok (s', ptr)) :
    ZeroedPayload (count * size) s' ptr := by
  intro hp
  obtain ⟨s₁, hm, rfl⟩ := kcalloc_cases h
  rw [wmul_of_lt hlt] at hm ⊢
  rw [if_neg hp]
  have h0 : count * size ≠ 0 := by
    intro h0
    exact hp ((kmalloc_null_iff hi hz hlt hm).mpr (.inl h0))
  obtain ⟨_, bs₁, hi₁, b, hb, hfree, rfl, hle, _⟩ := (kmalloc_payload_iff hi hz h0 hlt hm).mpr hw hp
  refine ⟨bs₁, hi₁.clear hb hle, b, hb, hfree, rfl, hle, fun i hin => ?_⟩
  exact if_pos ⟨Nat.le_add_right _ _, by omega⟩

/-- **When `kcalloc` keeps its promise.**  In every well-formed heap and for every count and size, if the call
returns: a pointer other than `NULL` heads a used block of at least `count * size` bytes, without wrapping, the
first of which are zero, if and only if the product does not wrap and no size of `kmalloc` does harm, or `kmalloc`
refuses the wrapped product. -/
theorem kcalloc_payload_iff (hi : HeapInv s bs) (hz : ¬ s.obtained.Holds 0)
    (h : s.kcalloc fuel count size = .ok (s', ptr)) : ZeroedPayload (count * size) s' ptr ↔ CallocHarmless s bs count size := by
  obtain ⟨s₁, hm, _⟩ := kcalloc_cases h
  have hmod : wmul count size < 2 ^ 64 := Nat.mod_lt _ (by norm_num)
  have hnull := kmalloc_null_iff hi hz hmod hm
  constructor
  · intro hzero
    by_cases hp : ptr = 0
    · exact .inr (hnull.mp hp)
    · have hlt := hzero.size_lt hp
      exact .inl ⟨by omega, .inl (by omega)⟩
  · rintro (⟨hlt, hw⟩ | hrefuse)
    · exact kcalloc_sound hi hz hlt hw h
    · exact fun hp => absurd (hnull.mpr hrefuse) hp

/-- The heap after `kheap_init`, and `kcalloc` on it. -/
def firstCalloc (count size : ℕ) : Except Halt (Heap × Heap × ℕ) := do
  let s ← freshHeap.kheapInit 4 0x02000000 (64 * 1024 * 1024)
  let (s', ptr) ← s.kcalloc 4 count size
  .ok (s, s', ptr)

theorem firstCalloc_spec (h : (firstCalloc count size).toOption.any (fun r => decide (r.2.2 = 4194344)) = true) :
    ∃ s bs s', HeapInv s bs ∧ ¬ s.obtained.Holds 0 ∧ s.kcalloc 4 count size = .ok (s', 4194344) := by
  obtain ⟨⟨s, s', ptr⟩, hr, hP⟩ := (Option.any_eq_true _ _).mp h
  obtain ⟨s, hs, hr⟩ := bind_eq_ok.mp (toOption_eq_some.mp hr)
  obtain ⟨⟨_, _⟩, hm, hr⟩ := bind_eq_ok.mp hr
  cases hr
  obtain ⟨bs, hi, hz⟩ := freshHeap_inv hs
  have hptr : ptr = 4194344 := of_decide_eq_true hP
  rw [hptr] at hm
  exact ⟨s, bs, s', hi, hz, hm⟩

/-- Ten structures of 100 bytes. -/
theorem kcalloc_payload_ten : ∃ s bs s', HeapInv s bs ∧ s.kcalloc 4 10 100 = .ok (s', 4194344) ∧ ZeroedPayload 1000 s' 4194344 := by
  obtain ⟨s, bs, s', hi, hz, hm⟩ := @firstCalloc_spec 10 100 (by decide +kernel)
  exact ⟨s, bs, s', hi, hm, (kcalloc_payload_iff hi hz hm).mpr (.inl ⟨by norm_num, .inl (by norm_num)⟩)⟩

/-- `2 ^ 62 + 250` structures of four bytes get a block of 1000 bytes. -/
theorem kcalloc_wraps : ∃ s bs s', HeapInv s bs ∧ s.kcalloc 4 (2 ^ 62 + 250) 4 = .ok (s', 4194344) ∧
    ¬ ZeroedPayload ((2 ^ 62 + 250) * 4) s' 4194344 := by
  obtain ⟨s, bs, s', hi, _, hm⟩ := @firstCalloc_spec (2 ^ 62 + 250) 4 (by decide +kernel)
  refine ⟨s, bs, s', hi, hm, fun h => ?_⟩
  have hlt := h.size_lt (by norm_num)
  norm_num at hlt

end HeroOS
