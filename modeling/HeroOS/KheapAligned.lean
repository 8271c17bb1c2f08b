import HeroOS.KheapFit

/-! # Aligned pointers

`kmalloc_aligned` asks `kmalloc` for more than it needs, rounds the pointer up and keeps the one that it got in
the eight bytes before.

* `kmalloc_aligned_contained`: pointer, kept pointer and payload lie inside the block that `kmalloc` took;
* `kmalloc_multiple_of_16_iff`: `kmalloc` itself returns a multiple of 16 only where the block that it takes lies
  at an odd multiple of 8;
* `kmalloc_aligned_kfree`: `kfree` looks for the header 40 bytes before the aligned pointer, where there is none,
  and does not release the block. -/

namespace HeroOS

open Word Mem

/-- `kmalloc_aligned` -/
def Heap.kmallocAligned (fuel : ℕ) (s : Heap) (size align : ℕ) : Except Halt (Heap × ℕ) := do
  let (s, raw) ← s.kmalloc fuel (wadd (wadd size align) 8)
  if raw = 0 then .ok (s, 0)
  else
    let aligned := alignUp (wadd raw 8) align
    .ok ({ s with mem := s.mem.write64 (wsub aligned 8) raw }, aligned)

variable {m : Mem} {head : ℕ} {bs xs ys : List Block} {b : Block} {s s' s₁ : Heap} {w w' : HeapWorld} {fuel size align k n ptr q : ℕ}

/-! ### `kmalloc_aligned` -/

/-- A word written to the payload of a block. -/
theorem HeapInv.write64 {a v : ℕ} (hi : HeapInv s bs) (hb : b ∈ bs) (hin : Set.Ico a (a + 8) ⊆ b.payload) :
    HeapInv { s with mem := s.mem.write64 a v } bs := by
  apply hi.withMem _ hi.owned
  apply hi.list.congr
  intro c hc x hx
  apply write64_of_outside
  by_contra hout
  exact hi.list.payload_untagged hb (hin ⟨by omega, by omega⟩) c hc hx

/-- What a call that returns has done. -/
theorem kmallocAligned_cases (h : s.kmallocAligned fuel size align = .ok (s', q)) :
    ∃ s₁ raw, s.kmalloc fuel (wadd (wadd size align) 8) = .ok (s₁, raw) ∧ (raw = 0 ∧ s' = s₁ ∧ q = 0 ∨
      raw ≠ 0 ∧ q = alignUp (wadd raw 8) align ∧ s' = { s₁ with mem := s₁.mem.write64 (wsub q 8) raw }) := by
  obtain ⟨⟨s₁, raw⟩, hm, h⟩ := bind_eq_ok.mp h
  refine ⟨s₁, raw, hm, ?_⟩
  dsimp only at h
  split at h
  · rename_i hraw
    obtain ⟨rfl, rfl⟩ := Prod.mk.inj (Except.ok.inj h)
    exact .inl ⟨hraw, rfl, rfl⟩
  · rename_i hraw
    obtain ⟨rfl, rfl⟩ := Prod.mk.inj (Except.ok.inj h)
    exact .inr ⟨hraw, rfl, rfl⟩

/-- **`kmalloc_aligned` stays inside its block.**  For every power of two and every size for which no computation
wraps: a pointer `q` that is returned is a multiple of `align`, and both the slot before it and the `size` bytes
from it on lie in the payload of the block that `kmalloc` has taken. -/
theorem kmalloc_aligned_contained (hi : HeapInv s bs) (halign : align = 2 ^ k) (hw : NoWrap (size + align + 8))
    (h : s.kmallocAligned fuel size align = .ok (s', q)) (hq : q ≠ 0) :
    ∃ s₁ raw bs₁ b, s.kmalloc fuel (size + align + 8) = .ok (s₁, raw) ∧ HeapInv s₁ bs₁ ∧ b ∈ bs₁ ∧ b.free = false ∧
      raw = b.addr + 40 ∧ align ∣ q ∧ 8 ≤ q ∧ Set.Ico (q - 8) q ⊆ b.payload ∧ Set.Ico q (q + size) ⊆ b.payload ∧
      HeapInv s' bs₁ ∧ s'.mem.read64 (q - 8) = raw := by
  obtain ⟨s₁, raw, hm, hcases⟩ := kmallocAligned_cases h
  have hsum : wadd (wadd size align) 8 = size + align + 8 := by
    unfold NoWrap at hw
    rw [wadd_of_lt (a := size) (by omega), wadd_of_lt (by omega)]
  rw [hsum] at hm
  obtain ⟨_, _, hzero⟩ | ⟨hraw, hqeq, hs'⟩ := hcases
  · exact absurd hzero hq
  · obtain ⟨_, bs₁, hi₁, b, hb, hfree, hptr, hle, _⟩ := (kmalloc_spec hi hw hm).payloadHolds hw hraw
    have hstop := hi₁.list.bound b hb
    unfold Block.stop at hstop
    have hk : k < 64 := by
      by_contra hge
      have := Nat.pow_le_pow_right (show 0 < 2 by norm_num) (not_lt.mp hge)
      omega
    have hsum8 : wadd raw 8 = raw + 8 := wadd_of_lt (by omega)
    rw [hsum8, halign] at hqeq
    obtain ⟨hlow, hhigh, hdvd⟩ := @alignUp_bounds (raw + 8) k hk (by omega)
    rw [← hqeq] at hlow hhigh hdvd
    have hslot : Set.Ico (q - 8) q ⊆ b.payload := by
      intro x hx
      unfold Block.payload
      rw [Set.mem_Ico] at *
      omega
    have hback : wsub q 8 = q - 8 := wsub_of_le (by omega) (by omega)
    rw [hback] at hs'
    refine ⟨s₁, raw, bs₁, b, hm, hi₁, hb, hfree, hptr, by rwa [halign], by omega, hslot, ?_, ?_, ?_⟩
    · intro x hx
      unfold Block.payload
      rw [Set.mem_Ico] at *
      omega
    · rw [hs']
      refine hi₁.write64 hb ?_
      rwa [show q - 8 + 8 = q by omega]
    · rw [hs']
      exact read64_write64_same _ _ (by omega)

/-- A hundred bytes at a multiple of 64. -/
theorem kmalloc_aligned_contained_64 : ∃ (s : Heap) (bs : List Block) (s' : Heap) (b : Block), HeapInv s bs ∧ s.kmallocAligned 4 100 64 = .ok (s', 4194368) ∧
    b.addr + 40 = s'.mem.read64 4194360 ∧ Set.Ico 4194368 4194468 ⊆ b.payload := by
  obtain ⟨s, bs, hi, hq⟩ := @initHeap_spec
    (fun s => (s.kmallocAligned 4 100 64).toOption.any (fun r => decide (r.2 = 4194368)) = true) _ (by decide +kernel)
  obtain ⟨⟨s', q⟩, hr, hq⟩ := (Option.any_eq_true _ _).mp hq
  obtain rfl : q = 4194368 := of_decide_eq_true hq
  have h := toOption_eq_some.mp hr
  obtain ⟨_, raw, _, b, _, _, _, _, hraw, _, _, _, hrange, _, hback⟩ :=
    @kmalloc_aligned_contained bs s s' 4 100 64 6 4194368 hi (by norm_num) (by decide) h (by norm_num)
  exact ⟨s, bs, s', b, hi, h, hraw.symm.trans hback.symm, hrange⟩

/-! ### Where `kmalloc` finds its block -/

/-- The first free block that passes the test. -/
def firstPass (bs : List Block) (need : ℕ) : Option Block := bs.find? (fun b => b.free && decide (need ≤ b.size))

theorem firstPass_eq_none {need : ℕ} : firstPass bs need = none ↔ ∀ b ∈ bs, ¬ b.Passes need := by
  unfold firstPass Block.Passes
  rw [List.find?_eq_none]
  simp

/-- Behind a list without a block that passes. -/
theorem firstPass_append {need : ℕ} (hno : ∀ b ∈ bs, ¬ b.Passes need) (hb : b.Passes need) : firstPass (bs ++ [b]) need = some b := by
  have hnone := firstPass_eq_none.mpr hno
  unfold firstPass at *
  rw [List.find?_append, hnone]
  simp [hb.1, hb.2]

/-- The search finds the first block that passes. -/
theorem HeapList.findFit_eq (xs : List Block) {r : ℕ} (hl : HeapList m head (xs ++ ys))
    (h : m.findFit n fuel ((ys.map Block.addr).headD 0) = .ok r) : r = ((firstPass ys (wadd n OVERHEAD)).map Block.addr).getD 0 := by
  induction ys generalizing xs fuel with
  | nil =>
      cases fuel with
      | zero => cases h
      | succ fuel => exact (Except.ok.inj h).symm
  | cons b ys ih =>
      have hb : b ∈ xs ++ b :: ys := by simp
      cases fuel with
      | zero => cases h
      | succ fuel =>
          rw [List.map_cons, List.headD_cons, Mem.findFit, if_neg (hl.nonnull b hb), (hl.blocks b hb).flag,
            (hl.blocks b hb).size] at h
          unfold firstPass at *
          by_cases hpass : b.free = true ∧ b.size ≥ wadd n OVERHEAD
          · rw [if_pos hpass] at h
            rw [List.find?_cons_of_pos (by simpa using hpass)]
            exact (Except.ok.inj h).symm
          · rw [if_neg hpass, hl.links_at.2] at h
            have hl' : HeapList m head ((xs ++ [b]) ++ ys) := by simpa using hl
            rw [List.find?_cons_of_neg (by simpa using hpass)]
            exact ih _ hl' h

/-- From that block the request is met. -/
theorem kmalloc_firstPass (hi : HeapInv s bs) (h0 : size ≠ 0) (hb : firstPass bs (needFor size) = some b)
    (h : s.kmalloc fuel size = .ok (s', ptr)) : ptr = b.addr + 40 := by
  have hmem : b ∈ bs := List.mem_of_find?_eq_some hb
  have hstop := hi.list.bound b hmem
  unfold Block.stop at hstop
  cases fuel with
  | zero => cases h
  | succ fuel =>
      unfold Heap.kmalloc at h
      rw [if_neg h0] at h
      obtain ⟨cur, hcur, h⟩ := bind_eq_ok.mp h
      rw [hi.list.head_eq] at hcur
      have hcur := HeapList.findFit_eq [] hi.list hcur
      unfold needFor at hb
      rw [hb] at hcur
      obtain rfl : cur = b.addr := hcur
      rw [if_pos (hi.list.nonnull b hmem)] at h
      obtain ⟨_, rfl⟩ := Prod.mk.inj (Except.ok.inj h)
      exact wadd_of_lt (by unfold HEADER_SIZE; omega)

/-- The request is for 0 bytes, or no block passes the test and an expansion would pass the limit. -/
def Denied (s : Heap) (bs : List Block) (size : ℕ) : Prop :=
  size = 0 ∨ (∀ b ∈ bs, ¬ b.Passes (needFor size)) ∧ s.heapMax < wadd s.heapEnd (askedPages size * PAGE_SIZE)

/-- A request that is denied returns `NULL` and leaves the list as it was. -/
theorem kmalloc_denied (hi : HeapInv s bs) (hw : NoWrap size) (hd : Denied s bs size) (h : s.kmalloc fuel size = .ok (s', ptr)) :
    ptr = 0 ∧ HeapInv s' bs := by
  cases fuel with
  | zero => cases h
  | succ fuel =>
      by_cases h0 : size = 0
      · obtain ⟨rfl, rfl⟩ := kmalloc_zero h0 h
        exact ⟨rfl, hi⟩
      · obtain ⟨hno, hmax⟩ := hd.resolve_left h0
        rw [← askedPages_bytes hw] at hmax
        obtain ⟨xs, c, ys, rfl, hc, _⟩ | ⟨_, s₁, r, hexp, hrest⟩ := kmalloc_round hi h0 h
        · exact absurd hc (hno c (by simp))
        · obtain ⟨_, hle⟩ | ⟨rfl, _⟩ := heapExpand_limit hexp
          · exact absurd hmax (not_lt.mpr hle)
          · obtain ⟨hr, _⟩ | ⟨_, rfl, rfl⟩ := hrest
            · cases hr
            · obtain ⟨halign, _, hneed, hask⟩ := hw.sizes
              unfold NoWrap at hw
              rw [halign, hneed, hask] at hexp
              obtain ⟨_, _, _, _, ⟨_, _, _, _, hi'⟩ | ⟨hr, _⟩⟩ := heapExpand_spec hi (by omega) (by omega) hexp
              · exact ⟨rfl, hi'⟩
              · cases hr

/-- A request that no block of the list serves and that is not denied is met from whole pages. -/
theorem kmalloc_newPages (hi : HeapInv s bs) (hw : NoWrap size) (hno : ∀ b ∈ bs, ¬ b.Passes (needFor size))
    (hd : ¬ Denied s bs size) (h : s.kmalloc fuel size = .ok (s', ptr)) : ptr ≠ 0 ∧ ptr % PAGE_SIZE = 40 := by
  have h0 : size ≠ 0 := fun h0 => hd (.inl h0)
  cases fuel with
  | zero => cases h
  | succ fuel =>
      obtain ⟨xs, c, ys, rfl, hc, _⟩ | ⟨_, s₁, r, hexp, hrest⟩ := kmalloc_round hi h0 h
      · exact absurd hc (hno c (by simp))
      · have hlimit := heapExpand_limit hexp
        obtain ⟨rfl, hnext⟩ | ⟨hr, _⟩ := hrest
        · obtain ⟨c, hi₁, hc, hpage⟩ := heapExpand_passes hi hw hexp
          have hne : alignUp size 16 ≠ 0 := by
            rw [hw.sizes.1]
            omega
          have hfirst := firstPass_append hno hc
          rw [← hw.rounded.2] at hfirst
          have hptr := kmalloc_firstPass hi₁ hne hfirst hnext
          unfold PAGE_SIZE at *
          exact ⟨by omega, by omega⟩
        · obtain ⟨hr', _⟩ | ⟨_, hmax⟩ := hlimit
          · exact absurd hr' hr
          · have hbytes := askedPages_bytes hw
            unfold askedPages needFor at hbytes
            rw [hbytes] at hmax
            exact absurd (.inr ⟨hno, hmax⟩) hd

/-- **One call**: the pointer is a multiple of 16 exactly where the block lies at an odd multiple of 8. -/
theorem kmalloc_call_multiple_iff (hi : HeapInv s bs) (hw : NoWrap size) (h : s.kmalloc fuel size = .ok (s', ptr)) :
    (ptr ≠ 0 → ptr % 16 = 0) ↔ Denied s bs size ∨ ∃ c, firstPass bs (needFor size) = some c ∧ c.addr % 16 = 8 := by
  by_cases hd : Denied s bs size
  · obtain ⟨hptr, _⟩ := kmalloc_denied hi hw hd h
    exact iff_of_true (absurd hptr) (.inl hd)
  · rw [or_iff_right hd]
    have h0 : size ≠ 0 := fun h0 => hd (.inl h0)
    cases hfirst : firstPass bs (needFor size) with
    | none =>
        obtain ⟨hne, hpage⟩ := kmalloc_newPages hi hw (firstPass_eq_none.mp hfirst) hd h
        apply iff_of_false
        · intro hmul
          have := hmul hne
          unfold PAGE_SIZE at hpage
          omega
        · rintro ⟨c, hc, _⟩
          cases hc
    | some b =>
        have hptr := kmalloc_firstPass hi h0 hfirst h
        constructor
        · intro hmul
          exact ⟨b, rfl, by omega⟩
        · rintro ⟨c, hc, haddr⟩ _
          obtain rfl := Option.some.inj hc
          omega

/-! ### Runs -/

/-- Calls of `kmalloc`, with the pointer that they return, and of `kfree`. -/
inductive AllocCall where
  | malloc (size ptr : ℕ)
  | free (ptr : ℕ)

/-- One call.  Only `NULL` and pointers that are held are released. -/
inductive AllocStep (fuel : ℕ) : HeapWorld → AllocCall → HeapWorld → Prop
  | malloc {w : HeapWorld} {s' : Heap} {size ptr : ℕ} :
      NoWrap size → w.heap.kmalloc fuel size = .ok (s', ptr) →
      AllocStep fuel w (.malloc size ptr) ⟨s', if ptr = 0 then w.live else insert ptr w.live, w.foreign⟩
  | free {w : HeapWorld} {ptr : ℕ} :
      ptr = 0 ∨ ptr ∈ w.live →
      AllocStep fuel w (.free ptr) ⟨{ w.heap with mem := w.heap.mem.kfree ptr }, w.live.erase ptr, w.foreign⟩

/-- Every pointer that is returned is a multiple of 16. -/
def AllMultiples (calls : List AllocCall) : Prop := ∀ size ptr, AllocCall.malloc size ptr ∈ calls → ptr ≠ 0 → ptr % 16 = 0

/-- The call is no request, or one that is denied. -/
def Refused (w : HeapWorld) : AllocCall → Prop
  | .malloc size _ => ∃ bs, BlockList w.heap.mem w.heap.heapHead bs ∧ Denied w.heap bs size
  | .free _ => True

/-- Nothing is held, and all blocks lie at the beginning of a page. -/
def Untouched (w : HeapWorld) : Prop := ∃ bs, HeapInv w.heap bs ∧ (∀ b ∈ bs, b.addr % PAGE_SIZE = 0) ∧ w.live = ∅

theorem kheapInit_untouched {s₀ : Heap} {start : ℕ} (h0 : BeforeInit s₀) (h : s₀.kheapInit fuel start size = .ok s) :
    Untouched ⟨s, ∅, []⟩ := by
  obtain ⟨_, hi, _⟩ | ⟨p, _, _, _, hi⟩ := kheapInit_list h0 h
  · exact ⟨[], hi, by simp, rfl⟩
  · refine ⟨_, hi, fun b hb => ?_, rfl⟩
    obtain rfl := List.mem_singleton.mp hb
    exact Nat.mul_mod_left p 4096

variable {c : AllocCall} {calls : List AllocCall}

/-- A step from an untouched heap whose pointers are multiples of 16 is refused. -/
theorem AllocStep.refused (hu : Untouched w) (hs : AllocStep fuel w c w') (hmul : AllMultiples [c]) : Refused w c := by
  obtain ⟨bs, hi, hpage, _⟩ := hu
  cases hs with
  | free _ => trivial
  | @malloc s' size ptr hw h =>
      refine ⟨bs, hi.list.blockList, ?_⟩
      obtain hd | ⟨b, hb, haddr⟩ := (kmalloc_call_multiple_iff hi hw h).mp (hmul size ptr List.mem_cons_self)
      · exact hd
      · have := hpage b (List.mem_of_find?_eq_some hb)
        unfold PAGE_SIZE at this
        omega

/-- A step that is refused leaves the heap untouched and returns `NULL`. -/
theorem AllocStep.untouched (hu : Untouched w) (hs : AllocStep fuel w c w') (hr : Refused w c) :
    Untouched w' ∧ AllMultiples [c] := by
  obtain ⟨bs, hi, hpage, hlive⟩ := hu
  cases hs with
  | @malloc s' size ptr hw h =>
      obtain ⟨bs', hl, hd⟩ := hr
      rw [blockList_unique hl hi.list.blockList] at hd
      obtain ⟨rfl, hi'⟩ := kmalloc_denied hi hw hd h
      refine ⟨⟨bs, hi', hpage, hlive⟩, fun size' ptr' hmem hne => ?_⟩
      obtain ⟨_, rfl⟩ := AllocCall.malloc.inj (List.mem_singleton.mp hmem)
      exact absurd rfl hne
  | @free ptr hptr =>
      obtain rfl : ptr = 0 := by
        rw [hlive] at hptr
        simpa using hptr
      refine ⟨⟨bs, hi, hpage, ?_⟩, fun size' ptr' hmem _ => ?_⟩
      · show w.live.erase 0 = ∅
        rw [hlive]
        rfl
      · cases List.mem_singleton.mp hmem

theorem allMultiples_cons : AllMultiples (c :: calls) ↔ AllMultiples [c] ∧ AllMultiples calls := by
  unfold AllMultiples
  constructor
  · intro h
    exact ⟨fun size ptr hmem => h size ptr (by simp_all), fun size ptr hmem => h size ptr (List.mem_cons_of_mem _ hmem)⟩
  · rintro ⟨hc, hcalls⟩ size ptr hmem
    obtain rfl | hmem := List.mem_cons.mp hmem
    · exact hc size ptr List.mem_cons_self
    · exact hcalls size ptr hmem

/-- By induction over the run, from an untouched heap on. -/
theorem allMultiples_refused (hu : Untouched w) (h : Run (fun w c w' => ∃ fuel, AllocStep fuel w c w') w calls w')
    (hmul : AllMultiples calls) : Run (fun w c w' => Refused w c ∧ ∃ fuel, AllocStep fuel w c w') w calls w' := by
  induction h with
  | nil w => exact .nil w
  | cons hs _ ih =>
      obtain ⟨fuel, hs⟩ := hs
      obtain ⟨hc, hcalls⟩ := allMultiples_cons.mp hmul
      have href := hs.refused hu hc
      exact .cons ⟨href, fuel, hs⟩ (ih (hs.untouched hu href).1 hcalls)

theorem refused_allMultiples (hu : Untouched w)
    (h : Run (fun w c w' => Refused w c ∧ ∃ fuel, AllocStep fuel w c w') w calls w') : AllMultiples calls := by
  induction h with
  | nil w => exact fun size ptr hmem => nomatch hmem
  | cons hs _ ih =>
      obtain ⟨href, fuel, hs⟩ := hs
      obtain ⟨hu', hc⟩ := hs.untouched hu href
      exact allMultiples_cons.mpr ⟨hc, ih hu'⟩

/-- **Which runs return multiples of 16 only.**  After `kheap_init`, every pointer that a run of `kmalloc` and
`kfree` returns is a multiple of 16 if and only if every request of the run is refused: the first block that
is handed out never is.  In every well-formed heap, the pointer that a call returns is one exactly where the request
is refused or the first block that passes the test lies at an odd multiple of 8. -/
theorem kmalloc_multiple_of_16_iff {s₀ : Heap} {start len : ℕ} (h0 : BeforeInit s₀)
    (hinit : s₀.kheapInit fuel start len = .ok s)
    (h : Run (fun w c w' => ∃ fuel, AllocStep fuel w c w') ⟨s, ∅, []⟩ calls w) :
    (AllMultiples calls ↔ Run (fun w c w' => Refused w c ∧ ∃ fuel, AllocStep fuel w c w') ⟨s, ∅, []⟩ calls w) ∧
    ∀ bs fuel size s' ptr, HeapInv w.heap bs → NoWrap size → w.heap.kmalloc fuel size = .ok (s', ptr) →
      ((ptr ≠ 0 → ptr % 16 = 0) ↔
        Denied w.heap bs size ∨ ∃ c, firstPass bs (needFor size) = some c ∧ c.addr % 16 = 8) := by
  have hu := kheapInit_untouched h0 hinit
  exact ⟨⟨allMultiples_refused hu h, refused_allMultiples hu⟩, fun bs fuel size s' ptr => kmalloc_call_multiple_iff⟩

/-- The first request after `kheap_init`. -/
theorem firstRequest_run : ∃ s w, freshHeap.kheapInit 4 0x02000000 (64 * 1024 * 1024) = .ok s ∧
    Run (fun w c w' => ∃ fuel, AllocStep fuel w c w') ⟨s, ∅, []⟩ [.malloc 100 4194344] w := by
  have h : ((freshHeap.kheapInit 4 0x02000000 (64 * 1024 * 1024)).toOption.any
      (fun s => (s.kmalloc 4 100).toOption.any (fun r => decide (r.2 = 4194344)))) = true := by decide +kernel
  obtain ⟨s, hs, h⟩ := (Option.any_eq_true _ _).mp h
  obtain ⟨⟨s', ptr⟩, hm, hptr⟩ := (Option.any_eq_true _ _).mp h
  obtain rfl : ptr = 4194344 := of_decide_eq_true hptr
  exact ⟨s, _, toOption_eq_some.mp hs, .single ⟨4, .malloc (by decide) (toOption_eq_some.mp hm)⟩⟩

/-- Its pointer is no multiple of 16. -/
theorem not_allMultiples_first : ¬ AllMultiples [.malloc 100 4194344] := by
  intro hmul
  have := hmul 100 4194344 List.mem_cons_self (by norm_num)
  norm_num at this

theorem kmalloc_multiple_of_16_first : ∃ s w, freshHeap.kheapInit 4 0x02000000 (64 * 1024 * 1024) = .ok s ∧
    ¬ Run (fun w c w' => Refused w c ∧ ∃ fuel, AllocStep fuel w c w') ⟨s, ∅, []⟩ [.malloc 100 4194344] w := by
  obtain ⟨s, w, hs, hrun⟩ := firstRequest_run
  obtain ⟨hiff, _⟩ := kmalloc_multiple_of_16_iff freshHeap_beforeInit hs hrun
  exact ⟨s, w, hs, fun hr => not_allMultiples_first (hiff.mpr hr)⟩

/-- The first pointer that the heap returns lies 40 bytes behind a page boundary. -/
theorem kmalloc_first_misaligned : ∃ s w calls, freshHeap.kheapInit 4 0x02000000 (64 * 1024 * 1024) = .ok s ∧
    Run (fun w c w' => ∃ fuel, AllocStep fuel w c w') ⟨s, ∅, []⟩ calls w ∧ ¬ AllMultiples calls := by
  obtain ⟨s, w, hs, hrun⟩ := firstRequest_run
  exact ⟨s, w, _, hs, hrun, not_allMultiples_first⟩

/-! ### Releasing an aligned pointer -/

/-- `free_bytes` of `kheap_dump_stats` -/
def freeBytes (bs : List Block) : ℕ := ((bs.filter Block.free).map Block.size).sum

/-- `kfree(q)` turns the used block with header at `a` into free memory again, so that no less is free than in the
blocks `bs`. -/
structure FreedAgain (bs : List Block) (s : Heap) (a q : ℕ) : Prop where
  used : s.mem.hdrFree a = false
  freed : (s.mem.kfree q).hdrFree a = true
  amount : ∃ bs', BlockList (s.mem.kfree q) s.heapHead bs' ∧ freeBytes bs ≤ freeBytes bs'

/-- What `kmalloc_aligned` asks `kmalloc` for. -/
def alignedRequest (size align : ℕ) : ℕ := wadd (wadd size align) 8

/-- An aligned pointer that has been returned is released by `kfree`: the block behind it is free again. -/
def AlignedReleased (fuel : ℕ) (s : Heap) (bs : List Block) (size align : ℕ) (s' : Heap) (q : ℕ) : Prop :=
  q ≠ 0 → ∃ s₁ raw, s.kmalloc fuel (alignedRequest size align) = .ok (s₁, raw) ∧
    FreedAgain bs s' (wsub raw HEADER_SIZE) q

/-- The bytes that `kfree(q)` takes for the magic number of a header happen to hold that of a used block. -/
def Forged (s : Heap) (q : ℕ) : Prop := s.mem.hdrMagic (wsub q HEADER_SIZE) = HEAP_MAGIC_USED

instance (s : Heap) (q : ℕ) : Decidable (Forged s q) := inferInstanceAs (Decidable (_ = _))

/-- Otherwise `kfree(q)` only reports an error. -/
theorem kfree_not_forged (hf : ¬ Forged s q) : s.mem.kfree q = s.mem := by
  unfold Mem.kfree
  split
  · rfl
  · exact if_pos hf

theorem not_freedAgain {a : ℕ} (hf : ¬ Forged s q) : ¬ FreedAgain bs s a q := by
  intro h
  have hfreed := h.freed
  rw [kfree_not_forged hf, h.used] at hfreed
  cases hfreed

/-- Pointers of `kmalloc` lie in the first 4 GiB, whatever the size. -/
theorem kmalloc_ptr_lt (hi : HeapInv s bs) (hz : ¬ s.obtained.Holds 0) (hlt : size < 2 ^ 64)
    (h : s.kmalloc fuel size = .ok (s', ptr)) : ptr < 2 ^ 32 := by
  have hblock : ∀ {t : Heap} {cs : List Block} {c : Block}, HeapInv t cs → c ∈ cs → c.addr + 40 < 2 ^ 32 := by
    intro t cs c ht hc
    have hstop := ht.stop_le hc
    unfold Block.stop at hstop
    omega
  by_cases hp : ptr = 0
  · omega
  · have h0 : size ≠ 0 := by
      rintro rfl
      exact hp ((kmalloc_null_iff hi hz hlt h).mpr (.inl rfl))
    by_cases hsize : size ≤ 2 ^ 64 - 64
    · obtain ⟨_, bs₁, hi₁, b, hb, _, rfl, _⟩ := kmalloc_sound hi hz h0 hsize h hp
      exact hblock hi₁ hb
    · cases fuel with
      | zero => cases h
      | succ fuel =>
          obtain ⟨xs, c, ys, rfl, _, rfl, _⟩ | ⟨_, s₁, r, hexp, hrest⟩ := kmalloc_round hi h0 h
          · exact hblock hi (by simp)
          · obtain ⟨rfl, hnext⟩ | ⟨_, _, hnull⟩ := hrest
            · have hneed : needFor size ≤ 56 := by
                have := wrapped_sizes (not_le.mp hsize) hlt
                omega
              rw [show wadd (wadd (alignUp size 16) OVERHEAD) PAGE_SIZE = needFor size + 4096 from
                wadd_of_lt (by unfold needFor PAGE_SIZE at *; omega)] at hexp
              obtain ⟨p, _, _, _, ⟨hr, _⟩ | ⟨_, _, hi₁, _⟩⟩ := heapExpand_spec hi (by omega) (by omega) hexp
              · cases hr
              · obtain ⟨_, hnull⟩ | ⟨_, b, hb, rfl⟩ :=
                  kmalloc_retry_wrapped hi₁ ⟨rfl, by dsimp only; omega⟩ (not_le.mp hsize) hlt hnext
                · exact absurd hnull hp
                · exact hblock hi₁ hb
            · exact absurd hnull hp

/-- `kmalloc_aligned` returns `NULL` exactly when the request that it makes is refused. -/
theorem kmallocAligned_null_iff (hi : HeapInv s bs) (hz : ¬ s.obtained.Holds 0) (halign : align = 2 ^ k) (hk : k < 64)
    (h : s.kmallocAligned fuel size align = .ok (s', q)) : q = 0 ↔ Refuses s bs (alignedRequest size align) := by
  have hlt : alignedRequest size align < 2 ^ 64 := wadd_lt _ _
  obtain ⟨s₁, raw, hm, hcases⟩ := kmallocAligned_cases h
  rw [← kmalloc_null_iff hi hz hlt hm]
  obtain ⟨hraw, _, hq⟩ | ⟨hraw, hq, _⟩ := hcases
  · exact iff_of_true hq hraw
  · have hraw32 := kmalloc_ptr_lt hi hz hlt hm
    have hpow : 2 ^ k ≤ 2 ^ 63 := Nat.pow_le_pow_right (by norm_num) (by omega)
    have hsum : wadd raw 8 = raw + 8 := wadd_of_lt (by omega)
    rw [hsum, halign] at hq
    obtain ⟨hlow, _, _⟩ := @alignUp_bounds (raw + 8) k hk (by omega)
    exact iff_of_false (by omega) hraw

/-- **Aligned pointers are not released.**  In every well-formed heap, for every size and power of two: where the
request of `kmalloc_aligned` is refused there is nothing to release; a pointer that is returned is released by
`kfree` only if the bytes 40 before it happen to hold the magic number of a used block, and else `kfree` leaves the
memory as it was. -/
theorem kmalloc_aligned_kfree (hi : HeapInv s bs) (hz : ¬ s.obtained.Holds 0) (halign : align = 2 ^ k) (hk : k < 64)
    (h : s.kmallocAligned fuel size align = .ok (s', q)) :
    (Refuses s bs (alignedRequest size align) → AlignedReleased fuel s bs size align s' q) ∧
    (AlignedReleased fuel s bs size align s' q → Refuses s bs (alignedRequest size align) ∨ Forged s' q) ∧
    (¬ Forged s' q → s'.mem.kfree q = s'.mem) := by
  have hnull := kmallocAligned_null_iff hi hz halign hk h
  refine ⟨fun hr hq => absurd (hnull.mpr hr) hq, fun hrel => ?_, kfree_not_forged⟩
  by_contra hno
  push Not at hno
  obtain ⟨hr, hf⟩ := hno
  obtain ⟨_, _, _, hfreed⟩ := hrel (fun hq => hr (hnull.mp hq))
  exact not_freedAgain hf hfreed

/-- The heap after `kheap_init` with room for `limit` bytes, and `kmalloc_aligned` on it. -/
def firstAligned (limit size align : ℕ) : Except Halt (Heap × ℕ) := do
  let s ← freshHeap.kheapInit 4 0x02000000 limit
  s.kmallocAligned 4 size align

theorem firstAligned_spec {limit : ℕ} {P : Heap → ℕ → Prop} [∀ s q, Decidable (P s q)]
    (h : (firstAligned limit size align).toOption.any (fun r => decide (P r.1 r.2)) = true) : ∃ s bs s' q, HeapInv s bs ∧
      ¬ s.obtained.Holds 0 ∧ s.kmallocAligned 4 size align = .ok (s', q) ∧ P s' q := by
  obtain ⟨⟨s', q⟩, hr, hP⟩ := (Option.any_eq_true _ _).mp h
  obtain ⟨s, hs, hm⟩ := bind_eq_ok.mp (toOption_eq_some.mp hr)
  obtain ⟨bs, hi, hz⟩ := freshHeap_inv hs
  exact ⟨s, bs, s', q, hi, hz, hm, of_decide_eq_true hP⟩

/-- A heap of 64 KiB refuses 64 KiB. -/
theorem kmalloc_aligned_kfree_refused : ∃ s bs s' q, HeapInv s bs ∧ s.kmallocAligned 4 65536 64 = .ok (s', q) ∧
    Refuses s bs (alignedRequest 65536 64) ∧ AlignedReleased 4 s bs 65536 64 s' q := by
  obtain ⟨s, bs, s', q, hi, hz, h, rfl⟩ := @firstAligned_spec 65536 64 65536 (fun _ q => q = 0) _ (by decide +kernel)
  have hr := (@kmallocAligned_null_iff bs s s' 4 65536 64 6 0 hi hz (by norm_num) (by norm_num) h).mp rfl
  exact ⟨s, bs, s', 0, hi, h, hr, (@kmalloc_aligned_kfree bs s s' 4 65536 64 6 0 hi hz (by norm_num) (by norm_num) h).1 hr⟩

/-- A hundred bytes at a multiple of 64 stay allocated. -/
theorem kmalloc_aligned_not_freed : ∃ s bs s', HeapInv s bs ∧ s.kmallocAligned 4 100 64 = .ok (s', 4194368) ∧
    s'.mem.hdrFree 4194304 = false ∧ s'.mem.kfree 4194368 = s'.mem ∧ ¬ AlignedReleased 4 s bs 100 64 s' 4194368 := by
  obtain ⟨s, bs, s', q, hi, _, h, rfl, hused, hf⟩ :=
    @firstAligned_spec 100 64 (64 * 1024 * 1024)
      (fun s q => q = 4194368 ∧ s.mem.hdrFree 4194304 = false ∧ ¬ Forged s q) _ (by decide +kernel)
  refine ⟨s, bs, s', hi, h, hused, kfree_not_forged hf, fun hrel => ?_⟩
  obtain ⟨_, _, _, hfreed⟩ := hrel (by norm_num)
  exact not_freedAgain hf hfreed

end HeroOS
