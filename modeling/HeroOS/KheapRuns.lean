import HeroOS.KheapAlloc
import HeroOS.Run

/-! # The heap over whole runs

The heap's clients call `kmalloc`, `krealloc` and `kfree` in any order, on pointers they hold, and
write into the payloads they hold, while other kernel code takes pages from the physical memory
manager.  `HeapStep` is one such call in a `HeapWorld`, which records the pointers held and the pages
that went to others.

`kfree` merges list neighbours without comparing addresses.  As long as every block it merges is
adjacent to the released one (`MergesAdjacent`), every step keeps the invariant `WorldInv`
(`HeapStep.moves`), and in every state reached the blocks of the heap list are pairwise disjoint and
lie in pages that `heap_expand` obtained. -/

namespace HeroOS

open Word LinkedList Mem

/-- The heap, the pointers its clients hold, and the pages taken by other kernel code. -/
structure HeapWorld where
  heap : Heap
  live : Finset ℕ
  foreign : Ledger ℕ

/-- Calls of the heap's clients and of other users of the physical memory manager. -/
inductive HeapOp where
  | malloc (size : ℕ)
  | realloc (ptr size : ℕ)
  | free (ptr : ℕ)
  | pmmAlloc (count : ℕ)
  | store (ptr i : ℕ) (v : UInt8)

/-- The pointers held after `krealloc(ptr, size)` has returned `ptr'`. -/
def liveAfterRealloc (live : Finset ℕ) (ptr size ptr' : ℕ) : Finset ℕ :=
  if ptr' = 0 then (if size = 0 then live.erase ptr else live) else insert ptr' (live.erase ptr)

/-- One call.  Only live pointers are reallocated, freed or written through. -/
inductive HeapStep (fuel : ℕ) : HeapWorld → HeapOp → HeapWorld → Prop
  | malloc {w : HeapWorld} {s' : Heap} {size ptr : ℕ} :
      NoWrap size → w.heap.kmalloc fuel size = .ok (s', ptr) →
      HeapStep fuel w (.malloc size)
        ⟨s', if ptr = 0 then w.live else insert ptr w.live, w.foreign⟩
  | realloc {w : HeapWorld} {s' : Heap} {ptr size ptr' : ℕ} :
      NoWrap size → ptr ∈ w.live → w.heap.krealloc fuel ptr size = .ok (s', ptr') →
      HeapStep fuel w (.realloc ptr size) ⟨s', liveAfterRealloc w.live ptr size ptr', w.foreign⟩
  | free {w : HeapWorld} {ptr : ℕ} :
      ptr ∈ w.live →
      HeapStep fuel w (.free ptr)
        ⟨{ w.heap with mem := w.heap.mem.kfree ptr }, w.live.erase ptr, w.foreign⟩
  | pmmAlloc {w : HeapWorld} {pmm' : Pmm} {count phys : ℕ} :
      w.heap.pmm.pmmAllocPages count = .ok (pmm', phys) →
      HeapStep fuel w (.pmmAlloc count)
        ⟨{ w.heap with pmm := pmm' }, w.live,
          Finset.Ico (phys / PAGE_SIZE) (phys / PAGE_SIZE + count) :: w.foreign⟩
  | store {w : HeapWorld} {ptr i : ℕ} {v : UInt8} :
      ptr ∈ w.live → i < w.heap.mem.hdrSize (ptr - HEADER_SIZE) →
      HeapStep fuel w (.store ptr i v)
        ⟨{ w.heap with mem := w.heap.mem.write8 (ptr + i) v }, w.live, w.foreign⟩

/-- The same, as a function. -/
def HeapWorld.exec (fuel : ℕ) (w : HeapWorld) : HeapOp → Option HeapWorld
  | .malloc size =>
      if NoWrap size then
        (w.heap.kmalloc fuel size).toOption.map
          (fun r => ⟨r.1, if r.2 = 0 then w.live else insert r.2 w.live, w.foreign⟩)
      else none
  | .realloc ptr size =>
      if NoWrap size ∧ ptr ∈ w.live then
        (w.heap.krealloc fuel ptr size).toOption.map
          (fun r => ⟨r.1, liveAfterRealloc w.live ptr size r.2, w.foreign⟩)
      else none
  | .free ptr =>
      if ptr ∈ w.live then
        some ⟨{ w.heap with mem := w.heap.mem.kfree ptr }, w.live.erase ptr, w.foreign⟩
      else none
  | .pmmAlloc count =>
      (w.heap.pmm.pmmAllocPages count).toOption.map
        (fun r => ⟨{ w.heap with pmm := r.1 }, w.live,
          Finset.Ico (r.2 / PAGE_SIZE) (r.2 / PAGE_SIZE + count) :: w.foreign⟩)
  | .store ptr i v =>
      if ptr ∈ w.live ∧ i < w.heap.mem.hdrSize (ptr - HEADER_SIZE) then
        some ⟨{ w.heap with mem := w.heap.mem.write8 (ptr + i) v }, w.live, w.foreign⟩
      else none

/-- After a `kmalloc` with outcome `r`, the block at `h` could be released: see
`NeighboursAdjacent`. -/
def AdjacentAfter (r : Except Halt (Heap × ℕ)) (h : ℕ) : Prop :=
  match r with
  | .ok (s₁, ptr') => ptr' ≠ 0 → NeighboursAdjacent s₁.mem h
  | .error _ => True

/-- Every `kfree` the call makes finds its free list neighbours adjacent in memory. -/
def MergesAdjacent (fuel : ℕ) (w : HeapWorld) : HeapOp → Prop
  | .free ptr => NeighboursAdjacent w.heap.mem (ptr - HEADER_SIZE)
  | .realloc ptr size =>
      if size = 0 then NeighboursAdjacent w.heap.mem (ptr - HEADER_SIZE)
      else w.heap.mem.hdrSize (ptr - HEADER_SIZE) < size →
        AdjacentAfter (w.heap.kmalloc fuel size) (ptr - HEADER_SIZE)
  | _ => True

instance (r : Except Halt (Heap × ℕ)) (h : ℕ) : Decidable (AdjacentAfter r h) :=
  match r with
  | .ok (s₁, ptr') => inferInstanceAs (Decidable (ptr' ≠ 0 → NeighboursAdjacent s₁.mem h))
  | .error _ => inferInstanceAs (Decidable True)

instance (fuel : ℕ) (w : HeapWorld) : ∀ op, Decidable (MergesAdjacent fuel w op)
  | .free _ => inferInstanceAs (Decidable (NeighboursAdjacent _ _))
  | .realloc ptr size => inferInstanceAs (Decidable (if size = 0 then
      NeighboursAdjacent w.heap.mem (ptr - HEADER_SIZE)
      else w.heap.mem.hdrSize (ptr - HEADER_SIZE) < size →
        AdjacentAfter (w.heap.kmalloc fuel size) (ptr - HEADER_SIZE)))
  | .malloc _ | .pmmAlloc _ | .store _ _ _ => inferInstanceAs (Decidable True)

/-- The blocks met by following the `next` links from `cur`. -/
def BlockList (m : Mem) : ℕ → List Block → Prop
  | cur, [] => cur = 0
  | cur, b :: bs => cur ≠ 0 ∧ b = ⟨cur, m.hdrSize cur, m.hdrFree cur⟩ ∧ BlockList m (m.hdrNext cur) bs

/-- All blocks of the heap list lie in pages that `heap_expand` obtained, and they are
pairwise disjoint. -/
def HeapWorld.BlocksOwned (w : HeapWorld) : Prop :=
  ∃ bs, BlockList w.heap.mem w.heap.heapHead bs ∧
    (∀ b ∈ bs, ∀ x ∈ b.extent, w.heap.obtained.Holds (x / PAGE_SIZE)) ∧ bs.Pairwise Block.Apart

/-- No block of the heap list covers a byte of a page in `foreign`. -/
def HeapWorld.AvoidsPages (w : HeapWorld) (foreign : ℕ → Prop) : Prop :=
  ∃ bs, BlockList w.heap.mem w.heap.heapHead bs ∧
    ∀ b ∈ bs, ∀ x ∈ b.extent, ¬ foreign (x / PAGE_SIZE)

instance (m : Mem) : ∀ (cur : ℕ) (bs : List Block), Decidable (BlockList m cur bs)
  | cur, [] => inferInstanceAs (Decidable (cur = 0))
  | cur, _ :: bs =>
      have : Decidable (BlockList m (m.hdrNext cur) bs) := instDecidableBlockList m _ bs
      inferInstanceAs (Decidable (_ ∧ _ ∧ _))

/-! ### Moves of the block list -/

/-- Taking a block and releasing one: the changes of the list that need no new pages. -/
inductive Rearrange : List Block → List Block → Prop
  | take {xs ys : List Block} {c : Block} {n : ℕ} :
      c.Fits n → Rearrange (xs ++ c :: ys) (xs ++ (c.carve n ++ ys))
  | release {xs ys bs' : List Block} {h : Block} :
      Released xs h ys bs' → Rearrange (xs ++ h :: ys) bs'

/-- The invariant: the heap's own, every pointer held heads a used block, and the pages of others,
also those that were in use from the beginning, are no pages of the heap. -/
structure WorldInv (pmm₀ : Pmm) (w : HeapWorld) (bs : List Block) : Prop where
  inv : HeapInv w.heap bs
  live : ∀ p ∈ w.live, ∃ b ∈ bs, b.free = false ∧ b.addr + 40 = p
  foreign : ∀ q, w.foreign.Holds q ∨ pmm₀.bitmapTest q = true →
    w.heap.pmm.bitmapTest q = true ∧ ¬ w.heap.obtained.Holds q

variable {pmm₀ : Pmm} {w w' : HeapWorld} {bs bs' : List Block} {fuel : ℕ} {op : HeapOp}

theorem HeapList.eq_of_addr {m : Mem} {head : ℕ} {b c : Block} (hl : HeapList m head bs) (hb : b ∈ bs)
    (hc : c ∈ bs) (h : b.addr = c.addr) : b = c := by
  by_contra hne
  have := hl.apart.forall hb hc hne
  unfold Block.Apart Block.stop at this
  omega

/-- A block that begins inside another one is that block. -/
theorem HeapList.eq_of_mem_extent {m : Mem} {head : ℕ} {b c : Block} (hl : HeapList m head bs) (hb : b ∈ bs)
    (hc : c ∈ bs) (h : b.addr ∈ c.extent) : b = c := by
  by_contra hne
  have hap := hl.apart.forall hb hc hne
  simp only [Block.Apart, Block.extent, Block.stop, Set.mem_Ico] at *
  omega

/-- The pointers `held` head used blocks of `bs` that are still there, with their payload, in
`bs'`. -/
def Keeps (bs : List Block) (m : Mem) (bs' : List Block) (m' : Mem) (held : Set ℕ) : Prop :=
  ∀ b ∈ bs, b.free = false → b.addr + 40 ∈ held → b ∈ bs' ∧ ∀ x ∈ b.payload, m' x = m x

/-- Growing the heap keeps the blocks. -/
theorem Grows.mem_blocks {s s₁ : Heap} {bs₁ : List Block} {b : Block} (hg : Grows s bs s₁ bs₁) (hb : b ∈ bs) :
    b ∈ bs₁ := by
  obtain rfl | ⟨_, c, rfl⟩ := hg.blocks
  · exact hb
  · exact List.mem_append_left _ hb

/-- Their payloads are not written. -/
theorem Grows.payload {s s₁ : Heap} {bs₁ : List Block} {b : Block} {x : ℕ} (hg : Grows s bs s₁ bs₁) (hb : b ∈ bs)
    (hx : x ∈ b.payload) : s₁.mem x = s.mem x :=
  hg.frame x (hg.inv.list.payload_untagged (hg.mem_blocks hb) hx)

/-- A page that is in use and not of the heap stays so. -/
theorem Grows.foreign {s s₁ : Heap} {bs₁ : List Block} {q : ℕ} (hg : Grows s bs s₁ bs₁)
    (hu : s.pmm.bitmapTest q = true) (hno : ¬ s.obtained.Holds q) :
    s₁.pmm.bitmapTest q = true ∧ ¬ s₁.obtained.Holds q := by
  refine ⟨hg.used_mono q hu, fun ho => ?_⟩
  obtain ho | ho := hg.fresh q ho
  · exact hno ho
  · rw [hu] at ho
    cases ho

/-- **`kmalloc` in a world.**  All used blocks are kept, and a non-null result heads a used block
of at least `size` bytes that is none of them. -/
theorem WorldInv.malloc {s' : Heap} {size ptr : ℕ} (hi : WorldInv pmm₀ w bs) (hw : NoWrap size)
    (h : w.heap.kmalloc fuel size = .ok (s', ptr)) :
    ∃ bs', WorldInv pmm₀ ⟨s', if ptr = 0 then w.live else insert ptr w.live, w.foreign⟩ bs' ∧
      (s'.heapEnd = w.heap.heapEnd → Relation.ReflTransGen Rearrange bs bs') ∧
      Keeps bs w.heap.mem bs' s'.mem Set.univ ∧
      (ptr ≠ 0 → ∃ b ∈ bs', b.free = false ∧ b.addr + 40 = ptr ∧ size ≤ b.size ∧
        ∀ d ∈ bs, d.free = false → d.addr ≠ b.addr) := by
  obtain ⟨s₁, bs₁, hg, h⟩ := kmalloc_spec hi.inv hw h
  have hsame : s₁.heapEnd = w.heap.heapEnd → bs₁ = bs := fun he => hg.blocks.resolve_right (fun hne => hne.1 he)
  have hforeign : ∀ q, w.foreign.Holds q ∨ pmm₀.bitmapTest q = true →
      s₁.pmm.bitmapTest q = true ∧ ¬ s₁.obtained.Holds q := fun q hq =>
    hg.foreign (hi.foreign q hq).1 (hi.foreign q hq).2
  rcases h with ⟨rfl, rfl⟩ | ⟨xs, c, ys, n, hn, rfl, hc, rfl, rfl⟩
  · refine ⟨bs₁, ⟨hg.inv, ?_, hforeign⟩, fun he => ?_, fun b hb _ _ =>
      ⟨hg.mem_blocks hb, fun x hx => hg.payload hb hx⟩, by simp⟩
    · intro p hp
      obtain ⟨b, hb, hu⟩ := hi.live p (by simpa using hp)
      exact ⟨b, hg.mem_blocks hb, hu⟩
    · rw [hsame he]
  · have hcm : c ∈ xs ++ c :: ys := by simp
    have hused : ∀ b ∈ bs, b.free = false → b ∈ xs ++ (c.carve n ++ ys) ∧ b.addr ≠ c.addr := by
      intro b hb hu
      have hbc : b ≠ c := by
        rintro rfl
        rw [hc.1] at hu
        cases hu
      have hb₁ := hg.mem_blocks hb
      constructor
      · simp only [List.mem_append, List.mem_cons] at hb₁ ⊢
        tauto
      · exact fun e => hbc (hg.inv.list.eq_of_addr hb₁ hcm e)
    obtain ⟨d, hd, hdf, hda, hdn⟩ := carve_head hc.2
    have hdm : d ∈ xs ++ (c.carve n ++ ys) := by simp [hd]
    refine ⟨_, ⟨hg.inv.takeBlock hc, ?_, hforeign⟩, fun he => ?_, ?_, fun _ => ?_⟩
    · intro p hp
      simp only [Nat.add_eq_zero_iff, OfNat.ofNat_ne_zero, and_false, ↓reduceIte,
        Finset.mem_insert] at hp
      rcases hp with rfl | hp
      · exact ⟨d, hdm, hdf, by rw [hda]⟩
      · obtain ⟨b, hb, hu, e⟩ := hi.live p hp
        exact ⟨b, (hused b hb hu).1, hu, e⟩
    · rw [← hsame he]
      exact .single (.take hc)
    · intro b hb hu _
      refine ⟨(hused b hb hu).1, fun x hx => ?_⟩
      rw [← hg.payload hb hx]
      show s₁.mem.takeBlock c.addr n x = s₁.mem x
      exact hg.inv.list.takeBlock_payload hc (hg.mem_blocks hb) hu hx
    · refine ⟨d, hdm, hdf, by rw [hda], by omega, fun b hb hu => ?_⟩
      rw [hda]
      exact (hused b hb hu).2

/-- **`kfree` of a held pointer** in a world: all other used blocks are kept, and the block that it heads becomes part
of a free one. -/
theorem WorldInv.free {ptr : ℕ} (hi : WorldInv pmm₀ w bs) (hp : ptr ∈ w.live)
    (ha : NeighboursAdjacent w.heap.mem (ptr - HEADER_SIZE)) :
    ∃ bs', WorldInv pmm₀
        ⟨{ w.heap with mem := w.heap.mem.kfree ptr }, w.live.erase ptr, w.foreign⟩ bs' ∧
      Rearrange bs bs' ∧ Keeps bs w.heap.mem bs' (w.heap.mem.kfree ptr) {ptr}ᶜ ∧
      ∀ b ∈ bs, b.addr + 40 = ptr → ∃ f ∈ bs', f.free = true ∧ b.extent ⊆ f.extent := by
  obtain ⟨h, hm, hu, rfl⟩ := hi.live ptr hp
  obtain ⟨xs, ys, rfl⟩ := List.append_of_mem hm
  obtain ⟨bs', hr, hl, hf⟩ := hi.inv.list.kfree hu (hi.inv.list.neighboursAdjacent_iff.mp ha)
  have hkeep : ∀ b ∈ xs ++ h :: ys, b.free = false → b.addr + 40 ≠ h.addr + 40 → b ∈ bs' := by
    intro b hb hbu hne
    exact hr.used_of_mem hb hbu (fun e => hne (by rw [e]))
  have hi' : HeapInv { w.heap with mem := w.heap.mem.kfree (h.addr + 40) } bs' := by
    refine hi.inv.withMem hl (fun b hb x hx => ?_)
    obtain ⟨c, hc, hxc⟩ := hr.covered b hb x hx
    exact hi.inv.owned c hc x hxc
  refine ⟨bs', ⟨hi', ?_, hi.foreign⟩, .release hr, fun b hb hbu hne => ⟨?_, fun x hx => ?_⟩, fun b hb heq => ?_⟩
  · intro p hp
    obtain ⟨hne, hp⟩ := Finset.mem_erase.mp hp
    obtain ⟨b, hb, hbu, rfl⟩ := hi.live p hp
    exact ⟨b, hkeep b hb hbu hne, hbu, rfl⟩
  · exact hkeep b hb hbu (Set.mem_compl_singleton_iff.mp hne)
  · exact hf x (hi.inv.list.payload_untagged hb hx)
  · obtain rfl := hi.inv.list.eq_of_addr hb hm (by omega)
    exact hr.merged

/-- Writes that touch no header and no footer keep the invariant. -/
theorem WorldInv.write {m : Mem} (hi : WorldInv pmm₀ w bs)
    (hm : ∀ b ∈ bs, ∀ x ∈ b.tags, m x = w.heap.mem x) :
    WorldInv pmm₀ ⟨{ w.heap with mem := m }, w.live, w.foreign⟩ bs :=
  ⟨hi.inv.withMem (hi.inv.list.congr hm) hi.inv.owned, hi.live, hi.foreign⟩

/-- Pages taken by others are none of the heap's. -/
theorem WorldInv.pmmAlloc {pmm' : Pmm} {count phys : ℕ} (hi : WorldInv pmm₀ w bs)
    (h : w.heap.pmm.pmmAllocPages count = .ok (pmm', phys)) :
    WorldInv pmm₀ ⟨{ w.heap with pmm := pmm' }, w.live,
      Finset.Ico (phys / PAGE_SIZE) (phys / PAGE_SIZE + count) :: w.foreign⟩ bs := by
  by_cases hc : count = 0
  · subst hc
    obtain ⟨rfl, rfl⟩ := Prod.mk.inj (Except.ok.inj h)
    refine ⟨hi.inv, hi.live, fun q hq => hi.foreign q ?_⟩
    simpa using hq
  · obtain ⟨p, hp, ha⟩ := Pmm.pmmAllocPages_spec (by omega) hi.inv.hint hi.inv.count h
    rw [Pmm.page_of_phys hp]
    have hmono : ∀ q, w.heap.pmm.bitmapTest q = true → pmm'.bitmapTest q = true :=
      fun q hq => (ha.test_iff q).mpr (.inr hq)
    refine ⟨⟨hi.inv.list, hi.inv.owned, ?_, ha.hint hi.inv.hint, ?_, hmono 0 hi.inv.pageZero⟩, hi.live, ?_⟩
    · intro q hq
      exact ⟨(hi.inv.used q hq).1, hmono q (hi.inv.used q hq).2⟩
    · show pmm'.freePhysPages < 2 ^ 64
      rw [ha.count]
      exact wsub_lt _ _
    · intro q hq
      rw [Ledger.holds_cons, or_assoc] at hq
      rcases hq with hq | hq
      · have hq' := Finset.mem_Ico.mp hq
        refine ⟨(ha.test_iff q).mpr (.inl hq'), fun ho => ?_⟩
        have hf := ha.wasFree q hq'
        rw [(hi.inv.used q ho).2] at hf
        cases hf
      · exact ⟨hmono q (hi.foreign q hq).1, (hi.foreign q hq).2⟩

/-! ### Every call -/

/-- What a call does to the invariant and to the block list. -/
structure Moves (pmm₀ : Pmm) (w : HeapWorld) (bs : List Block) (op : HeapOp) (w' : HeapWorld)
    (bs' : List Block) : Prop where
  inv : WorldInv pmm₀ w' bs'
  rearranged : w'.heap.heapEnd = w.heap.heapEnd → Relation.ReflTransGen Rearrange bs bs'
  keeps : (∀ p i v, op ≠ .store p i v) → Keeps bs w.heap.mem bs' w'.heap.mem {p | p ∈ w.live ∧ p ∈ w'.live}

theorem Moves.refl (hi : WorldInv pmm₀ w bs) : Moves pmm₀ w bs op w bs :=
  ⟨hi, fun _ => .refl, fun _ _ hb _ _ => ⟨hb, fun _ _ => rfl⟩⟩

/-- `krealloc` in place, by release, or by a new block, a copy and a release. -/
theorem krealloc_cases {s s' : Heap} {ptr size ptr' : ℕ} (hp : ptr ≠ 0)
    (h : s.krealloc fuel ptr size = .ok (s', ptr')) :
    (size = 0 ∧ s' = { s with mem := s.mem.kfree ptr } ∧ ptr' = 0) ∨
    (size ≠ 0 ∧ size ≤ s.mem.hdrSize (wsub ptr HEADER_SIZE) ∧ s' = s ∧ ptr' = ptr) ∨
    (size ≠ 0 ∧ s.mem.hdrSize (wsub ptr HEADER_SIZE) < size ∧ s.kmalloc fuel size = .ok (s', ptr') ∧
      ptr' = 0) ∨
    (size ≠ 0 ∧ s.mem.hdrSize (wsub ptr HEADER_SIZE) < size ∧ ptr' ≠ 0 ∧
      ∃ s₁, s.kmalloc fuel size = .ok (s₁, ptr') ∧
        s' = { s₁ with
          mem := (s₁.mem.copy ptr' ptr (s₁.mem.hdrSize (wsub ptr HEADER_SIZE))).kfree ptr }) := by
  unfold Heap.krealloc at h
  rw [if_neg hp] at h
  by_cases hs : size = 0
  · rw [if_pos hs] at h
    obtain ⟨rfl, rfl⟩ := Prod.mk.inj (Except.ok.inj h)
    exact .inl ⟨hs, rfl, rfl⟩
  · rw [if_neg hs] at h
    simp only at h
    by_cases hfit : s.mem.hdrSize (wsub ptr HEADER_SIZE) ≥ size
    · rw [if_pos hfit] at h
      obtain ⟨rfl, rfl⟩ := Prod.mk.inj (Except.ok.inj h)
      exact .inr (.inl ⟨hs, hfit, rfl, rfl⟩)
    · rw [if_neg hfit, bind_eq_ok] at h
      obtain ⟨⟨s₁, q⟩, hm, h⟩ := h
      simp only at h
      by_cases hq : q = 0
      · rw [if_pos hq] at h
        obtain ⟨rfl, rfl⟩ := Prod.mk.inj (Except.ok.inj h)
        subst hq
        exact .inr (.inr (.inl ⟨hs, by omega, hm, rfl⟩))
      · rw [if_neg hq] at h
        obtain ⟨rfl, rfl⟩ := Prod.mk.inj (Except.ok.inj h)
        exact .inr (.inr (.inr ⟨hs, by omega, hq, s₁, hm, rfl⟩))

/-- What a `krealloc` that moves the payload of the block `b` leaves: `ptr'` heads a used block with at least
`size` bytes that begins with the old payload, and `b` has become part of a free block. -/
structure Moved (pmm₀ : Pmm) (w : HeapWorld) (bs : List Block) (b : Block) (size : ℕ) (s' : Heap) (ptr' : ℕ) (bs' : List Block) :
    Prop where
  inv : WorldInv pmm₀ ⟨s', insert ptr' (w.live.erase (b.addr + 40)), w.foreign⟩ bs'
  rearranged : s'.heapEnd = w.heap.heapEnd → Relation.ReflTransGen Rearrange bs bs'
  keeps : Keeps bs w.heap.mem bs' s'.mem {b.addr + 40}ᶜ
  freed : ∃ f ∈ bs', f.free = true ∧ b.extent ⊆ f.extent
  block : ∃ c ∈ bs', c.free = false ∧ c.addr + 40 = ptr' ∧ size ≤ c.size ∧
    ∀ i < b.size, s'.mem (ptr' + i) = w.heap.mem (b.addr + 40 + i)

/-- The case of `krealloc` that moves the payload. -/
theorem WorldInv.realloc_move {s₁ : Heap} {b : Block} {size ptr' : ℕ} (hi : WorldInv pmm₀ w bs) (hb : b ∈ bs)
    (hbu : b.free = false) (hw : NoWrap size) (hp : b.addr + 40 ∈ w.live) (hsize : b.size < size)
    (h0 : ptr' ≠ 0) (h : w.heap.kmalloc fuel size = .ok (s₁, ptr')) (ha : NeighboursAdjacent s₁.mem b.addr) :
    ∃ bs', Moved pmm₀ w bs b size
      { s₁ with mem := (s₁.mem.copy ptr' (b.addr + 40) (s₁.mem.hdrSize b.addr)).kfree (b.addr + 40) } ptr' bs' := by
  obtain ⟨bs₁, hi₁, hr₁, hk₁, hnew⟩ := hi.malloc hw h
  obtain ⟨c, hc, hcu, rfl, hcs, hfresh⟩ := hnew h0
  rw [if_neg h0] at hi₁
  obtain ⟨hb₁, hbx⟩ := hk₁ b hb hbu trivial
  have hne := hfresh b hb hbu
  -- the new payload lies apart from every old one
  have hapart : ∀ d ∈ bs, d.free = false → Block.Apart d c := fun d hd hdu =>
    hi₁.inv.list.apart.forall (hk₁ d hd hdu trivial).1 hc (fun e => hfresh d hd hdu (by rw [e]))
  rw [(hi₁.inv.list.blocks b hb₁).size]
  obtain ⟨m₂, hm₂⟩ : ∃ m₂, m₂ = s₁.mem.copy (c.addr + 40) (b.addr + 40) b.size := ⟨_, rfl⟩
  have hcopy : ∀ x, x ∉ c.payload → m₂ x = s₁.mem x := by
    intro x hx
    rw [hm₂]
    unfold Block.payload at hx
    exact copy_of_outside _ (by rw [Set.mem_Ico] at hx; omega)
  have hcopied : ∀ i < b.size, m₂ (c.addr + 40 + i) = s₁.mem (b.addr + 40 + i) := by
    intro i hi
    have hap := hapart b hb hbu
    unfold Block.Apart Block.stop at hap
    rw [hm₂]
    exact copy_of_inside _ (by omega) hi
  have hi₂ := hi₁.write (m := m₂) (fun d hd x hx => hcopy x
    (fun hxc => hi₁.inv.list.payload_untagged hc hxc d hd hx))
  have ha₂ : NeighboursAdjacent m₂ b.addr := by
    obtain ⟨xs, ys, e⟩ := List.append_of_mem hb₁
    have hl₁ := hi₁.inv.list
    have hl₂ := hi₂.inv.list
    rw [e] at hl₁ hl₂
    exact hl₂.neighboursAdjacent_iff.mpr (hl₁.neighboursAdjacent_iff.mp ha)
  obtain ⟨bs₃, hi₃, hr₃, hk₃, hfreed⟩ := hi₂.free (Finset.mem_insert_of_mem hp) ha₂
  rw [← hm₂]
  refine ⟨bs₃, ?_, fun he => (hr₁ he).tail hr₃, fun d hd hdu hdl => ?_, hfreed b hb₁ rfl, ?_⟩
  · have e : (insert (c.addr + 40) w.live).erase (b.addr + 40) =
        insert (c.addr + 40) (w.live.erase (b.addr + 40)) := Finset.erase_insert_of_ne (by omega)
    rwa [e] at hi₃
  · obtain ⟨hd₁, hx₁⟩ := hk₁ d hd hdu trivial
    obtain ⟨hd₃, hx₃⟩ := hk₃ d hd₁ hdu hdl
    refine ⟨hd₃, fun x hx => ?_⟩
    have hxc : x ∉ c.payload := by
      intro hxc
      have hap := hapart d hd hdu
      simp only [Block.Apart, Block.payload, Block.stop, Set.mem_Ico] at *
      omega
    have hx₃' : m₂.kfree (b.addr + 40) x = m₂ x := hx₃ x hx
    rw [← hx₁ x hx, ← hcopy x hxc, ← hx₃']
  · have hcb : c.addr + 40 ∈ ({b.addr + 40} : Set ℕ)ᶜ := by
      rw [Set.mem_compl_singleton_iff]
      omega
    obtain ⟨hc₃, hcx⟩ := hk₃ c hc hcu hcb
    refine ⟨c, hc₃, hcu, rfl, hcs, fun i hi => ?_⟩
    have hkept : m₂.kfree (b.addr + 40) (c.addr + 40 + i) = m₂ (c.addr + 40 + i) := hcx _ ⟨by omega, by omega⟩
    have hold : s₁.mem (b.addr + 40 + i) = w.heap.mem (b.addr + 40 + i) := hbx _ ⟨by omega, by omega⟩
    rw [← hold, ← hcopied i hi]
    dsimp only
    exact hkept

/-- The pointers a world holds lie above the header size and below the end of memory. -/
theorem WorldInv.wsub_ptr {ptr : ℕ} (hi : WorldInv pmm₀ w bs) (hp : ptr ∈ w.live) :
    ptr ≠ 0 ∧ wsub ptr HEADER_SIZE = ptr - HEADER_SIZE := by
  obtain ⟨b, hb, _, rfl⟩ := hi.live ptr hp
  have hlt := hi.inv.list.bound b hb
  unfold Block.stop at hlt
  unfold HEADER_SIZE
  exact ⟨by omega, wsub_of_le (by omega) (by omega)⟩

/-- **Every call** whose merges are adjacent keeps the invariant. -/
theorem HeapStep.moves (hs : HeapStep fuel w op w') (ha : MergesAdjacent fuel w op)
    (hi : WorldInv pmm₀ w bs) : ∃ bs', Moves pmm₀ w bs op w' bs' := by
  cases hs with
  | malloc hw h =>
      obtain ⟨bs', hi', hr, hk, _⟩ := hi.malloc hw h
      exact ⟨bs', hi', hr, fun _ b hb hu _ => hk b hb hu trivial⟩
  | free hp =>
      obtain ⟨bs', hi', hr, hk, _⟩ := hi.free hp ha
      refine ⟨bs', hi', fun _ => .single hr, fun _ b hb hu hl => hk b hb hu ?_⟩
      exact (Finset.mem_erase.mp hl.2).1
  | pmmAlloc h => exact ⟨bs, hi.pmmAlloc h, fun _ => .refl, fun _ b hb _ _ => ⟨hb, fun _ _ => rfl⟩⟩
  | @store ptr i v hp hi' =>
      obtain ⟨b, hb, _, rfl⟩ := hi.live ptr hp
      rw [show b.addr + 40 - HEADER_SIZE = b.addr from rfl, (hi.inv.list.blocks b hb).size] at hi'
      refine ⟨bs, hi.write (fun d hd x hx => write8_of_ne ?_), fun _ => .refl, fun hns => absurd rfl (hns _ _ _)⟩
      rintro rfl
      exact hi.inv.list.payload_untagged hb ⟨by omega, by omega⟩ d hd hx
  | @realloc s' ptr size ptr' hw hp h =>
      obtain ⟨hp0, hsub⟩ := hi.wsub_ptr hp
      simp only [MergesAdjacent] at ha
      rcases krealloc_cases hp0 h with ⟨hs0, rfl, rfl⟩ | ⟨hs0, _, rfl, rfl⟩ | ⟨hs0, _, hm, rfl⟩ |
        ⟨hs0, hlt, hq, s₁, hm, rfl⟩
      · rw [if_pos hs0] at ha
        obtain ⟨bs', hi', hr, hk, _⟩ := hi.free hp ha
        unfold liveAfterRealloc
        rw [if_pos rfl, if_pos hs0]
        refine ⟨bs', hi', fun _ => .single hr, fun _ b hb hu hl => hk b hb hu ?_⟩
        exact (Finset.mem_erase.mp hl.2).1
      · unfold liveAfterRealloc
        rw [if_neg hp0, Finset.insert_erase hp]
        exact ⟨bs, .refl hi⟩
      · obtain ⟨bs', hi', hr, hk, _⟩ := hi.malloc hw hm
        unfold liveAfterRealloc
        rw [if_pos rfl, if_neg hs0]
        exact ⟨bs', hi', hr, fun _ b hb hu _ => hk b hb hu trivial⟩
      · rw [if_neg hs0] at ha
        rw [hsub] at hlt ⊢
        unfold liveAfterRealloc
        rw [if_neg hq]
        have ha' := ha hlt
        rw [hm] at ha'
        obtain ⟨b, hb, hbu, rfl⟩ := hi.live ptr hp
        rw [show b.addr + 40 - HEADER_SIZE = b.addr from rfl] at *
        rw [(hi.inv.list.blocks b hb).size] at hlt
        obtain ⟨bs', hmoved⟩ := hi.realloc_move hb hbu hw hp hlt hq hm (ha' hq)
        refine ⟨bs', hmoved.inv, hmoved.rearranged, fun _ d hd hdu hdl => hmoved.keeps d hd hdu ?_⟩
        obtain e | hlive := Finset.mem_insert.mp hdl.2
        · -- the pointer that is returned heads none of the old blocks
          obtain ⟨_, _, _, _, hnew⟩ := hi.malloc hw hm
          obtain ⟨c, _, _, hc, _, hfresh⟩ := hnew hq
          exact absurd (by omega) (hfresh d hd hdu)
        · exact Set.mem_compl_singleton_iff.mpr (Finset.mem_erase.mp hlive).1

/-! ### The initial heap -/

/-- The state in which `kheap_init` is called: no heap, and a page allocator as `pmm_init` leaves
it, with page `0` reserved. -/
structure BeforeInit (s₀ : Heap) : Prop where
  noHeap : s₀.heapHead = 0
  noPages : s₀.obtained = []
  hint : s₀.pmm.lastFreeHint ≤ PMM_MAX_PAGES
  count : s₀.pmm.freePhysPages < 2 ^ 64
  pageZero : s₀.pmm.bitmapTest 0 = true

/-- The size of the initial region, in pages. -/
def initPages (size : ℕ) : ℕ := Heap.expandPages (min HEAP_MIN_SIZE size)

theorem initPages_eq (size : ℕ) : initPages size = (min HEAP_MIN_SIZE size + 4095) / 4096 := by
  refine expandPages_eq ?_
  unfold HEAP_MIN_SIZE PAGE_SIZE
  omega

theorem heapExpand_zero {s s' : Heap} {r : ℤ} (h : s.heapExpand fuel 0 = .ok (s', r))
    (h0 : s.heapHead = 0) (hr : r = 0) :
    s'.heapHead = 0 ∧ s'.pmm = s.pmm ∧ s'.obtained = ∅ :: s.obtained := by
  unfold Heap.heapExpand at h
  rw [show Heap.expandPages 0 = 0 from rfl] at h
  simp only [Pmm.pmmAllocPages, if_pos, bind_eq_ok, Except.ok.injEq, exists_eq_left'] at h
  split_ifs at h
  · obtain ⟨_, rfl⟩ := Prod.mk.inj (Except.ok.inj h)
    cases hr
  · simp only [Heap.appendBlock, h0, if_pos, bind_eq_ok, Except.ok.injEq, exists_eq_left'] at h
    obtain ⟨rfl, _⟩ := Prod.mk.inj h
    exact ⟨rfl, rfl, by simp⟩

/-- Before `kheap_init` the list is empty. -/
theorem BeforeInit.heapInv {s₀ : Heap} (h0 : BeforeInit s₀) (start e limit : ℕ) :
    HeapInv { s₀ with heapBase := start, heapEnd := e, heapMax := limit } [] := by
  refine ⟨⟨h0.noHeap, trivial, by simp, by simp, by simp, .nil⟩, by simp, fun q hq => ?_, h0.hint, h0.count, h0.pageZero⟩
  rw [show Heap.obtained _ = s₀.obtained from rfl, h0.noPages] at hq
  exact absurd hq (Ledger.not_holds_of_empty (by simp))

/-- **The initial list**: no block at all when the region is empty, else one free block on its pages. -/
theorem kheapInit_list {s₀ s : Heap} {start size : ℕ} (h0 : BeforeInit s₀) (h : s₀.kheapInit fuel start size = .ok s) :
    (initPages size = 0 ∧ HeapInv s [] ∧ s.pmm = s₀.pmm ∧ ∀ q, ¬ s.obtained.Holds q) ∨
      ∃ p, 1 ≤ initPages size ∧ Pmm.Allocates s₀.pmm (initPages size) s.pmm p ∧
        s.obtained = [Finset.Ico p (p + initPages size)] ∧ HeapInv s [⟨p * 4096, initPages size * 4096 - 56, true⟩] := by
  rw [initPages_eq]
  unfold Heap.kheapInit at h
  simp only [bind_eq_ok] at h
  obtain ⟨⟨s₁, r⟩, hexp, h⟩ := h
  dsimp only at h
  split_ifs at h with hr
  obtain rfl := Except.ok.inj h
  obtain ⟨n, hn⟩ : ∃ n, n = min HEAP_MIN_SIZE size := ⟨_, rfl⟩
  have hn64 : n + 4095 < 2 ^ 64 := by
    unfold HEAP_MIN_SIZE PAGE_SIZE at hn
    omega
  rw [← hn] at hexp ⊢
  rw [ne_eq, not_not] at hr
  by_cases hz : n = 0
  · left
    rw [hz] at hexp ⊢
    obtain ⟨hh, hpmm, hob⟩ := heapExpand_zero hexp h0.noHeap hr
    have hempty : ∀ q, ¬ s₁.obtained.Holds q := by
      intro q hq
      rw [hob, show Heap.obtained _ = s₀.obtained from rfl, h0.noPages] at hq
      exact Ledger.not_holds_of_empty (by simp) hq
    refine ⟨rfl, ⟨⟨hh, trivial, by simp, by simp, by simp, .nil⟩, by simp, fun q hq => absurd hq (hempty q), ?_, ?_, ?_⟩,
      hpmm, hempty⟩
    · rw [hpmm]
      exact h0.hint
    · rw [hpmm]
      exact h0.count
    · rw [hpmm]
      exact h0.pageZero
  · right
    obtain ⟨p, _, ha, hob, ⟨hr', _⟩ | ⟨_, _, hi, _⟩⟩ := heapExpand_spec (h0.heapInv _ _ _) (by omega) hn64 hexp
    · rw [hr] at hr'
      cases hr'
    · rw [show Heap.obtained _ = s₀.obtained from rfl, h0.noPages] at hob
      exact ⟨p, by omega, ha, hob, hi⟩

/-- **The initial heap**: one free block that covers the initial region, or no block at all when
the region is empty. -/
theorem kheapInit_spec {s₀ s : Heap} {start size : ℕ} (h0 : BeforeInit s₀)
    (h : s₀.kheapInit fuel start size = .ok s) :
    ∃ bs, WorldInv s₀.pmm ⟨s, ∅, []⟩ bs ∧ Isolated bs ∧
      Tiles s.heapHead bs (s.heapHead + initPages size * PAGE_SIZE) := by
  have hnone : ∀ q, ¬ Ledger.Holds ([] : Ledger ℕ) q := fun q => Ledger.not_holds_of_empty (by simp)
  obtain ⟨hz, hi, hpmm, hempty⟩ | ⟨p, hn, ha, hob, hi⟩ := kheapInit_list h0 h
  · refine ⟨[], ⟨hi, by simp, fun q hq => ?_⟩, .nil, by simp [Tiles, hz]⟩
    rw [hpmm]
    exact ⟨hq.resolve_left (hnone q), hempty q⟩
  · refine ⟨_, ⟨hi, by simp, fun q hq => ?_⟩, List.isChain_singleton _, ?_⟩
    · have hq := hq.resolve_left (hnone q)
      refine ⟨(ha.test_iff q).mpr (.inr hq), fun ho => ?_⟩
      rw [hob] at ho
      have hf := ha.wasFree q (Finset.mem_Ico.mp ((Ledger.holds_cons.mp ho).resolve_right (hnone q)))
      rw [hq] at hf
      cases hf
    · rw [show s.heapHead = p * 4096 from hi.list.head_eq]
      refine ⟨rfl, ?_⟩
      show p * 4096 + 56 + (initPages size * 4096 - 56) = p * 4096 + initPages size * 4096
      omega

/-! ### Disjointness and ownership -/

theorem HeapList.blockList {m : Mem} {head : ℕ} (hl : HeapList m head bs) : BlockList m head bs := by
  have key : ∀ ys xs : List Block, HeapList m head (xs ++ ys) →
      BlockList m ((ys.map Block.addr).headD 0) ys := by
    intro ys
    induction ys with
    | nil => exact fun _ _ => rfl
    | cons b ys ih =>
        intro xs h
        have hb : b ∈ xs ++ b :: ys := by simp
        have hat := h.blocks b hb
        have h' : HeapList m head ((xs ++ [b]) ++ ys) := by simpa using h
        refine ⟨h.nonnull b hb, ?_, ?_⟩
        · show b = ⟨b.addr, m.hdrSize b.addr, m.hdrFree b.addr⟩
          rw [hat.size, hat.flag]
        · show BlockList m (m.hdrNext b.addr) ys
          rw [h.links_at.2]
          exact ih _ h'
  have := key bs [] hl
  rwa [← hl.head_eq] at this

/-- In a run of calls whose merges are adjacent the invariant holds. -/
theorem worldInv_of_run {s₀ s : Heap} {start size : ℕ} {ops : List HeapOp} (h0 : BeforeInit s₀)
    (hinit : s₀.kheapInit fuel start size = .ok s)
    (h : Run (fun w op w' => ∃ fuel, MergesAdjacent fuel w op ∧ HeapStep fuel w op w') ⟨s, ∅, []⟩ ops w) :
    ∃ bs, WorldInv s₀.pmm w bs := by
  obtain ⟨bs₀, hi₀, _⟩ := kheapInit_spec h0 hinit
  refine h.invariant (I := fun w => ∃ bs, WorldInv s₀.pmm w bs) ?_ ⟨bs₀, hi₀⟩
  rintro w op w' ⟨bs, hi⟩ ⟨fuel, ha, hs⟩
  obtain ⟨bs', hm⟩ := hs.moves ha hi
  exact ⟨bs', hm.inv⟩

/-- **Ownership.**  In every run after `kheap_init` in which every block that `kfree` merges is
adjacent to the released block, the blocks of the heap list are pairwise disjoint and lie in pages
that `heap_expand` obtained; they cover no page of another client of the page allocator and no
page that was in use before. -/
theorem heap_blocks_owned {s₀ s : Heap} {start size : ℕ} {ops : List HeapOp} (h0 : BeforeInit s₀)
    (hinit : s₀.kheapInit fuel start size = .ok s)
    (h : Run (fun w op w' => ∃ fuel, MergesAdjacent fuel w op ∧ HeapStep fuel w op w') ⟨s, ∅, []⟩ ops w) :
    w.BlocksOwned ∧
      w.AvoidsPages (fun q => w.foreign.Holds q ∨ s₀.pmm.bitmapTest q = true) := by
  obtain ⟨bs, hi⟩ := worldInv_of_run h0 hinit h
  have hl := hi.inv.list.blockList
  refine ⟨⟨bs, hl, hi.inv.owned, hi.inv.list.apart⟩, bs, hl, fun b hb x hx hq => ?_⟩
  exact (hi.foreign _ hq).2 (hi.inv.owned b hb x hx)

theorem blockList_unique {m : Mem} : ∀ {bs bs' : List Block} {cur : ℕ}, BlockList m cur bs →
    BlockList m cur bs' → bs = bs'
  | [], [], _, _, _ => rfl
  | [], _ :: _, _, h, h' => absurd h h'.1
  | _ :: _, [], _, h, h' => absurd h' h.1
  | b :: bs, b' :: bs', cur, h, h' => by rw [h.2.1, h'.2.1, blockList_unique h.2.2 h'.2.2]

theorem HeapWorld.exec_step (h : w.exec fuel op = some w') : HeapStep fuel w op w' := by
  cases op with
  | malloc size =>
      simp only [exec] at h
      split_ifs at h with hw
      simp only [Option.map_eq_some_iff, toOption_eq_some] at h
      obtain ⟨⟨s', ptr⟩, hm, rfl⟩ := h
      exact .malloc hw hm
  | realloc ptr size =>
      simp only [exec] at h
      split_ifs at h with hw
      simp only [Option.map_eq_some_iff, toOption_eq_some] at h
      obtain ⟨⟨s', ptr'⟩, hm, rfl⟩ := h
      exact .realloc hw.1 hw.2 hm
  | free ptr =>
      simp only [exec] at h
      split_ifs at h with hp
      obtain rfl := Option.some.inj h
      exact .free hp
  | pmmAlloc count =>
      simp only [exec, Option.map_eq_some_iff, toOption_eq_some] at h
      obtain ⟨⟨pmm', phys⟩, hm, rfl⟩ := h
      exact .pmmAlloc hm
  | store ptr i v =>
      simp only [exec] at h
      split_ifs at h with hp
      obtain rfl := Option.some.inj h
      exact .store hp.1 hp.2

/-! ### A merge across a foreign page -/

/-- The heap before `kheap_init` on a machine with 64 MiB, of which the lowest 4 MiB are
reserved. -/
def freshHeap : Heap :=
  ⟨fun _ => 0, ⟨fun i => if 16 ≤ i ∧ i < 256 then 0#64 else BitVec.allOnes 64, 16384, 15360, 0⟩,
    0, 0, 0, 0, []⟩

theorem freshHeap_beforeInit : BeforeInit freshHeap := ⟨rfl, rfl, by decide, by decide, by decide⟩

/-- The heap that `kheap_init` makes of it is in order and does not contain page 0. -/
theorem freshHeap_inv {s : Heap} {start size : ℕ} (h : freshHeap.kheapInit fuel start size = .ok s) :
    ∃ bs, HeapInv s bs ∧ ¬ s.obtained.Holds 0 := by
  obtain ⟨bs, hw, _⟩ := kheapInit_spec freshHeap_beforeInit h
  exact ⟨bs, hw.inv, (hw.foreign 0 (.inr freshHeap_beforeInit.pageZero)).2⟩

/-- The world after `kheap_init` as the kernel calls it, and then the calls `ops`. -/
def worldAfter (exec : HeapWorld → HeapOp → Option HeapWorld) (ops : List HeapOp) : Option HeapWorld :=
  (freshHeap.kheapInit 4 0x02000000 (64 * 1024 * 1024)).toOption.bind
    (fun s => ops.foldlM exec ⟨s, ∅, []⟩)

theorem worldAfter_run (exec : HeapWorld → HeapOp → Option HeapWorld) (step : HeapWorld → HeapOp → HeapWorld → Prop)
    (ops : List HeapOp) (P : HeapWorld → Prop) [DecidablePred P]
    (hexec : ∀ w op w', exec w op = some w' → step w op w')
    (h : (worldAfter exec ops).any (fun w => decide (P w)) = true) :
    ∃ s w, freshHeap.kheapInit 4 0x02000000 (64 * 1024 * 1024) = .ok s ∧
      Run step ⟨s, ∅, []⟩ ops w ∧ P w := by
  obtain ⟨w, hw, hp⟩ := (Option.any_eq_true _ _).mp h
  obtain ⟨s, hs, hw⟩ := Option.bind_eq_some_iff.mp hw
  exact ⟨s, w, toOption_eq_some.mp hs, Run.of_exec hexec hw, of_decide_eq_true hp⟩

/-- A client takes the page behind the initial region, so that the next expansion is not
contiguous with it. -/
def interleaved : List HeapOp := [.pmmAlloc 1, .malloc 65424, .malloc 16, .free 4263976]

/-- The run so far merges adjacent blocks only; a reallocation then moves a payload. -/
theorem heap_blocks_owned_interleaved :
    ∃ s w, freshHeap.kheapInit 4 0x02000000 (64 * 1024 * 1024) = .ok s ∧
      Run (fun w op w' => ∃ fuel, MergesAdjacent fuel w op ∧ HeapStep fuel w op w') ⟨s, ∅, []⟩
        (interleaved ++ [.malloc 100, .realloc 4263976 200]) w ∧
      4264144 ∈ w.live ∧ w.foreign.Holds 1040 ∧ w.BlocksOwned ∧ w.AvoidsPages w.foreign.Holds := by
  obtain ⟨s, w, hs, hrun, hlive, hfor⟩ := worldAfter_run
    (fun w op => if MergesAdjacent 4 w op then w.exec 4 op else none)
    (fun w op w' => ∃ fuel, MergesAdjacent fuel w op ∧ HeapStep fuel w op w')
    (interleaved ++ [.malloc 100, .realloc 4263976 200])
    (fun w => 4264144 ∈ w.live ∧ w.foreign.Holds 1040)
    (fun w op w' h => by
      split_ifs at h with ha
      exact ⟨4, ha, HeapWorld.exec_step h⟩)
    (by decide +kernel)
  obtain ⟨ho, bs, hbs, hav⟩ := heap_blocks_owned freshHeap_beforeInit hs hrun
  exact ⟨s, w, hs, hrun, hlive, hfor, ho, bs, hbs, fun b hb x hx hq => hav b hb x hx (.inl hq)⟩

/-- Releasing the block of the initial region merges it with the region behind the foreign
page: the resulting block covers that page. -/
theorem heap_block_covers_foreign_page :
    BeforeInit freshHeap ∧
    ∃ s w, freshHeap.kheapInit 4 0x02000000 (64 * 1024 * 1024) = .ok s ∧
      Run (fun w op w' => ∃ fuel, HeapStep fuel w op w') ⟨s, ∅, []⟩
        (interleaved ++ [.free 4194344]) w ∧
      ¬ w.BlocksOwned ∧ ¬ w.AvoidsPages w.foreign.Holds := by
  obtain ⟨s, w, hs, hrun, hl, hobt, hfor⟩ := worldAfter_run (HeapWorld.exec 4)
    (fun w op w' => ∃ fuel, HeapStep fuel w op w')
    (interleaved ++ [.free 4194344])
    (fun w => BlockList w.heap.mem w.heap.heapHead [⟨4194304, 73672, true⟩] ∧
      ¬ w.heap.obtained.Holds 1040 ∧ w.foreign.Holds 1040)
    (fun _ _ _ h => ⟨4, HeapWorld.exec_step h⟩) (by decide +kernel)
  have hx : 1040 * 4096 ∈ Block.extent ⟨4194304, 73672, true⟩ := by
    simp [Block.extent, Block.stop]
  refine ⟨freshHeap_beforeInit, s, w, hs, hrun, ?_, ?_⟩
  · rintro ⟨bs, hbs, ho, _⟩
    rw [blockList_unique hbs hl] at ho
    exact hobt (ho _ List.mem_cons_self _ hx)
  · rintro ⟨bs, hbs, ho⟩
    rw [blockList_unique hbs hl] at ho
    exact ho _ List.mem_cons_self _ hx hfor

end HeroOS
