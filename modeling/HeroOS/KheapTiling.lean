import HeroOS.KheapRuns

/-! # The initial region

As long as the heap is not expanded, its blocks tile the region that `kheap_init` obtained: taking a
block and releasing one keep the tiling (`Rearrange.tiles`) and leave no two free neighbours
(`Rearrange.isolated`).  In a tiling list neighbours are neighbours in memory, so that every merge of
`kfree` is one of adjacent blocks (`HeapStep.mergesAdjacent`) and the results about single calls
apply to whole runs. -/

namespace HeroOS

open Word LinkedList Mem

variable {pmm₀ : Pmm} {w w' : HeapWorld} {bs bs' xs ys : List Block} {fuel a e : ℕ} {op : HeapOp}

/-! ### Tilings under the moves of the list -/

theorem Tiles.sum (h : Tiles a bs e) : a + (bs.map (fun b => b.size + 56)).sum = e := by
  induction bs generalizing a with
  | nil => simpa [Tiles] using h
  | cons b bs ih =>
      obtain ⟨rfl, h⟩ := h
      have := ih h
      unfold Block.stop at this
      rw [List.map_cons, List.sum_cons]
      omega

theorem tiles_carve (c : Block) (n : ℕ) : Tiles c.addr (c.carve n) c.stop := by
  unfold Block.carve
  split_ifs with h
  · refine ⟨rfl, ?_, ?_⟩
    · show c.addr + 56 + n = c.addr + 56 + n
      rfl
    · show c.addr + 56 + n + 56 + (c.size - n - 56) = c.addr + 56 + c.size
      omega
  · exact ⟨rfl, rfl⟩

theorem Rearrange.tiles (h : Rearrange bs bs') (ht : Tiles a bs e) : Tiles a bs' e := by
  cases h with
  | take hc =>
      obtain ⟨d, hxs, rfl, hys⟩ := tiles_append.mp ht
      exact tiles_append.mpr ⟨_, hxs, tiles_append.mpr ⟨_, tiles_carve _ _, hys⟩⟩
  | release hr => exact hr.tiles ht

/-- A carved block starts with a used one, and only what was free before ends free. -/
theorem isolated_carve {c : Block} {n : ℕ} (hc : c.Fits n) (h : Isolated (xs ++ c :: ys)) :
    Isolated (xs ++ (c.carve n ++ ys)) := by
  unfold Isolated at *
  obtain ⟨hxs, hcys, _⟩ := List.isChain_append.mp h
  obtain ⟨hc1, hys⟩ := List.isChain_cons.mp hcys
  have hhead : ∀ d ∈ ys.head?, d.free = false := fun d hd => by simpa [hc.1] using hc1 d hd
  unfold Block.carve
  split_ifs
  · refine List.isChain_append.mpr ⟨hxs, ?_, ?_⟩
    · refine List.isChain_cons.mpr ⟨by simp, List.isChain_cons.mpr ⟨fun d hd => ?_, hys⟩⟩
      simp [hhead d hd]
    · intro p _ b hb
      obtain rfl : _ = b := Option.some.inj hb
      simp
  · refine List.isChain_append.mpr ⟨hxs, List.isChain_cons.mpr ⟨by simp, hys⟩, ?_⟩
    intro p _ b hb
    obtain rfl : _ = b := Option.some.inj hb
    simp

theorem Rearrange.isolated (h : Rearrange bs bs') (hi : Isolated bs) : Isolated bs' := by
  cases h with
  | take hc => exact isolated_carve hc hi
  | release hr => exact hr.isolated hi

/-- Both together, over several moves. -/
theorem rearranged_tiling (h : Relation.ReflTransGen Rearrange bs bs') (ht : Tiles a bs e)
    (hi : Isolated bs) : Tiles a bs' e ∧ Isolated bs' := by
  induction h with
  | refl => exact ⟨ht, hi⟩
  | tail _ hr ih => exact ⟨hr.tiles ih.1, hr.isolated ih.2⟩

/-! ### Merges in a tiling -/

theorem WorldInv.neighboursAdjacent {ptr : ℕ} (hi : WorldInv pmm₀ w bs) (hp : ptr ∈ w.live)
    (ht : Tiles a bs e) : NeighboursAdjacent w.heap.mem (ptr - HEADER_SIZE) := by
  obtain ⟨b, hb, _, rfl⟩ := hi.live ptr hp
  obtain ⟨xs, ys, rfl⟩ := List.append_of_mem hb
  exact hi.inv.list.neighboursAdjacent_iff.mpr ht.adjacentIn

/-- In a tiled heap that is not expanded every merge is one of adjacent blocks. -/
theorem HeapStep.mergesAdjacent (hs : HeapStep fuel w op w') (he : w'.heap.heapEnd = w.heap.heapEnd)
    (hi : WorldInv pmm₀ w bs) (ht : Tiles a bs e) (his : Isolated bs) : MergesAdjacent fuel w op := by
  cases hs with
  | malloc _ _ => trivial
  | pmmAlloc _ => trivial
  | store _ _ => trivial
  | free hp => exact hi.neighboursAdjacent hp ht
  | @realloc s' ptr size ptr' hw hp h =>
      obtain ⟨hp0, hsub⟩ := hi.wsub_ptr hp
      simp only [MergesAdjacent]
      split_ifs with hs0
      · exact hi.neighboursAdjacent hp ht
      · intro hlt
        rcases krealloc_cases hp0 h with ⟨h0, _⟩ | ⟨_, hge, _⟩ | ⟨_, _, hm, rfl⟩ | ⟨_, _, hq, s₁, hm, rfl⟩
        · exact absurd h0 hs0
        · rw [hsub] at hge
          omega
        · rw [hm]
          exact fun h0 => absurd rfl h0
        · rw [hm]
          intro _
          obtain ⟨bs₁, hi₁, hr₁, _⟩ := hi.malloc hw hm
          rw [if_neg hq] at hi₁
          have ht₁ := (rearranged_tiling (hr₁ he) ht his).1
          exact hi₁.neighboursAdjacent (Finset.mem_insert_of_mem hp) ht₁

/-! ### Whole runs -/

/-- The heap list at `head` tiles the `len` bytes from `base`. -/
structure RegionTiled (m : Mem) (head base len : ℕ) (bs : List Block) : Prop where
  list : BlockList m head bs
  tiles : Tiles base bs (base + len)
  sizes : (bs.map (fun b => b.size + 56)).sum = len
  tags : ∀ b ∈ bs, BlockAt m b
  next_prev : ∀ b ∈ bs, m.hdrNext b.addr ≠ 0 → m.hdrPrev (m.hdrNext b.addr) = b.addr
  prev_next : ∀ b ∈ bs, m.hdrPrev b.addr ≠ 0 → m.hdrNext (m.hdrPrev b.addr) = b.addr
  isolated : Isolated bs

theorem HeapList.next_prev {m : Mem} {head : ℕ} {b : Block} (hl : HeapList m head bs) (hb : b ∈ bs)
    (hn : m.hdrNext b.addr ≠ 0) : m.hdrPrev (m.hdrNext b.addr) = b.addr := by
  obtain ⟨xs, ys, rfl⟩ := List.append_of_mem hb
  have e := hl.links_at.2
  cases ys with
  | nil => exact absurd e hn
  | cons n ys =>
      have hl' : HeapList m head ((xs ++ [b]) ++ n :: ys) := by simpa using hl
      rw [e]
      exact hl'.links_at.1.trans (by simp)

theorem HeapList.prev_next {m : Mem} {head : ℕ} {b : Block} (hl : HeapList m head bs) (hb : b ∈ bs)
    (hp : m.hdrPrev b.addr ≠ 0) : m.hdrNext (m.hdrPrev b.addr) = b.addr := by
  obtain ⟨xs, ys, rfl⟩ := List.append_of_mem hb
  have e := hl.links_at.1
  rcases List.eq_nil_or_concat xs with rfl | ⟨xs, p, rfl⟩
  · exact absurd e hp
  · rw [List.concat_eq_append] at *
    have hl' : HeapList m head (xs ++ p :: b :: ys) := by simpa using hl
    rw [e]
    simp only [List.map_append, List.map_cons, List.map_nil, List.getLastD_concat]
    exact hl'.links_at.2

/-- In a run without an expansion the blocks tile the initial region, and no two neighbours are free. -/
theorem region_of_run {s₀ s : Heap} {start size : ℕ} {ops : List HeapOp} (h0 : BeforeInit s₀)
    (hinit : s₀.kheapInit fuel start size = .ok s)
    (h : Run (fun w op w' => ∃ fuel, HeapStep fuel w op w' ∧ w'.heap.heapEnd = w.heap.heapEnd) ⟨s, ∅, []⟩ ops w) :
    ∃ bs, WorldInv s₀.pmm w bs ∧ Tiles s.heapHead bs (s.heapHead + initPages size * PAGE_SIZE) ∧ Isolated bs := by
  obtain ⟨bs₀, hi₀, his₀, ht₀⟩ := kheapInit_spec h0 hinit
  refine h.invariant (I := fun w => ∃ bs, WorldInv s₀.pmm w bs ∧
    Tiles s.heapHead bs (s.heapHead + initPages size * PAGE_SIZE) ∧ Isolated bs) ?_ ⟨bs₀, hi₀, ht₀, his₀⟩
  rintro w op w' ⟨bs, hi, ht, his⟩ ⟨fuel, hs, he⟩
  obtain ⟨bs', hm⟩ := hs.moves (hs.mergesAdjacent he hi ht his) hi
  exact ⟨bs', hm.inv, rearranged_tiling (hm.rearranged he) ht his⟩

/-- **The initial region.**  In every run after `kheap_init` that does not expand the heap, the
blocks tile the initial region, header and footer of every block agree, the links are mutually
inverse and no two neighbours are free; and no heap call changes a byte of a payload that is held
before and after it. -/
theorem heap_tiles_initial_region {s₀ s : Heap} {start size : ℕ} {ops : List HeapOp}
    (h0 : BeforeInit s₀) (hinit : s₀.kheapInit fuel start size = .ok s)
    (h : Run (fun w op w' => ∃ fuel, HeapStep fuel w op w' ∧ w'.heap.heapEnd = w.heap.heapEnd)
      ⟨s, ∅, []⟩ ops w) :
    (∃ bs, RegionTiled w.heap.mem w.heap.heapHead s.heapHead (initPages size * PAGE_SIZE) bs) ∧
    ∀ fuel op w', HeapStep fuel w op w' → w'.heap.heapEnd = w.heap.heapEnd →
      (∀ p i v, op ≠ .store p i v) → ∀ p ∈ w.live, p ∈ w'.live →
        w'.heap.mem.hdrSize (p - HEADER_SIZE) = w.heap.mem.hdrSize (p - HEADER_SIZE) ∧
        ∀ i < w.heap.mem.hdrSize (p - HEADER_SIZE), w'.heap.mem (p + i) = w.heap.mem (p + i) := by
  obtain ⟨bs, hi, ht, his⟩ := region_of_run h0 hinit h
  have hl := hi.inv.list
  refine ⟨⟨bs, hl.blockList, ht, ?_, hl.blocks, fun b => hl.next_prev, fun b => hl.prev_next, his⟩, ?_⟩
  · have := ht.sum
    omega
  · intro fuel op w' hs he hns p hp hp'
    obtain ⟨bs', hm⟩ := hs.moves (hs.mergesAdjacent he hi ht his) hi
    obtain ⟨b, hb, hu, rfl⟩ := hi.live p hp
    obtain ⟨hb', hx⟩ := hm.keeps hns b hb hu ⟨hp, hp'⟩
    rw [show b.addr + 40 - HEADER_SIZE = b.addr from rfl, (hl.blocks b hb).size,
      (hm.inv.inv.list.blocks b hb').size]
    refine ⟨rfl, fun i hi => hx _ ⟨by omega, by omega⟩⟩

/-- Splitting twice, writing, releasing the first block and taking part of it again: a release of
the remaining held block then finds the written byte in place. -/
theorem heap_tiles_initial_region_reuse :
    ∃ s w, freshHeap.kheapInit 4 0x02000000 (64 * 1024 * 1024) = .ok s ∧
      Run (fun w op w' => ∃ fuel, HeapStep fuel w op w' ∧ w'.heap.heapEnd = w.heap.heapEnd)
        ⟨s, ∅, []⟩ [.malloc 100, .malloc 200, .store 4194512 7 42, .free 4194344, .malloc 40] w ∧
      4194344 ∈ w.live ∧ w.heap.mem (4194512 + 7) = 42 ∧
      (∃ bs, RegionTiled w.heap.mem w.heap.heapHead s.heapHead 65536 bs) ∧
      w.heap.mem.kfree 4194344 (4194512 + 7) = 42 := by
  obtain ⟨s, w, hs, hrun, hlive, hlive', hsize, hbyte⟩ := worldAfter_run
    (fun w op => (w.exec 4 op).filter (fun w' => w'.heap.heapEnd = w.heap.heapEnd))
    (fun w op w' => ∃ fuel, HeapStep fuel w op w' ∧ w'.heap.heapEnd = w.heap.heapEnd)
    ([.malloc 100, .malloc 200, .store 4194512 7 42, .free 4194344, .malloc 40])
    (fun w => 4194344 ∈ w.live ∧ 4194512 ∈ w.live ∧ w.heap.mem.hdrSize 4194472 = 208 ∧
      w.heap.mem (4194512 + 7) = 42)
    (fun w op w' h => by
      rw [Option.filter_eq_some_iff] at h
      exact ⟨4, HeapWorld.exec_step h.1, of_decide_eq_true h.2⟩)
    (by decide +kernel)
  obtain ⟨ht, hk⟩ := heap_tiles_initial_region freshHeap_beforeInit hs hrun
  have hlen : initPages (64 * 1024 * 1024) * PAGE_SIZE = 65536 := by
    rw [initPages_eq]
    norm_num [HEAP_MIN_SIZE, PAGE_SIZE]
  rw [hlen] at ht
  obtain ⟨_, hfree⟩ := hk 4 (.free 4194344) _ (.free hlive) rfl (by simp) 4194512 hlive'
    (Finset.mem_erase.mpr ⟨by decide, hlive'⟩)
  rw [show 4194512 - HEADER_SIZE = 4194472 from rfl, hsize] at hfree
  have hfree := hfree 7 (by norm_num)
  rw [hbyte] at hfree
  dsimp only at hfree
  exact ⟨s, w, hs, hrun, hlive, hbyte, ht, hfree⟩

end HeroOS
