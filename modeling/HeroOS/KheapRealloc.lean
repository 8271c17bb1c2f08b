import HeroOS.KheapTiling

/-! # `krealloc`

`krealloc` returns the pointer that it is given where its block is large enough; else it takes a new block, copies
the old payload and releases the old block.  `krealloc_preserves` puts together what the three calls do: the
contents survive, the old block is released exactly where the pointer changes, and no other payload does. -/

namespace HeroOS

open Word Mem

variable {bs bs' : List Block} {b : Block} {s' : Heap} {w : HeapWorld} {pmm₀ : Pmm} {fuel size p q : ℕ}

/-- The pointer `p` heads the used block `b` of the list. -/
def Heads (bs : List Block) (p : ℕ) (b : Block) : Prop := b ∈ bs ∧ b.free = false ∧ b.addr + 40 = p

/-- What `krealloc(p, size)` on a pointer to the block `b` promises of its result `q` and of the heap it leaves. -/
structure Reallocated (m : Mem) (live : Finset ℕ) (bs : List Block) (p : ℕ) (b : Block) (size : ℕ) (m' : Mem) (q : ℕ)
    (bs' : List Block) : Prop where
  result : q ≠ 0 → ∃ c, Heads bs' q c ∧ size ≤ c.size ∧ ∀ i < b.size, m' (q + i) = m (p + i)
  released : q ≠ 0 → ((∃ f ∈ bs', f.free = true ∧ b.extent ⊆ f.extent) ↔ q ≠ p)
  refused : q = 0 → Heads bs' p b ∧ ∀ i < b.size, m' (p + i) = m (p + i)
  others : ∀ r ∈ live, r ≠ p → ∃ d, Heads bs r d ∧ Heads bs' r d ∧ ∀ i < d.size, m' (r + i) = m (r + i)

/-- A used block is no part of a free one. -/
theorem HeapList.not_released {m : Mem} {head : ℕ} (hl : HeapList m head bs) (hb : b ∈ bs) (hu : b.free = false) :
    ¬ ∃ f ∈ bs, f.free = true ∧ b.extent ⊆ f.extent := by
  rintro ⟨f, hf, hfree, hsub⟩
  have hbegin : b.addr ∈ b.extent := ⟨le_rfl, by unfold Block.stop; omega⟩
  obtain rfl := hl.eq_of_mem_extent hb hf (hsub hbegin)
  rw [hu] at hfree
  cases hfree

/-- The other pointers that are held keep their blocks and payloads. -/
theorem Keeps.others {m m' : Mem} {held : Set ℕ} {live : Finset ℕ} (hk : Keeps bs m bs' m' held)
    (hlive : ∀ r ∈ live, ∃ d ∈ bs, d.free = false ∧ d.addr + 40 = r) (hheld : ∀ r ∈ live, r ≠ p → r ∈ held) :
    ∀ r ∈ live, r ≠ p → ∃ d, Heads bs r d ∧ Heads bs' r d ∧ ∀ i < d.size, m' (r + i) = m (r + i) := by
  intro r hr hne
  obtain ⟨d, hd, hdu, rfl⟩ := hlive r hr
  obtain ⟨hd', hx⟩ := hk d hd hdu (hheld _ hr hne)
  exact ⟨d, ⟨hd, hdu, rfl⟩, ⟨hd', hdu, rfl⟩, fun i hi => hx _ ⟨by omega, by omega⟩⟩

/-- The pointer is returned as it is. -/
theorem WorldInv.reallocated_inPlace (hi : WorldInv pmm₀ w bs) (hb : Heads bs p b) (hp : p ≠ 0) (hfit : size ≤ b.size) :
    Reallocated w.heap.mem w.live bs p b size w.heap.mem p bs := by
  obtain ⟨hbm, hbu, hbp⟩ := hb
  refine ⟨fun _ => ⟨b, ⟨hbm, hbu, hbp⟩, hfit, fun _ _ => rfl⟩, fun _ => ?_, fun h0 => absurd h0 hp, fun r hr _ => ?_⟩
  · apply iff_of_false
    · exact hi.inv.list.not_released hbm hbu
    · exact fun hne => hne rfl
  · obtain ⟨d, hd, hdu, hdr⟩ := hi.live r hr
    exact ⟨d, ⟨hd, hdu, hdr⟩, ⟨hd, hdu, hdr⟩, fun _ _ => rfl⟩

/-- The request for a new block is refused. -/
theorem WorldInv.reallocated_null (hi : WorldInv pmm₀ w bs) (hb : Heads bs p b)
    (hk : Keeps bs w.heap.mem bs' s'.mem Set.univ) : Reallocated w.heap.mem w.live bs p b size s'.mem 0 bs' := by
  obtain ⟨hbm, hbu, rfl⟩ := hb
  refine ⟨fun h0 => absurd rfl h0, fun h0 => absurd rfl h0, fun _ => ?_, hk.others hi.live fun _ _ _ => trivial⟩
  obtain ⟨hb', hx⟩ := hk b hbm hbu trivial
  exact ⟨⟨hb', hbu, rfl⟩, fun i hi => hx _ ⟨by omega, by omega⟩⟩

/-- The payload is moved. -/
theorem Moved.reallocated (hi : WorldInv pmm₀ w bs) (hm : Moved pmm₀ w bs b size s' q bs') (hq : q ≠ 0) :
    Reallocated w.heap.mem w.live bs (b.addr + 40) b size s'.mem q bs' := by
  obtain ⟨c, hc, hcu, hcq, hsize, hcopy⟩ := hm.block
  refine ⟨fun _ => ⟨c, ⟨hc, hcu, hcq⟩, hsize, hcopy⟩, fun _ => ?_, fun h0 => absurd h0 hq,
    hm.keeps.others hi.live fun r _ hne => Set.mem_compl_singleton_iff.mpr hne⟩
  refine iff_of_true hm.freed (fun hqp => ?_)
  -- the new block would begin inside the free one
  obtain ⟨f, hf, hfree, hsub⟩ := hm.freed
  have hbegin : c.addr ∈ b.extent := ⟨by omega, by unfold Block.stop; omega⟩
  obtain rfl := hm.inv.inv.list.eq_of_mem_extent hc hf (hsub hbegin)
  rw [hcu] at hfree
  cases hfree

/-- **`krealloc` keeps what it is given.**  In every state of the initial region, for every live pointer and every
size other than 0 that does not wrap, if the call does not expand the heap: a result other than `NULL` heads a used
block of at least that size that begins with the old payload, and the old block is released exactly where the result
is another pointer; with `NULL` the old block is as it was; and all other live blocks are. -/
theorem krealloc_preserves {s₀ s : Heap} {start len fuel₀ : ℕ} {ops : List HeapOp} (h0 : BeforeInit s₀)
    (hinit : s₀.kheapInit fuel₀ start len = .ok s)
    (h : Run (fun w op w' => ∃ fuel, HeapStep fuel w op w' ∧ w'.heap.heapEnd = w.heap.heapEnd) ⟨s, ∅, []⟩ ops w)
    (hp : p ∈ w.live) (hsize : size ≠ 0) (hw : NoWrap size) (hr : w.heap.krealloc fuel p size = .ok (s', q))
    (he : s'.heapEnd = w.heap.heapEnd) :
    ∃ bs b bs', BlockList w.heap.mem w.heap.heapHead bs ∧ Heads bs p b ∧ BlockList s'.mem s'.heapHead bs' ∧
      Reallocated w.heap.mem w.live bs p b size s'.mem q bs' := by
  obtain ⟨bs, hi, ht, his⟩ := region_of_run h0 hinit h
  obtain ⟨hp0, hsub⟩ := hi.wsub_ptr hp
  obtain ⟨b, hb, hbu, hbp⟩ := hi.live p hp
  have hheader : p - HEADER_SIZE = b.addr := by
    unfold HEADER_SIZE
    omega
  have hbsize : w.heap.mem.hdrSize (wsub p HEADER_SIZE) = b.size := by
    rw [hsub, hheader]
    exact (hi.inv.list.blocks b hb).size
  obtain ⟨hzero, _⟩ | ⟨_, hfit, rfl, rfl⟩ | ⟨_, _, hm, rfl⟩ | ⟨_, hlt, hq, s₁, hm, rfl⟩ := krealloc_cases hp0 hr
  · exact absurd hzero hsize
  · rw [hbsize] at hfit
    exact ⟨bs, b, bs, hi.inv.list.blockList, ⟨hb, hbu, hbp⟩, hi.inv.list.blockList,
      hi.reallocated_inPlace ⟨hb, hbu, hbp⟩ hp0 hfit⟩
  · obtain ⟨bs', hi', _, hk, _⟩ := hi.malloc hw hm
    exact ⟨bs, b, bs', hi.inv.list.blockList, ⟨hb, hbu, hbp⟩, hi'.inv.list.blockList, hi.reallocated_null ⟨hb, hbu, hbp⟩ hk⟩
  · rw [hbsize] at hlt
    -- the blocks still tile the region when the old one is released
    obtain ⟨bs₁, hi₁, hr₁, _⟩ := hi.malloc hw hm
    rw [if_neg hq] at hi₁
    have ht₁ := (rearranged_tiling (hr₁ he) ht his).1
    have hadj := hi₁.neighboursAdjacent (Finset.mem_insert_of_mem hp) ht₁
    rw [hheader] at hadj
    rw [hsub, hheader]
    rw [← hbp] at hp ⊢
    obtain ⟨bs', hmoved⟩ := hi.realloc_move hb hbu hw hp hlt hq hm hadj
    exact ⟨bs, b, bs', hi.inv.list.blockList, ⟨hb, hbu, rfl⟩, hmoved.inv.inv.list.blockList, hmoved.reallocated hi hq⟩

/-- A payload that begins with 7 is moved behind the block that follows it. -/
theorem krealloc_preserves_moved : ∃ s w s', freshHeap.kheapInit 4 0x02000000 (64 * 1024 * 1024) = .ok s ∧
    Run (fun w op w' => ∃ fuel, HeapStep fuel w op w' ∧ w'.heap.heapEnd = w.heap.heapEnd) ⟨s, ∅, []⟩
      [.malloc 100, .malloc 50, .store 4194344 0 7] w ∧
    w.heap.krealloc 4 4194344 300 = .ok (s', 4194632) ∧ s'.mem 4194632 = 7 := by
  obtain ⟨s, w, hs, hrun, hlive, hbyte, hlist, hr⟩ := worldAfter_run
    (fun w op => (w.exec 4 op).filter (fun w' => w'.heap.heapEnd = w.heap.heapEnd))
    (fun w op w' => ∃ fuel, HeapStep fuel w op w' ∧ w'.heap.heapEnd = w.heap.heapEnd)
    [.malloc 100, .malloc 50, .store 4194344 0 7]
    (fun w => 4194344 ∈ w.live ∧ w.heap.mem 4194344 = 7 ∧
      BlockList w.heap.mem w.heap.heapHead [⟨4194304, 112, false⟩, ⟨4194472, 64, false⟩, ⟨4194592, 65192, true⟩] ∧
      (w.heap.krealloc 4 4194344 300).toOption.any (fun r => decide (r.2 = 4194632 ∧ r.1.heapEnd = w.heap.heapEnd)) = true)
    (fun w op w' h => by
      rw [Option.filter_eq_some_iff] at h
      exact ⟨4, HeapWorld.exec_step h.1, of_decide_eq_true h.2⟩)
    (by decide +kernel)
  obtain ⟨⟨s', q⟩, hk, hq⟩ := (Option.any_eq_true _ _).mp hr
  obtain ⟨rfl, he⟩ : q = 4194632 ∧ s'.heapEnd = w.heap.heapEnd := of_decide_eq_true hq
  have hk := toOption_eq_some.mp hk
  obtain ⟨bs, b, bs', hbs, ⟨hb, _, hbp⟩, _, hre⟩ :=
    krealloc_preserves freshHeap_beforeInit hs hrun hlive (by norm_num) (by decide) hk he
  rw [blockList_unique hbs hlist] at hb
  have hsize : b.size = 112 := by
    obtain rfl | rfl | rfl : _ ∨ _ ∨ _ := by simpa using hb
    · rfl
    · cases hbp
    · cases hbp
  obtain ⟨_, _, _, hcopy⟩ := hre.result (by norm_num)
  have hfirst := hcopy 0 (by omega)
  exact ⟨s, w, s', hs, hrun, hk, hfirst.trans hbyte⟩

end HeroOS
