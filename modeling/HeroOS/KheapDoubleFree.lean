import HeroOS.KheapTiling

/-! # Releasing a pointer twice

`kfree` looks only at the magic number in front of the pointer.  A released header may since have been absorbed
by a neighbour, and then no longer belongs to a block of the list: what is left of it is bytes in the payload of a
free block.  `Stale` says that it is in one of these two states and still carries the magic number of a free block.
Every write of `kfree` keeps it so (`HeapList.writeBlock_stale`, `HeapList.coalesce_stale`), so that a second
`kfree` of a pointer does nothing, whatever was released in between (`kfree_twice`).

This is so for pointers released since the last allocation.  The memory in front of an older one may belong to a
client again, who decides what `kfree` finds there (`kfree_twice_forged`). -/

namespace HeroOS

open Word Mem

variable {m : Mem} {head g : ℕ} {bs xs ys : List Block} {a b h : Block} {pmm₀ : Pmm} {w : HeapWorld}

/-- The header at `g` is marked free: it heads a free block of the list, or its magic number lies in the payload of
one. -/
structure Stale (m : Mem) (bs : List Block) (g : ℕ) : Prop where
  magic : m.hdrMagic g = HEAP_MAGIC_FREE
  block : ∃ f ∈ bs, f.free = true ∧ (g = f.addr ∨ Set.Ico g (g + 8) ⊆ f.payload)

theorem HeapList.stale (hl : HeapList m head bs) (hb : b ∈ bs) (hf : b.free = true) : Stale m bs b.addr := by
  have hmagic := (hl.blocks b hb).magic
  rw [hf] at hmagic
  exact ⟨hmagic, b, hb, hf, .inl rfl⟩

/-- A header of the list is marked as its block is. -/
theorem Stale.of_block {m' : Mem} {bs' : List Block} (hl' : HeapList m' head bs') (hb : b ∈ bs') (hf : b.free = true)
    (hg : g = b.addr ∨ Set.Ico g (g + 8) ⊆ b.payload ∧ m'.hdrMagic g = HEAP_MAGIC_FREE) : Stale m' bs' g := by
  obtain rfl | ⟨hin, hmagic⟩ := hg
  · exact hl'.stale hb hf
  · exact ⟨hmagic, b, hb, hf, .inr hin⟩

/-- What lies in a payload is not written where only headers and footers are. -/
theorem HeapList.magic_in_payload {m' : Mem} (hl : HeapList m head bs) (hb : b ∈ bs) (hin : Set.Ico g (g + 8) ⊆ b.payload)
    (hm : ∀ x, (∀ c ∈ bs, x ∉ c.tags) → m' x = m x) : m'.hdrMagic g = m.hdrMagic g :=
  read64_congr fun x hx => hm x (hl.payload_untagged hb (hin hx))

/-! ### The writes of `kfree` -/

/-- Marking a used block free. -/
theorem HeapList.writeBlock_stale (hl : HeapList m head (xs ++ b :: ys)) (hu : b.free = false)
    (hs : Stale m (xs ++ b :: ys) g) : Stale (m.writeBlock b.addr b.size true) (xs ++ ⟨b.addr, b.size, true⟩ :: ys) g := by
  have hl' := hl.writeBlock true
  have hb : b ∈ xs ++ b :: ys := by simp
  have hstop := hl.bound b hb
  unfold Block.stop at hstop
  have hframe : ∀ x, (∀ c ∈ xs ++ b :: ys, x ∉ c.tags) → m.writeBlock b.addr b.size true x = m x := by
    intro x hx
    have hxb := hx b hb
    simp only [Block.tags, Block.footer, Block.stop, Set.mem_union, Set.mem_Ico] at hxb
    exact writeBlock_of_outside (by omega) (by omega) (by omega)
  obtain ⟨hmagic, f, hf, hfree, hg⟩ := hs
  have hne : f ≠ b := by
    rintro rfl
    rw [hu] at hfree
    cases hfree
  have hf' : f ∈ xs ++ ⟨b.addr, b.size, true⟩ :: ys := by
    obtain hf | hf := List.mem_append.mp hf
    · exact List.mem_append_left _ hf
    · exact List.mem_append_right _ (List.mem_cons_of_mem _ ((List.mem_cons.mp hf).resolve_left hne))
  refine .of_block hl' hf' hfree (hg.imp_right fun hin => ⟨hin, ?_⟩)
  rw [hl.magic_in_payload hf hin hframe, hmagic]

/-- Merging two free blocks: of the header of the second one, the magic number stays. -/
theorem HeapList.coalesce_stale (hl : HeapList m head (xs ++ a :: b :: ys)) (ha : a.free = true) (hb : b.free = true)
    (hadj : b.addr = a.stop) (hs : Stale m (xs ++ a :: b :: ys) g) :
    Stale (m.coalesce a.addr b.addr) (xs ++ a.join b :: ys) g := by
  obtain ⟨hl', hframe⟩ := hl.coalesce ha hb hadj
  have hjoin : a.join b ∈ xs ++ a.join b :: ys := by simp
  obtain ⟨hmagic, f, hf, hfree, hg⟩ := hs
  have hkept : Set.Ico g (g + 8) ⊆ f.payload → (m.coalesce a.addr b.addr).hdrMagic g = HEAP_MAGIC_FREE := fun hin => by
    rw [hl.magic_in_payload hf hin hframe, hmagic]
  have hstop : b.addr = a.addr + 56 + a.size := hadj
  have hcases : f = a ∨ f = b ∨ f ∈ xs ++ a.join b :: ys := by
    obtain hf | hf := List.mem_append.mp hf
    · exact .inr (.inr (List.mem_append_left _ hf))
    · obtain rfl | hf := List.mem_cons.mp hf
      · exact .inl rfl
      · exact .inr ((List.mem_cons.mp hf).imp_right fun hf => List.mem_append_right _ (List.mem_cons_of_mem _ hf))
  obtain rfl | rfl | hother := hcases
  · refine .of_block hl' hjoin rfl (hg.imp_right fun hin => ⟨fun x hx => ?_, hkept hin⟩)
    have hx' := hin hx
    simp only [Block.payload, Block.join, Set.mem_Ico] at *
    omega
  · -- the header of the absorbed block is part of the new payload
    have hmagic' : (m.coalesce a.addr f.addr).hdrMagic g = HEAP_MAGIC_FREE := by
      obtain rfl | hin := hg
      · rw [hl.coalesce_magic hadj, hmagic]
      · exact hkept hin
    refine .of_block hl' hjoin rfl (.inr ⟨fun x hx => ?_, hmagic'⟩)
    obtain rfl | hin := hg
    · simp only [Block.payload, Block.join, Set.mem_Ico] at *
      omega
    · have hx' := hin hx
      simp only [Block.payload, Block.join, Set.mem_Ico] at *
      omega
  · exact .of_block hl' hother hfree (hg.imp_right fun hin => ⟨hin, hkept hin⟩)

theorem HeapList.coalesceNext_stale (hl : HeapList m head (xs ++ h :: ys)) (hf : h.free = true)
    (hadj : ∀ n ∈ ys.head?, n.free = true → n.addr = h.stop) :
    ∃ h' ys', h'.addr = h.addr ∧ h'.free = true ∧ HeapList (m.coalesceNext h.addr) head (xs ++ h' :: ys') ∧
      ∀ g, Stale m (xs ++ h :: ys) g → Stale (m.coalesceNext h.addr) (xs ++ h' :: ys') g := by
  obtain ⟨_, e⟩ | ⟨n, ys', rfl, hfn, ha, e⟩ := hl.coalesceNext_cases hadj
  · rw [e]
    exact ⟨h, ys, rfl, hf, hl, fun _ hs => hs⟩
  · rw [e]
    exact ⟨h.join n, ys', rfl, rfl, (hl.coalesce hf hfn ha).1, fun _ => hl.coalesce_stale hf hfn ha⟩

theorem HeapList.coalescePrev_stale (hl : HeapList m head (xs ++ h :: ys)) (hf : h.free = true)
    (hadj : ∀ p ∈ xs.getLast?, p.free = true → h.addr = p.stop) :
    ∃ bs', HeapList (m.coalescePrev h.addr) head bs' ∧
      ∀ g, Stale m (xs ++ h :: ys) g → Stale (m.coalescePrev h.addr) bs' g := by
  obtain ⟨_, e⟩ | ⟨p, xs', rfl, hfp, ha, e⟩ := hl.coalescePrev_cases hadj
  · rw [e]
    exact ⟨xs ++ h :: ys, hl, fun _ hs => hs⟩
  · rw [e]
    rw [List.append_assoc] at hl ⊢
    exact ⟨xs' ++ p.join h :: ys, (hl.coalesce hfp hf ha).1, fun _ => hl.coalesce_stale hfp hf ha⟩

/-- **Releasing a block**: its header is stale afterwards, and what was stale before remains so. -/
theorem HeapList.kfree_stale (hl : HeapList m head (xs ++ h :: ys)) (hu : h.free = false) (ha : AdjacentIn xs h ys) :
    ∃ bs', HeapList (m.kfree (h.addr + 40)) head bs' ∧ Stale (m.kfree (h.addr + 40)) bs' h.addr ∧
      ∀ g, Stale m (xs ++ h :: ys) g → Stale (m.kfree (h.addr + 40)) bs' g := by
  obtain ⟨hadjn, hadjp⟩ := ha
  have hl₁ := hl.writeBlock true
  obtain ⟨h₂, ys', haddr, hfree, hl₂, hs₂⟩ := hl₁.coalesceNext_stale rfl hadjn
  obtain ⟨bs', hl₃, hs₃⟩ := hl₂.coalescePrev_stale hfree (by rw [haddr]; exact hadjp)
  rw [show h₂.addr = h.addr from haddr] at hl₃ hs₃
  rw [hl.kfree_eq hu]
  refine ⟨bs', hl₃, hs₃ _ (hs₂ _ (hl₁.stale (b := ⟨h.addr, h.size, true⟩) (by simp) rfl)), fun g hs => ?_⟩
  exact hs₃ g (hs₂ g (hl.writeBlock_stale hu hs))

/-! ### Sequences of releases -/

/-- The calls `kfree(p)` for the pointers `ps`, in this order. -/
def Mem.kfreeAll (m : Mem) (ps : List ℕ) : Mem := ps.foldl Mem.kfree m

/-- The second `kfree`. -/
theorem kfree_of_stale {p : ℕ} (hs : m.hdrMagic (wsub p HEADER_SIZE) = HEAP_MAGIC_FREE) : m.kfree p = m := by
  unfold Mem.kfree
  split
  · rfl
  · refine if_pos ?_
    rw [hs]
    decide

/-- Of the pointers that were `held` when the heap last allocated, those that are not live any more have stale headers. -/
structure Releasing (pmm₀ : Pmm) (a e : ℕ) (held : Finset ℕ) (w : HeapWorld) (bs : List Block) : Prop where
  inv : WorldInv pmm₀ w bs
  tiles : Tiles a bs e
  stale : ∀ p ∈ held, p ∈ w.live ∨ Stale w.heap.mem bs (wsub p HEADER_SIZE)

/-- One more release, of a pointer that is live or has been released. -/
theorem Releasing.kfree {a e p : ℕ} {held : Finset ℕ} (hr : Releasing pmm₀ a e held w bs) (hp : p ∈ held) :
    ∃ bs', Releasing pmm₀ a e held ⟨{ w.heap with mem := w.heap.mem.kfree p }, w.live.erase p, w.foreign⟩ bs' := by
  by_cases hlive : p ∈ w.live
  · have hadj := hr.inv.neighboursAdjacent hlive hr.tiles
    obtain ⟨_, hsub⟩ := hr.inv.wsub_ptr hlive
    obtain ⟨bs', hi', hmove, _⟩ := hr.inv.free hlive hadj
    obtain ⟨h, hm, hu, rfl⟩ := hr.inv.live p hlive
    obtain ⟨xs, ys, rfl⟩ := List.append_of_mem hm
    obtain ⟨bs'', hl, hnew, hold⟩ := hr.inv.inv.list.kfree_stale hu hr.tiles.adjacentIn
    have hl' := hi'.inv.list
    dsimp only at hl hl' hnew hold hmove hi'
    obtain rfl := blockList_unique hl.blockList hl'.blockList
    refine ⟨bs'', hi', hmove.tiles hr.tiles, fun q hq => ?_⟩
    dsimp only
    have hheader : wsub (h.addr + 40) HEADER_SIZE = h.addr := hsub.trans (Nat.add_sub_cancel h.addr 40)
    by_cases hqp : q = h.addr + 40
    · right
      rw [hqp, hheader]
      exact hnew
    · exact (hr.stale q hq).imp (fun hq => Finset.mem_erase.mpr ⟨hqp, hq⟩) (hold _)
  · have hstale := (hr.stale p hp).resolve_left hlive
    rw [kfree_of_stale hstale.magic, Finset.erase_eq_of_notMem hlive]
    exact ⟨bs, hr⟩

/-- By induction over the calls. -/
theorem Releasing.kfreeAll {a e : ℕ} {held : Finset ℕ} {ps : List ℕ} (hr : Releasing pmm₀ a e held w bs) (hps : ∀ p ∈ ps, p ∈ held) :
    ∃ live bs', Releasing pmm₀ a e held ⟨{ w.heap with mem := w.heap.mem.kfreeAll ps }, live, w.foreign⟩ bs' ∧ live ⊆ w.live := by
  induction ps generalizing w bs with
  | nil => exact ⟨w.live, bs, hr, Finset.Subset.refl _⟩
  | cons p ps ih =>
      obtain ⟨bs₁, hr₁⟩ := hr.kfree (hps p List.mem_cons_self)
      obtain ⟨live, bs', hr', hsub⟩ := ih hr₁ fun q hq => hps q (List.mem_cons_of_mem _ hq)
      exact ⟨live, bs', hr', hsub.trans (Finset.erase_subset _ _)⟩

/-! ### Since the last allocation -/

/-- The call does not reach `kmalloc`: `krealloc` only where it releases the block or finds it large enough. -/
def HeapOp.NoMalloc (w : HeapWorld) : HeapOp → Prop
  | .malloc _ => False
  | .realloc ptr size => size ≤ w.heap.mem.hdrSize (ptr - HEADER_SIZE)
  | .free _ | .pmmAlloc _ | .store _ _ _ => True

instance (w : HeapWorld) : ∀ op, Decidable (HeapOp.NoMalloc w op)
  | .malloc _ => inferInstanceAs (Decidable False)
  | .realloc ptr size => inferInstanceAs (Decidable (size ≤ w.heap.mem.hdrSize (ptr - HEADER_SIZE)))
  | .free _ | .pmmAlloc _ | .store _ _ _ => inferInstanceAs (Decidable True)

/-- Bytes of a used block are neither headers nor payload of a free one. -/
theorem Stale.store {x : ℕ} {v : UInt8} (hl : HeapList m head bs) (hs : Stale m bs g) (hb : b ∈ bs) (hu : b.free = false)
    (hx : x ∈ b.payload) : Stale (m.write8 x v) bs g := by
  obtain ⟨hmagic, f, hf, hfree, hg⟩ := hs
  have hne : f ≠ b := by
    rintro rfl
    rw [hu] at hfree
    cases hfree
  have hapart := hl.apart.forall hf hb hne
  have hout : x ∉ Set.Ico g (g + 8) := by
    intro hin
    obtain rfl | hin' := hg
    · simp only [Block.Apart, Block.payload, Block.stop, Set.mem_Ico] at *
      omega
    · have hxf := hin' hin
      simp only [Block.Apart, Block.payload, Block.stop, Set.mem_Ico] at *
      omega
  refine ⟨(read64_congr fun y hy => write8_of_ne ?_).trans hmagic, f, hf, hfree, hg⟩
  rintro rfl
  exact hout hy

/-- **One step** without an allocation. -/
theorem Releasing.step {a e fuel : ℕ} {held : Finset ℕ} {op : HeapOp} {w' : HeapWorld} (hr : Releasing pmm₀ a e held w bs)
    (hlive : w.live ⊆ held) (hn : op.NoMalloc w) (hs : HeapStep fuel w op w') :
    (∃ bs', Releasing pmm₀ a e held w' bs') ∧ w'.live ⊆ held := by
  cases hs with
  | malloc _ _ => exact absurd hn id
  | free hp => exact ⟨hr.kfree (hlive hp), (Finset.erase_subset _ _).trans hlive⟩
  | pmmAlloc h => exact ⟨⟨bs, hr.inv.pmmAlloc h, hr.tiles, hr.stale⟩, hlive⟩
  | @store ptr i v hp hi' =>
      refine ⟨⟨bs, ?_, hr.tiles, fun q hq => ?_⟩, hlive⟩
      all_goals
        obtain ⟨b, hb, hu, rfl⟩ := hr.inv.live ptr hp
        rw [show b.addr + 40 - HEADER_SIZE = b.addr from rfl, (hr.inv.inv.list.blocks b hb).size] at hi'
        have hx : b.addr + 40 + i ∈ b.payload := ⟨by omega, by omega⟩
      · refine hr.inv.write fun d hd x hxd => write8_of_ne ?_
        rintro rfl
        exact hr.inv.inv.list.payload_untagged hb hx d hd hxd
      · exact (hr.stale q hq).imp_right fun hs => hs.store hr.inv.inv.list hb hu hx
  | @realloc s' ptr size ptr' hw hp h =>
      obtain ⟨hp0, hsub⟩ := hr.inv.wsub_ptr hp
      have hle : size ≤ w.heap.mem.hdrSize (wsub ptr HEADER_SIZE) := by
        rw [hsub]
        exact hn
      rcases krealloc_cases hp0 h with ⟨hs0, rfl, rfl⟩ | ⟨_, _, rfl, rfl⟩ | ⟨_, hlt, _⟩ | ⟨_, hlt, _⟩
      · rw [show liveAfterRealloc w.live ptr size 0 = w.live.erase ptr from (if_pos rfl).trans (if_pos hs0)]
        exact ⟨hr.kfree (hlive hp), (Finset.erase_subset _ _).trans hlive⟩
      · rw [show liveAfterRealloc w.live ptr' size ptr' = w.live from (if_neg hp0).trans (Finset.insert_erase hp)]
        exact ⟨⟨bs, hr⟩, hlive⟩
      · omega
      · omega

/-- **A second `kfree` does nothing.**  In every state of the initial region, with `w₁` the state after the last
allocation: for every live pointer and all releases after it of pointers that were live in `w₁`, whether they still are
or have been released since, in any order and also repeated, the header in front of the pointer is not marked used, and
releasing the pointer again changes no byte; the list is still in order. -/
theorem kfree_twice {s₀ s : Heap} {start len fuel p : ℕ} {ops ops' : List HeapOp} {ps : List ℕ} {w₁ : HeapWorld}
    (h0 : BeforeInit s₀) (hinit : s₀.kheapInit fuel start len = .ok s)
    (hrun : Run (fun w op w' => ∃ fuel, HeapStep fuel w op w' ∧ w'.heap.heapEnd = w.heap.heapEnd) ⟨s, ∅, []⟩ ops w₁)
    (hrun' : Run (fun w op w' => op.NoMalloc w ∧ ∃ fuel, HeapStep fuel w op w') w₁ ops' w)
    (hp : p ∈ w.live) (hps : ∀ q ∈ ps, q ∈ w₁.live) :
    ((w.heap.mem.kfree p).kfreeAll ps).hdrMagic (wsub p HEADER_SIZE) ≠ HEAP_MAGIC_USED ∧
    ((w.heap.mem.kfree p).kfreeAll ps).kfree p = (w.heap.mem.kfree p).kfreeAll ps ∧
    ∃ bs, BlockList ((w.heap.mem.kfree p).kfreeAll ps) w.heap.heapHead bs ∧
      ∀ b ∈ bs, BlockAt ((w.heap.mem.kfree p).kfreeAll ps) b := by
  obtain ⟨bs₁, hi, ht, _⟩ := region_of_run h0 hinit hrun
  obtain ⟨⟨bs, hr⟩, hlive⟩ : (∃ bs, Releasing s₀.pmm s.heapHead (s.heapHead + initPages len * PAGE_SIZE) w₁.live w bs) ∧
      w.live ⊆ w₁.live := by
    refine hrun'.invariant (I := fun w => (∃ bs, Releasing s₀.pmm s.heapHead (s.heapHead + initPages len * PAGE_SIZE)
      w₁.live w bs) ∧ w.live ⊆ w₁.live) ?_ ⟨⟨bs₁, hi, ht, fun _ hq => .inl hq⟩, Finset.Subset.refl _⟩
    rintro w op w' ⟨⟨bs, hr⟩, hlive⟩ ⟨hn, _, hs⟩
    exact hr.step hlive hn hs
  obtain ⟨bs₂, hr₂⟩ := hr.kfree (hlive hp)
  obtain ⟨live, bs₃, hr₃, hsub⟩ := hr₂.kfreeAll hps
  have hreleased : p ∉ live := fun h => Finset.notMem_erase p w.live (hsub h)
  have hmagic := ((hr₃.stale p (hlive hp)).resolve_left hreleased).magic
  refine ⟨?_, kfree_of_stale hmagic, bs₃, hr₃.inv.inv.list.blockList, hr₃.inv.inv.list.blocks⟩
  rw [hmagic]
  decide

/-- Of three blocks in a row the first is released, and then the second, which it absorbs, the first again, the third and
the second again. -/
theorem kfree_twice_merged : ∃ s w₁ w, freshHeap.kheapInit 4 0x02000000 (64 * 1024 * 1024) = .ok s ∧
    Run (fun w op w' => ∃ fuel, HeapStep fuel w op w' ∧ w'.heap.heapEnd = w.heap.heapEnd) ⟨s, ∅, []⟩
      [.malloc 100, .malloc 200, .malloc 50] w₁ ∧
    Run (fun w op w' => op.NoMalloc w ∧ ∃ fuel, HeapStep fuel w op w') w₁ [.free 4194344] w ∧
    ((w.heap.mem.kfree 4194512).kfreeAll [4194344, 4194776]).kfree 4194512 =
      (w.heap.mem.kfree 4194512).kfreeAll [4194344, 4194776] := by
  obtain ⟨s, w₁, hs, hrun, hlive₁, hlive₂, hlive₃⟩ := worldAfter_run
    (fun w op => (w.exec 4 op).filter (fun w' => w'.heap.heapEnd = w.heap.heapEnd))
    (fun w op w' => ∃ fuel, HeapStep fuel w op w' ∧ w'.heap.heapEnd = w.heap.heapEnd)
    [.malloc 100, .malloc 200, .malloc 50] (fun w => 4194344 ∈ w.live ∧ 4194512 ∈ w.live ∧ 4194776 ∈ w.live)
    (fun w op w' h => by
      rw [Option.filter_eq_some_iff] at h
      exact ⟨4, HeapWorld.exec_step h.1, of_decide_eq_true h.2⟩)
    (by decide +kernel)
  have hfree : Run (fun w op w' => op.NoMalloc w ∧ ∃ fuel, HeapStep fuel w op w') w₁ [.free 4194344]
      ⟨{ w₁.heap with mem := w₁.heap.mem.kfree 4194344 }, w₁.live.erase 4194344, w₁.foreign⟩ :=
    Run.single ⟨trivial, 4, .free hlive₁⟩
  have hps : ∀ q ∈ [4194344, 4194776], q ∈ w₁.live := by simp [hlive₁, hlive₃]
  obtain ⟨_, htwice, _⟩ := kfree_twice freshHeap_beforeInit hs hrun hfree
    (Finset.mem_erase.mpr ⟨by norm_num, hlive₂⟩) hps
  exact ⟨s, w₁, _, hs, hrun, hfree, htwice⟩

/-! ### A forged header -/

/-- The heap before `kheap_init` on a machine with 64 MiB, of which the pages below `0xCAF` are taken. -/
def upperHeap : Heap :=
  ⟨fun _ => 0, ⟨fun i => if i = 50 then BitVec.ofNat 64 (2 ^ 47 - 1) else if 50 < i ∧ i < 256 then 0#64 else BitVec.allOnes 64,
    16384, 13137, 0⟩, 0, 0, 0, 0, []⟩

/-- The block at `0xCAFF60` is released, and its memory is handed out again as part of the block at `0xCAF028`.  The new
owner writes a header in front of the old pointer, marked used, whose footer starts one byte before the header of the
block at `0xCB0060`, and whose left neighbour, at `0xCAFEBA`, has its footer's back-pointer one byte behind the start of
that header. -/
def forgeHeader : List HeapOp :=
  [.malloc 3840, .malloc 16, .free 0xCAFF60, .free 0xCAF028, .malloc 4096, .malloc 16,
    .store 0xCAF028 3856 0xBE, .store 0xCAF028 3857 0xBA, .store 0xCAF028 3858 0xFE, .store 0xCAF028 3859 0xCA,
    .store 0xCAF028 3864 215, .store 0xCAF028 3865 0, .store 0xCAF028 3880 0xBA, .store 0xCAF028 3881 0xFE,
    .store 0xCAF028 3738 64, .store 0xCAF028 3746 1]

/-- Releasing the pointer at `0xCAFF60` a second time writes `0xBE`, from a magic number, and `0xCAFEBA`, a pointer, into
the released header of the block at `0xCB0060`: it is marked used, and releasing that block again marks it free. -/
theorem kfree_twice_forged : BeforeInit upperHeap ∧ ∃ s w, upperHeap.kheapInit 4 0x02000000 (64 * 1024 * 1024) = .ok s ∧
    Run (fun w op w' => ∃ fuel, HeapStep fuel w op w' ∧ w'.heap.heapEnd = w.heap.heapEnd) ⟨s, ∅, []⟩ forgeHeader w ∧
    .free 0xCAFF60 ∈ forgeHeader ∧ 0xCB0060 ∈ w.live ∧
    BlockList ((w.heap.mem.kfree 0xCB0060).kfreeAll [0xCAFF60]) w.heap.heapHead
      [⟨0xCAF000, 4096, false⟩, ⟨0xCB0038, 0xCA00, true⟩] ∧
    ((w.heap.mem.kfree 0xCB0060).kfreeAll [0xCAFF60]).hdrMagic 0xCB0038 = HEAP_MAGIC_USED ∧
    (((w.heap.mem.kfree 0xCB0060).kfreeAll [0xCAFF60]).kfree 0xCB0060).hdrMagic 0xCB0038 = HEAP_MAGIC_FREE := by
  have h : ((upperHeap.kheapInit 4 0x02000000 (64 * 1024 * 1024)).toOption.any (fun s =>
      (forgeHeader.foldlM (fun (w : HeapWorld) op => (w.exec 4 op).filter (fun w' => w'.heap.heapEnd = w.heap.heapEnd))
        (⟨s, ∅, []⟩ : HeapWorld)).any (fun w => decide (0xCB0060 ∈ w.live ∧
      BlockList ((w.heap.mem.kfree 0xCB0060).kfreeAll [0xCAFF60]) w.heap.heapHead
        [⟨0xCAF000, 4096, false⟩, ⟨0xCB0038, 0xCA00, true⟩] ∧
      ((w.heap.mem.kfree 0xCB0060).kfreeAll [0xCAFF60]).hdrMagic 0xCB0038 = HEAP_MAGIC_USED ∧
      (((w.heap.mem.kfree 0xCB0060).kfreeAll [0xCAFF60]).kfree 0xCB0060).hdrMagic 0xCB0038 = HEAP_MAGIC_FREE)))) = true := by
    decide +kernel
  obtain ⟨s, hs, h⟩ := (Option.any_eq_true _ _).mp h
  obtain ⟨w, hw, h⟩ := (Option.any_eq_true _ _).mp h
  have hexec : ∀ w op w', (HeapWorld.exec 4 w op).filter (fun w' => w'.heap.heapEnd = w.heap.heapEnd) = some w' →
      ∃ fuel, HeapStep fuel w op w' ∧ w'.heap.heapEnd = w.heap.heapEnd := by
    intro w op w' h
    rw [Option.filter_eq_some_iff] at h
    exact ⟨4, HeapWorld.exec_step h.1, of_decide_eq_true h.2⟩
  refine ⟨⟨rfl, rfl, by decide, by decide, by decide⟩, s, w, toOption_eq_some.mp hs, Run.of_exec hexec hw, ?_,
    of_decide_eq_true h⟩
  simp [forgeHeader]

end HeroOS
