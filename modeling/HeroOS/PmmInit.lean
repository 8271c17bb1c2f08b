import HeroOS.Multiboot
import HeroOS.Pmm

/-! # The memory map

`pmm_init`: all pages are marked used, the ranges that the memory map offers are marked free, entry
after entry, and at last the low 1 MiB and the kernel are marked used again.

Base and length of an entry are rounded down to pages independently, and an entry of another type
takes nothing back.

* `tagLoop_walk`: the loop over the tags applies the entries that it reads, in order;
* `walk_tagsAt`, `arraysOf_packed`: over a well-formed block it ends; it reads the arrays of all memory maps,
  that is, their entries where these lie next to each other;
* `pmmInit_spec`: the pages left free are the rounded pages of the available entries outside the
  reservations;
* `pmm_init_offered_iff`: they lie inside available memory and meet no entry of another type exactly
  when the map is `Sound`. -/

namespace HeroOS

open Word

/-- `KERNEL_PHYS_BASE` -/
def KERNEL_PHYS_BASE : ℕ := 0x1000000

namespace Pmm

/-- The loop over the pages of an available entry: at most `n` more, from `p` on. -/
def offerLoop (s : Pmm) : ℕ → ℕ → Pmm
  | 0, _ => s
  | n + 1, p =>
      if p < PMM_MAX_PAGES then
        offerLoop { s.bitmapClear p with
          freePhysPages := wadd s.freePhysPages 1
          totalPhysPages := wadd s.totalPhysPages 1 } n (p + 1)
      else s

/-- The body of the loop over the entries. -/
def applyEntry (s : Pmm) (e : MmapEntry) : Pmm :=
  let startPage := e.baseAddr / PAGE_SIZE
  let pageCount := e.length / PAGE_SIZE
  if e.type = MB2_MMAP_TYPE_AVAILABLE then s.offerLoop pageCount startPage
  else { s with totalPhysPages := wadd s.totalPhysPages pageCount }

/-- The loop over the entries of the tag at `mmap`: `n` more, from index `i` on. -/
def entryLoop (s : Pmm) (m : Mem) (mmap : ℕ) : ℕ → ℕ → Pmm
  | 0, _ => s
  | n + 1, i => entryLoop (s.applyEntry (m.mmapEntry (mmap + 16 + MMAP_ENTRY_SIZE * i))) m mmap n (i + 1)

/-- A memory-map tag; the number of entries is computed in `uint32_t`. -/
def applyMmap (s : Pmm) (m : Mem) (mmap : ℕ) : Except Halt Pmm :=
  let entrySize := m.read32 (mmap + 8)
  if entrySize = 0 then .error (.panic "Divide by Zero")
  else .ok (s.entryLoop m mmap ((m.read32 (mmap + 4) + 2 ^ 32 - 16) % 2 ^ 32 / entrySize) 0)

/-- The body of the loop over the tags. -/
def applyTag (s : Pmm) (m : Mem) (tag : ℕ) : Except Halt Pmm :=
  if m.read32 tag = MB2_TAG_TYPE_MMAP then s.applyMmap m tag else .ok s

/-- The loop over the tags. -/
def tagLoop (m : Mem) (endPtr : ℕ) : ℕ → Pmm → ℕ → Except Halt Pmm
  | 0, _, _ => .error .outOfFuel
  | fuel + 1, s, tagPtr =>
      if tagPtr < endPtr then
        if m.read32 tagPtr = 0 then .ok s
        else do
          let s ← s.applyTag m tagPtr
          tagLoop m endPtr fuel s (wadd tagPtr (alignUp32 (m.read32 (tagPtr + 4)) 8))
      else .ok s

/-- The loop that reserves the low pages: at most `n` more, from `p` on. -/
def lowLoop (s : Pmm) : ℕ → ℕ → Pmm
  | 0, _ => s
  | n + 1, p =>
      if p < PMM_MAX_PAGES then lowLoop (if s.bitmapTest p then s else s.takePage p) n (p + 1)
      else s

/-- `memset(pmm_bitmap, 0xFF, sizeof(pmm_bitmap))` and the counters. -/
def allUsed (s : Pmm) : Pmm :=
  { s with
    bitmap := fun w => if w < PMM_MAX_PAGES / 64 then BitVec.allOnes 64 else s.bitmap w
    totalPhysPages := 0
    freePhysPages := 0 }

/-- `pmm_init` -/
def pmmInit (fuel : ℕ) (m : Mem) (s : Pmm) (mb2InfoPhys : ℕ) : Except Halt Pmm :=
  if mb2InfoPhys = 0 then .ok s.allUsed
  else do
    let s ← tagLoop m (wadd mb2InfoPhys (m.read32 mb2InfoPhys)) fuel s.allUsed (wadd mb2InfoPhys 8)
    .ok ((s.lowLoop 256 0).pmmMarkUsed KERNEL_PHYS_BASE (3 * 1024 * 1024))

variable {s s' : Pmm} {m : Mem} {e : MmapEntry} {es : List MmapEntry} {tags : List Tag} {p q n info : ℕ}

/-! ### The loops over pages -/

theorem offerLoop_test : ∀ (n : ℕ) (s : Pmm) (p : ℕ), (s.offerLoop n p).bitmapTest q = false ↔
    q < PMM_MAX_PAGES ∧ q ∈ Set.Ico p (p + n) ∨ s.bitmapTest q = false
  | 0, s, p => by simp [offerLoop]
  | n + 1, s, p => by
      rw [offerLoop]
      split
      · rename_i hp
        rw [offerLoop_test n]
        unfold bitmapTest bitmapClear
        rw [BitArray.test_clearBit]
        by_cases hq : q = p
        · subst hq
          simp [hp]
        · have hmem : q ∈ Set.Ico (p + 1) (p + 1 + n) ↔ q ∈ Set.Ico p (p + (n + 1)) := by
            simp only [Set.mem_Ico]
            omega
          simp [hq, hmem]
      · rename_i hp
        have hno : ¬ (q < PMM_MAX_PAGES ∧ q ∈ Set.Ico p (p + (n + 1))) := by
          rintro ⟨hlt, hle, _⟩
          omega
        rw [or_iff_right hno]

/-- A reserved page, then the `n` pages after it. -/
theorem reserve_succ {P : Prop} : (q ∉ Set.Ico (p + 1) (p + 1 + n) ∧ q ≠ p ∧ P) ↔ (q ∉ Set.Ico p (p + (n + 1)) ∧ P) := by
  have hmem : q ∈ Set.Ico p (p + (n + 1)) ↔ q = p ∨ q ∈ Set.Ico (p + 1) (p + 1 + n) := by
    simp only [Set.mem_Ico]
    omega
  rw [hmem]
  tauto

theorem lowLoop_test : ∀ (n : ℕ) (s : Pmm) (p : ℕ), q < PMM_MAX_PAGES →
    ((s.lowLoop n p).bitmapTest q = false ↔ q ∉ Set.Ico p (p + n) ∧ s.bitmapTest q = false)
  | 0, s, p, _ => by simp [lowLoop]
  | n + 1, s, p, hlt => by
      rw [lowLoop]
      split
      · have htest : (if s.bitmapTest p = true then s else s.takePage p).bitmapTest q = false ↔
            q ≠ p ∧ s.bitmapTest q = false := by
          by_cases hq : q = p
          · subst hq
            split
            · rename_i hs
              simp [hs]
            · simp
          · split <;> simp [hq]
        rw [lowLoop_test n _ _ hlt, htest, reserve_succ]
      · rename_i hp
        have hout : q ∉ Set.Ico p (p + (n + 1)) := fun h => hp (lt_of_le_of_lt h.1 hlt)
        simp [hout]

theorem markUsedLoop_test : ∀ (n : ℕ) (s : Pmm) (p : ℕ), q < PMM_MAX_PAGES →
    ((s.markUsedLoop n p).bitmapTest q = false ↔ q ∉ Set.Ico p (p + n) ∧ s.bitmapTest q = false)
  | 0, s, p, _ => by simp [markUsedLoop]
  | n + 1, s, p, hlt => by
      rw [markUsedLoop]
      split
      · rename_i hp
        have hout : q ∉ Set.Ico p (p + (n + 1)) := fun h => absurd (lt_of_le_of_lt h.1 hlt) (not_lt.mpr hp)
        simp [hout]
      · split
        · rename_i hs
          have htest : s.bitmapTest q = false ↔ q ≠ p ∧ s.bitmapTest q = false := by
            by_cases hq : q = p
            · subst hq
              simp [hs]
            · simp [hq]
          rw [markUsedLoop_test n _ _ hlt, htest, reserve_succ, ← htest]
        · rw [markUsedLoop_test n _ _ hlt, ← reserve_succ]
          unfold bitmapTest bitmapSet
          rw [BitArray.test_setBit]
          by_cases hq : q = p
          · subst hq
            simp
          · simp [hq]

theorem allUsed_test (hq : q < PMM_MAX_PAGES) : s.allUsed.bitmapTest q = true := by
  have hw : q / 64 < PMM_MAX_PAGES / 64 := by
    unfold PMM_MAX_PAGES at *
    omega
  unfold bitmapTest allUsed
  rw [BitArray.test_eq_getLsbD]
  dsimp only
  rw [if_pos hw, BitVec.getLsbD_allOnes]
  exact decide_eq_true (Nat.mod_lt _ (by norm_num))

/-! ### The loops over entries and tags -/

theorem applyEntry_test : (s.applyEntry e).bitmapTest q = false ↔
    (e.Available ∧ q < PMM_MAX_PAGES ∧
      q ∈ Set.Ico (e.baseAddr / PAGE_SIZE) (e.baseAddr / PAGE_SIZE + e.length / PAGE_SIZE)) ∨
    s.bitmapTest q = false := by
  unfold applyEntry
  dsimp only
  split
  · rename_i ha
    rw [offerLoop_test]
    simp [MmapEntry.Available, ha]
  · rename_i ha
    have ha : ¬ e.Available := ha
    simp only [ha, false_and, false_or]
    rfl

theorem foldl_applyEntry_test : (es.foldl applyEntry s).bitmapTest q = false ↔
    (∃ e ∈ es, e.Available ∧ q < PMM_MAX_PAGES ∧
      q ∈ Set.Ico (e.baseAddr / PAGE_SIZE) (e.baseAddr / PAGE_SIZE + e.length / PAGE_SIZE)) ∨
    s.bitmapTest q = false := by
  induction es generalizing s with
  | nil => simp
  | cons e es ih =>
      rw [List.foldl_cons, ih, applyEntry_test, List.exists_mem_cons_iff, ← or_assoc]
      exact or_congr_left or_comm

/-! ### The entries that are read -/

/-- The `n` entries behind the header of the tag at `mmap`, as elements of an array. -/
def entriesRead (m : Mem) (mmap n : ℕ) : List MmapEntry :=
  (List.range n).map fun i => m.mmapEntry (mmap + 16 + MMAP_ENTRY_SIZE * i)

/-- The entries that the loop over the tags takes from the tag at `tag`. -/
def tagEntries (m : Mem) (tag : ℕ) : Except Halt (List MmapEntry) :=
  if m.read32 tag = MB2_TAG_TYPE_MMAP then
    if m.read32 (tag + 8) = 0 then .error (.panic "Divide by Zero")
    else .ok (entriesRead m tag ((m.read32 (tag + 4) + 2 ^ 32 - 16) % 2 ^ 32 / m.read32 (tag + 8)))
  else .ok []

/-- The array behind the header of a memory map: as many records of `mb2_mmap_entry_t` as the map has entries. -/
def arrayOf (m : Mem) (p : ℕ) : Tag → List MmapEntry
  | .mmap _ entries => entriesRead m p entries.length
  | .other _ _ => []

/-- The arrays of all memory maps of a block. -/
def arraysOf (m : Mem) : ℕ → List Tag → List MmapEntry
  | _, [] => []
  | p, tag :: tags => arrayOf m p tag ++ arraysOf m (p + (tag.size + 7) / 8 * 8) tags

/-- All entries that the loop over the tags takes. -/
def walk (m : Mem) (endPtr : ℕ) : ℕ → ℕ → Except Halt (List MmapEntry)
  | 0, _ => .error .outOfFuel
  | fuel + 1, tagPtr =>
      if tagPtr < endPtr then
        if m.read32 tagPtr = 0 then .ok []
        else do
          let es ← tagEntries m tagPtr
          let rest ← walk m endPtr fuel (wadd tagPtr (alignUp32 (m.read32 (tagPtr + 4)) 8))
          .ok (es ++ rest)
      else .ok []

theorem entryLoop_read (n : ℕ) {mmap k : ℕ} {s : Pmm} : s.entryLoop m mmap n k =
    ((List.range' k n).map fun i => m.mmapEntry (mmap + 16 + MMAP_ENTRY_SIZE * i)).foldl applyEntry s := by
  induction n generalizing k s with
  | zero => rfl
  | succ n ih =>
      rw [entryLoop, ih, List.range'_succ]
      rfl

theorem applyTag_read : s.applyTag m p = (tagEntries m p).map (fun es => es.foldl applyEntry s) := by
  unfold applyTag applyMmap tagEntries entriesRead
  dsimp only
  split
  · split
    · rfl
    · rw [entryLoop_read, List.range_eq_range']
      rfl
  · rfl

/-- The loop over the tags applies the entries that it takes. -/
theorem tagLoop_walk {endPtr : ℕ} (fuel : ℕ) {s : Pmm} {p : ℕ} :
    tagLoop m endPtr fuel s p = (walk m endPtr fuel p).map (fun es => es.foldl applyEntry s) := by
  induction fuel generalizing s p with
  | zero => rfl
  | succ fuel ih =>
      rw [tagLoop, walk]
      split
      · split
        · rfl
        · rw [applyTag_read]
          cases tagEntries m p with
          | error e => rfl
          | ok es =>
              simp only [Except.map, bind, Except.bind]
              rw [ih]
              cases walk m endPtr fuel (wadd p (alignUp32 (m.read32 (p + 4)) 8)) with
              | error e => rfl
              | ok rest =>
                  simp only [Except.map]
                  rw [List.foldl_append]
      · rfl

/-- The tag that the walk stands on. -/
theorem tagEntries_stored {tag : Tag} (h : tag.StoredAt m p) (hsize : m.read32 (p + 4) = tag.size) (hs : tag.Strided) :
    tagEntries m p = .ok (arrayOf m p tag) ∧ (arrayOf m p tag).length + 8 ≤ tag.size := by
  unfold tagEntries
  cases tag with
  | mmap entrySize es =>
      obtain ⟨htype, hentry, _⟩ := h
      have hpos : 0 < entrySize := hs
      have hlt := m.read32_lt (p + 4)
      have hval : (Tag.mmap entrySize es).size = 16 + entrySize * es.length := rfl
      rw [hsize, hval] at hlt
      have hcount : (m.read32 (p + 4) + 2 ^ 32 - 16) % 2 ^ 32 / entrySize = es.length := by
        rw [hsize, hval, show (16 + entrySize * es.length + 2 ^ 32 - 16) % 2 ^ 32 = entrySize * es.length by omega]
        exact Nat.mul_div_cancel_left _ hpos
      rw [if_pos htype, hentry, if_neg (by omega), hcount]
      refine ⟨rfl, ?_⟩
      have hle : 1 * es.length ≤ entrySize * es.length := Nat.mul_le_mul_right _ hpos
      rw [arrayOf, entriesRead, List.length_map, List.length_range, hval]
      omega
  | other type size =>
      obtain ⟨_, hne, hle, htype⟩ := h
      rw [if_neg (by rw [htype]; exact hne)]
      exact ⟨rfl, (Nat.zero_add 8).trans_le hle⟩

/-- Entries that lie next to each other are the array. -/
theorem arrayOf_packed {tag : Tag} (h : tag.StoredAt m p) (hp : tag.Packed) : arrayOf m p tag = tag.entries := by
  cases tag with
  | mmap entrySize es =>
      obtain ⟨_, _, hes⟩ := h
      have hp : entrySize = MMAP_ENTRY_SIZE := hp
      subst hp
      rw [arrayOf, entriesRead]
      apply List.ext_getElem
      · rw [List.length_map, List.length_range]
        rfl
      · intro i hi _
        rw [List.length_map, List.length_range] at hi
        simp only [List.getElem_map, List.getElem_range]
        exact hes i hi
  | other type size => rfl

theorem arraysOf_packed {endPtr : ℕ} (h : TagsAt m endPtr p tags) (hp : ∀ tag ∈ tags, tag.Packed) :
    arraysOf m p tags = tags.flatMap Tag.entries := by
  induction tags generalizing p with
  | nil => rfl
  | cons tag tags ih =>
      obtain ⟨hst, _, hrest⟩ := h
      rw [arraysOf, arrayOf_packed hst (hp tag List.mem_cons_self), ih hrest fun t ht => hp t (List.mem_cons_of_mem _ ht),
        List.flatMap_cons]

/-- **The walk over a well-formed block** ends; it takes the arrays of all memory maps. -/
theorem walk_tagsAt {endPtr fuel : ℕ} (h : TagsAt m endPtr p tags) (hs : ∀ tag ∈ tags, tag.Strided)
    (hend : endPtr < 2 ^ 64) (hspan : endPtr ≤ p + 2 ^ 32) (hfuel : tags.length < fuel) :
    walk m endPtr fuel p = .ok (arraysOf m p tags) ∧ p + (arraysOf m p tags).length ≤ endPtr := by
  induction tags generalizing p fuel with
  | nil =>
      obtain ⟨k, rfl⟩ : ∃ k, fuel = k + 1 := ⟨fuel - 1, by omega⟩
      obtain ⟨h0, hle⟩ := h
      rw [walk, if_pos (by omega), if_pos h0]
      exact ⟨rfl, (Nat.le_add_right p 8).trans hle⟩
  | cons tag tags ih =>
      obtain ⟨k, rfl⟩ : ∃ k, fuel = k + 1 := ⟨fuel - 1, by omega⟩
      obtain ⟨hst, hsize, hrest⟩ := h
      have hle := hrest.le
      have hlt := m.read32_lt (p + 4)
      rw [hsize] at hlt
      have hnext : wadd p (alignUp32 (m.read32 (p + 4)) 8) = p + (tag.size + 7) / 8 * 8 := by
        rw [alignUp32_eight, hsize, Nat.mod_eq_of_lt (by omega)]
        exact wadd_of_lt (by omega)
      obtain ⟨hes, hlen⟩ := tagEntries_stored hst hsize (hs tag List.mem_cons_self)
      obtain ⟨hwalk, hlen'⟩ := ih hrest (fun t ht => hs t (List.mem_cons_of_mem _ ht)) (by omega)
        (Nat.lt_of_succ_lt_succ hfuel)
      rw [walk, if_pos (by omega), if_neg hst.type_ne_zero, hes, hnext]
      simp only [bind, Except.bind, hwalk]
      refine ⟨rfl, ?_⟩
      rw [arraysOf, List.length_append]
      omega

/-- What `pmm_init` makes of the entries that it reads. -/
def ofEntries (s : Pmm) (es : List MmapEntry) : Pmm :=
  ((es.foldl applyEntry s.allUsed).lowLoop 256 0).pmmMarkUsed KERNEL_PHYS_BASE (3 * 1024 * 1024)

/-- The entries that `pmm_init` reads from the block at `info`. -/
def mapRead (fuel : ℕ) (m : Mem) (info : ℕ) : Except Halt (List MmapEntry) :=
  walk m (wadd info (m.read32 info)) fuel (wadd info 8)

theorem pmmInit_eq {fuel : ℕ} (h0 : info ≠ 0) : pmmInit fuel m s info = (mapRead fuel m info).map s.ofEntries := by
  unfold pmmInit mapRead
  rw [if_neg h0, tagLoop_walk]
  cases walk m (wadd info (m.read32 info)) fuel (wadd info 8) with
  | error e => rfl
  | ok es => rfl

/-- The walk over a well-formed block, from its beginning. -/
theorem mapRead_infoAt {fuel : ℕ} (h : InfoAt m info tags) (hs : ∀ tag ∈ tags, tag.Strided) (hfuel : tags.length < fuel) :
    mapRead fuel m info = .ok (arraysOf m (info + 8) tags) ∧ (arraysOf m (info + 8) tags).length < 2 ^ 32 := by
  have hsize := m.read32_lt info
  have hle := h.tags.le
  have hin := h.inMemory
  obtain ⟨hes, hlen⟩ := walk_tagsAt h.tags hs hin (by omega) hfuel
  refine ⟨?_, by omega⟩
  unfold mapRead
  rw [wadd_of_lt hin, wadd_of_lt (by omega)]
  exact hes

/-- `pmm_init` on a well-formed block. -/
theorem pmmInit_infoAt {fuel : ℕ} (h : InfoAt m info tags) (hs : ∀ tag ∈ tags, tag.Strided) (hfuel : tags.length < fuel) :
    pmmInit fuel m s info = .ok (s.ofEntries (arraysOf m (info + 8) tags)) := by
  rw [pmmInit_eq h.nonnull, (mapRead_infoAt h hs hfuel).1]
  rfl

/-! ### Which pages are left free -/

/-- The page is neither in the low 1 MiB nor in the 3 MiB of the kernel. -/
def Allocatable (p : ℕ) : Prop :=
  256 ≤ p ∧ p < PMM_MAX_PAGES ∧ p ∉ Set.Ico (KERNEL_PHYS_BASE / PAGE_SIZE) (KERNEL_PHYS_BASE / PAGE_SIZE + 768)

/-- The allocatable pages that the loop marks free for the entry: base and length rounded down. -/
def roundedPages (e : MmapEntry) : Set ℕ :=
  {p | Allocatable p ∧ p ∈ Set.Ico (e.baseAddr / PAGE_SIZE) (e.baseAddr / PAGE_SIZE + e.length / PAGE_SIZE)}

/-- The pages left free. -/
theorem ofEntries_test (hq : q < PMM_MAX_PAGES) :
    (s.ofEntries es).bitmapTest q = false ↔ ∃ e ∈ es, e.Available ∧ q ∈ roundedPages e := by
  have hcount : alignUp (3 * 1024 * 1024) PAGE_SIZE / PAGE_SIZE = 768 := by
    rw [alignUp_page (by norm_num)]
    rfl
  unfold ofEntries pmmMarkUsed
  rw [hcount, markUsedLoop_test _ _ _ hq, lowLoop_test _ _ _ hq, foldl_applyEntry_test, allUsed_test hq]
  have hlow : q ∉ Set.Ico 0 (0 + 256) ↔ 256 ≤ q := by
    simp only [Set.mem_Ico]
    omega
  have hmem : ∀ e : MmapEntry, q ∈ roundedPages e ↔
      (256 ≤ q ∧ q < PMM_MAX_PAGES ∧ q ∉ Set.Ico (KERNEL_PHYS_BASE / PAGE_SIZE) (KERNEL_PHYS_BASE / PAGE_SIZE + 768)) ∧
        q ∈ Set.Ico (e.baseAddr / PAGE_SIZE) (e.baseAddr / PAGE_SIZE + e.length / PAGE_SIZE) := fun _ => Iff.rfl
  simp only [hlow, hmem, hq, true_and, Bool.true_eq_false, or_false]
  constructor
  · rintro ⟨hkernel, hlow, e, he, ha, hr⟩
    exact ⟨e, he, ha, ⟨hlow, hkernel⟩, hr⟩
  · rintro ⟨e, he, ha, ⟨hlow, hkernel⟩, hr⟩
    exact ⟨hkernel, hlow, e, he, ha, hr⟩

/-- **`pmm_init`** returns, and leaves the rounded pages of the available entries free. -/
theorem pmmInit_spec {fuel : ℕ} (h : InfoAt m info tags) (hp : ∀ tag ∈ tags, tag.Packed)
    (hfuel : tags.length < fuel) : ∃ s', pmmInit fuel m s info = .ok s' ∧ ∀ q < PMM_MAX_PAGES,
      (s'.bitmapTest q = false ↔ ∃ e ∈ tags.flatMap Tag.entries, e.Available ∧ q ∈ roundedPages e) := by
  have hinit := @pmmInit_infoAt s _ _ _ _ h (fun tag ht => (hp tag ht).strided) hfuel
  rw [arraysOf_packed h.tags hp] at hinit
  exact ⟨_, hinit, fun q hq => ofEntries_test hq⟩

/-! ### What the firmware offered -/

/-- The bytes of a page. -/
def pageBytes (p : ℕ) : Set ℕ := Set.Ico (p * PAGE_SIZE) ((p + 1) * PAGE_SIZE)

theorem mem_pageBytes {a : ℕ} : a ∈ pageBytes p ↔ a / PAGE_SIZE = p := by
  unfold pageBytes PAGE_SIZE
  rw [Set.mem_Ico]
  omega

/-- Every free page lies inside available memory and meets no entry of another type. -/
structure FreeIsOffered (es : List MmapEntry) (s : Pmm) : Prop where
  inside : ∀ p < PMM_MAX_PAGES, s.bitmapTest p = false → ∀ a ∈ pageBytes p, ∃ e ∈ es, e.Available ∧ a ∈ e.bytes
  apart : ∀ p < PMM_MAX_PAGES, s.bitmapTest p = false → ∀ e ∈ es, ¬ e.Available → Disjoint (pageBytes p) e.bytes

/-- The rounding of the map offers no more than the map. -/
structure Sound (es : List MmapEntry) : Prop where
  /-- Where an available entry begins inside a page that is marked free, the map offers the beginning of
  that page as well. -/
  start : ∀ e ∈ es, e.Available → e.baseAddr / PAGE_SIZE ∈ roundedPages e →
    ∀ a ∈ Set.Ico (e.baseAddr / PAGE_SIZE * PAGE_SIZE) e.baseAddr, ∃ e' ∈ es, e'.Available ∧ a ∈ e'.bytes
  /-- No entry of another type reaches into a page that an available entry marks free. -/
  apart : ∀ e ∈ es, e.Available → ∀ e' ∈ es, ¬ e'.Available → ∀ a ∈ e'.bytes, a / PAGE_SIZE ∉ roundedPages e

/-- A byte of a rounded page is in the entry, or in front of it in its first page. -/
theorem byte_of_roundedPages {a : ℕ} (h : a / PAGE_SIZE ∈ roundedPages e) : a ∈ e.bytes ∨
    e.baseAddr / PAGE_SIZE = a / PAGE_SIZE ∧ a ∈ Set.Ico (e.baseAddr / PAGE_SIZE * PAGE_SIZE) e.baseAddr := by
  obtain ⟨_, hle, hlt⟩ := h
  rw [MmapEntry.mem_bytes, Set.mem_Ico]
  unfold PAGE_SIZE at *
  omega

theorem freeIsOffered_iff (hfree : ∀ q < PMM_MAX_PAGES,
    (s.bitmapTest q = false ↔ ∃ e ∈ es, e.Available ∧ q ∈ roundedPages e)) : FreeIsOffered es s ↔ Sound es := by
  constructor
  · intro h
    constructor
    · intro e he ha hr a hmem
      have hpage : a / PAGE_SIZE = e.baseAddr / PAGE_SIZE := by
        have hlt := hmem.2
        have hle := hmem.1
        unfold PAGE_SIZE at *
        omega
      have hp := hr.1.2.1
      exact h.inside _ hp ((hfree _ hp).mpr ⟨e, he, ha, hr⟩) a (mem_pageBytes.mpr hpage)
    · intro e he ha e' he' hna a hmem hr
      have hp := hr.1.2.1
      have hdisj := h.apart _ hp ((hfree _ hp).mpr ⟨e, he, ha, hr⟩) e' he' hna
      exact Set.disjoint_left.mp hdisj (mem_pageBytes.mpr rfl) hmem
  · intro h
    constructor
    · intro p hp hs a hmem
      obtain ⟨e, he, ha, hr⟩ := (hfree p hp).mp hs
      obtain rfl := mem_pageBytes.mp hmem
      obtain hin | ⟨hfirst, hmem⟩ := byte_of_roundedPages hr
      · exact ⟨e, he, ha, hin⟩
      · exact h.start e he ha (hfirst.symm ▸ hr) a hmem
    · intro p hp hs e' he' hna
      obtain ⟨e, he, ha, hr⟩ := (hfree p hp).mp hs
      rw [Set.disjoint_left]
      intro a hmem hmem'
      obtain rfl := mem_pageBytes.mp hmem
      exact h.apart e he ha e' he' hna a hmem' hr

/-- **Which memory maps are applied safely.**  For every well-formed information block, with any number
of memory maps of any entries: `pmm_init` returns, and the pages it leaves free lie inside available
memory and meet no entry of another type, if and only if the rounding of the map is sound. -/
theorem pmm_init_offered_iff (s : Pmm) (h : InfoAt m info tags) (hp : ∀ tag ∈ tags, tag.Packed) :
    ∃ s', pmmInit (tags.length + 1) m s info = .ok s' ∧
      (FreeIsOffered (tags.flatMap Tag.entries) s' ↔ Sound (tags.flatMap Tag.entries)) := by
  obtain ⟨s', hs', hfree⟩ := pmmInit_spec h hp (Nat.lt_succ_self _)
  exact ⟨s', hs', freeIsOffered_iff hfree⟩

/-! ### Examples of memory maps -/

/-- The zeroed static data of `pmm.c`. -/
def zeroed : Pmm := ⟨fun _ => 0, 0, 0, 0⟩

/-- Memory that holds 64-bit words from `info` on. -/
def wordMem (info : ℕ) (words : List ℕ) : Mem := fun a =>
  if a < info then 0 else UInt8.ofNat (words.getD ((a - info) / 8) 0 / 256 ^ ((a - info) % 8))

/-- An information block with one memory map. -/
def mapBlock (es : List MmapEntry) : List ℕ :=
  [32 + 24 * es.length, 6 + (16 + 24 * es.length) * 2 ^ 32, 24] ++
    es.flatMap (fun e => [e.baseAddr, e.length, e.type]) ++ [8 * 2 ^ 32]

/-- A map as firmware reports it: memory with a hole below 1 MiB. -/
def plainMap : List MmapEntry := [⟨0, 0x9f000, 1⟩, ⟨0x9f000, 0x61000, 2⟩, ⟨0x100000, 0x7f00000, 1⟩]

theorem infoAt_plainMap : InfoAt (wordMem 0x10000 (mapBlock plainMap)) 0x10000 [.mmap MMAP_ENTRY_SIZE plainMap] :=
  ⟨by decide, by decide +kernel, ⟨by decide +kernel, by decide +kernel, by decide +kernel⟩, by decide +kernel,
    by decide +kernel, by decide +kernel⟩

theorem sound_plainMap : Sound plainMap := by
  constructor
  · intro e he _ _ a ha
    simp only [plainMap, List.mem_cons, List.not_mem_nil, or_false] at he
    simp only [Set.mem_Ico, PAGE_SIZE] at ha
    obtain rfl | rfl | rfl := he <;> dsimp only at ha <;> omega
  · intro e he ha e' he' hna a hmem hr
    simp only [plainMap, List.mem_cons, List.not_mem_nil, or_false] at he he'
    obtain ⟨_, hle, hlt⟩ := hr
    simp only [PAGE_SIZE] at hle hlt
    rw [MmapEntry.mem_bytes] at hmem
    obtain rfl | rfl | rfl := he'
    · exact absurd rfl hna
    · obtain rfl | rfl | rfl := he
      · dsimp only at hle hlt hmem
        omega
      · exact absurd ha (by decide)
      · dsimp only at hle hlt hmem
        omega
    · exact absurd rfl hna

theorem pmm_init_offered_plain : ∃ s', pmmInit 2 (wordMem 0x10000 (mapBlock plainMap)) zeroed 0x10000 = .ok s' ∧
    FreeIsOffered plainMap s' := by
  obtain ⟨s', hs', hiff⟩ := pmm_init_offered_iff zeroed infoAt_plainMap (by simp [Tag.Packed])
  exact ⟨s', hs', hiff.mpr sound_plainMap⟩

/-- A map with an entry that begins inside a page, and a bad range inside available memory. -/
def roughMap : List MmapEntry := [⟨0x200800, 0x2000, 1⟩, ⟨0x400000, 0x100000, 1⟩, ⟨0x480000, 0x1000, 5⟩]

/-- The pages `0x200`, whose first half is not offered, and `0x480`, which is bad, are left free. -/
theorem pmm_init_frees_not_offered :
    ∃ s', pmmInit 2 (wordMem 0x10000 (mapBlock roughMap)) zeroed 0x10000 = .ok s' ∧
      (s'.bitmapTest 0x200 = false ∧ 0x200000 ∈ pageBytes 0x200 ∧ ∀ e ∈ roughMap, 0x200000 ∉ e.bytes) ∧
      (s'.bitmapTest 0x480 = false ∧ pageBytes 0x480 = MmapEntry.bytes ⟨0x480000, 0x1000, 5⟩) ∧
      ¬ FreeIsOffered roughMap s' := by
  have h : InfoAt (wordMem 0x10000 (mapBlock roughMap)) 0x10000 [.mmap MMAP_ENTRY_SIZE roughMap] :=
    ⟨by decide, by decide +kernel, ⟨by decide +kernel, by decide +kernel, by decide +kernel⟩, by decide +kernel,
      by decide +kernel, by decide +kernel⟩
  obtain ⟨s', hs', hfree⟩ := @pmmInit_spec zeroed _ _ _ 2 h (by simp [Tag.Packed]) (by decide)
  have h200 : s'.bitmapTest 0x200 = false := by
    refine (hfree 0x200 (by decide)).mpr ⟨⟨0x200800, 0x2000, 1⟩, by decide, rfl, ?_, by decide⟩
    exact ⟨by decide, by decide, by decide⟩
  have h480 : s'.bitmapTest 0x480 = false := by
    refine (hfree 0x480 (by decide)).mpr ⟨⟨0x400000, 0x100000, 1⟩, by decide, rfl, ?_, by decide⟩
    exact ⟨by decide, by decide, by decide⟩
  have hmem : 0x200000 ∈ pageBytes 0x200 := mem_pageBytes.mpr rfl
  have hout : ∀ e ∈ roughMap, 0x200000 ∉ e.bytes := by
    intro e he
    simp only [roughMap, List.mem_cons, List.not_mem_nil, or_false] at he
    rw [MmapEntry.mem_bytes]
    obtain rfl | rfl | rfl := he <;> decide
  refine ⟨s', hs', ⟨h200, hmem, hout⟩, ⟨h480, rfl⟩, fun hoff => ?_⟩
  obtain ⟨e, he, _, hin⟩ := hoff.inside 0x200 (by decide) h200 _ hmem
  exact hout e he hin

end Pmm
end HeroOS
