import HeroOS.PmmCount
import HeroOS.PmmInit

/-! # Memory maps that overlap or are spread out

The loop over the entries counts a page for every entry that offers it, and reads the entries as an array of
`mb2_mmap_entry_t`, whatever their distance is.

* `ofEntries_exceeds`: after `pmm_init` the counter exceeds the number of free pages by the pages that were
  counted again (`recounted`);
* `pmm_init_counter_iff`: so it is exact if and only if no page is offered twice;
* `pmm_init_stride_iff`: the bitmap is the one of the declared entries if and only if the array offers the same
  pages. -/

namespace HeroOS

/-! ### Sets that overlap -/

section family

variable {α : Type*} [DecidableEq α] {seen t : Finset α} {ts : List (Finset α)}

/-- How many members are counted again: for each set, those in `seen` or in an earlier set. -/
def recounted (seen : Finset α) : List (Finset α) → ℕ
  | [] => 0
  | t :: ts => (seen ∩ t).card + recounted (seen ∪ t) ts

theorem recounted_eq_zero_iff : recounted seen ts = 0 ↔ (∀ t ∈ ts, Disjoint seen t) ∧ ts.Pairwise Disjoint := by
  induction ts generalizing seen with
  | nil => simp [recounted]
  | cons t ts ih =>
      rw [recounted, Nat.add_eq_zero_iff, ih, Finset.card_eq_zero, ← Finset.disjoint_iff_inter_eq_empty,
        List.pairwise_cons, List.forall_mem_cons]
      simp only [Finset.disjoint_union_left]
      constructor
      · rintro ⟨h, hts, hp⟩
        exact ⟨⟨h, fun u hu => (hts u hu).1⟩, fun u hu => (hts u hu).2, hp⟩
      · rintro ⟨⟨h, hseen⟩, ht, hp⟩
        exact ⟨h, fun u hu => ⟨hseen u hu, ht u hu⟩, hp⟩

/-- The sizes of the sets, counted one by one. -/
theorem card_foldl_union : seen.card + (ts.map Finset.card).sum = (ts.foldl (· ∪ ·) seen).card + recounted seen ts := by
  induction ts generalizing seen with
  | nil => rfl
  | cons t ts ih =>
      have hunion := Finset.card_union_add_card_inter seen t
      have hrest := @ih (seen ∪ t)
      rw [List.foldl_cons, List.map_cons, List.sum_cons, recounted]
      omega

end family

namespace Pmm

open Word

variable {s s' : Pmm} {m : Mem} {e : MmapEntry} {es es' : List MmapEntry} {tags : List Tag} {n p k info : ℕ}

/-! ### What the loops count -/

/-- The pages that an entry offers to the loop. -/
def offered (e : MmapEntry) : Finset ℕ :=
  if e.Available then Finset.Ico (e.baseAddr / PAGE_SIZE) (min (e.baseAddr / PAGE_SIZE + e.length / PAGE_SIZE) PMM_MAX_PAGES)
  else ∅

theorem card_offered_le (e : MmapEntry) : (offered e).card ≤ PMM_MAX_PAGES := by
  unfold offered
  split
  · rw [Nat.card_Ico]
    exact (Nat.sub_le _ _).trans (min_le_right _ _)
  · exact Nat.zero_le _

theorem offerLoop_clear : (s.offerLoop n p).clearPages = s.clearPages ∪ Finset.Ico p (min (p + n) PMM_MAX_PAGES) := by
  ext q
  rw [Finset.mem_union, mem_clearPages, mem_clearPages, offerLoop_test, Finset.mem_Ico, Set.mem_Ico]
  have hmin : q < min (p + n) PMM_MAX_PAGES ↔ q < p + n ∧ q < PMM_MAX_PAGES := lt_min_iff
  rw [hmin]
  tauto

theorem offerLoop_free (n : ℕ) {s : Pmm} {p : ℕ}
    (h : s.freePhysPages + (Finset.Ico p (min (p + n) PMM_MAX_PAGES)).card < 2 ^ 64) :
    (s.offerLoop n p).freePhysPages = s.freePhysPages + (Finset.Ico p (min (p + n) PMM_MAX_PAGES)).card := by
  rw [Nat.card_Ico] at h ⊢
  induction n generalizing s p with
  | zero =>
      rw [offerLoop]
      omega
  | succ n ih =>
      rw [offerLoop]
      split
      · have hone : wadd s.freePhysPages 1 = s.freePhysPages + 1 := wadd_of_lt (by omega)
        rw [ih (by dsimp only; omega)]
        dsimp only
        omega
      · omega

theorem offered_of_available (ha : e.Available) : offered e =
    Finset.Ico (e.baseAddr / PAGE_SIZE) (min (e.baseAddr / PAGE_SIZE + e.length / PAGE_SIZE) PMM_MAX_PAGES) := if_pos ha

theorem offered_of_not (ha : ¬ e.Available) : offered e = ∅ := if_neg ha

theorem applyEntry_clear : (s.applyEntry e).clearPages = s.clearPages ∪ offered e := by
  unfold applyEntry
  dsimp only
  split
  · rename_i ha
    rw [offerLoop_clear, offered_of_available ha]
  · rename_i ha
    rw [offered_of_not ha, Finset.union_empty]
    rfl

theorem applyEntry_free (h : s.freePhysPages + (offered e).card < 2 ^ 64) :
    (s.applyEntry e).freePhysPages = s.freePhysPages + (offered e).card := by
  unfold applyEntry
  dsimp only
  split
  · rename_i ha
    rw [offered_of_available ha] at h ⊢
    exact offerLoop_free _ h
  · rename_i ha
    rw [offered_of_not ha]
    rfl

theorem foldl_applyEntry_clear : (es.foldl applyEntry s).clearPages = (es.map offered).foldl (· ∪ ·) s.clearPages := by
  induction es generalizing s with
  | nil => rfl
  | cons e es ih => rw [List.foldl_cons, ih, applyEntry_clear, List.map_cons, List.foldl_cons]

theorem foldl_applyEntry_free (h : s.freePhysPages + ((es.map offered).map Finset.card).sum < 2 ^ 64) :
    (es.foldl applyEntry s).freePhysPages = s.freePhysPages + ((es.map offered).map Finset.card).sum := by
  induction es generalizing s with
  | nil => rfl
  | cons e es ih =>
      simp only [List.map_cons, List.sum_cons] at h ⊢
      have he : (s.applyEntry e).freePhysPages = s.freePhysPages + (offered e).card := applyEntry_free (by omega)
      rw [List.foldl_cons, ih (by omega), he, Nat.add_assoc]

/-- The counter exceeds the number of clear bits by `k`. -/
structure Exceeds (s : Pmm) (k : ℕ) : Prop where
  free : s.freePhysPages = s.clearPages.card + k
  lt : s.freePhysPages < 2 ^ 64

/-- A page is taken and counted down. -/
theorem Exceeds.take (h : Exceeds s k) (hp : p < PMM_MAX_PAGES) (hc : s.bitmapTest p = false)
    (htest : ∀ q, s'.bitmapTest q = (decide (q = p) || s.bitmapTest q))
    (hfree : 0 < s.freePhysPages → s'.freePhysPages = s.freePhysPages - 1) : Exceeds s' k := by
  have hmem : p ∈ s.clearPages := mem_clearPages.mpr ⟨hp, hc⟩
  have hpos : 0 < s.clearPages.card := Finset.card_pos.mpr ⟨p, hmem⟩
  have hval := h.free
  have hlt := h.lt
  have hdown : s'.freePhysPages = s.freePhysPages - 1 := hfree (by omega)
  constructor
  · rw [clearPages_take htest, Finset.card_erase_of_mem hmem]
    omega
  · omega

theorem Exceeds.lowLoop (n : ℕ) {s : Pmm} {p : ℕ} (h : Exceeds s k) : Exceeds (s.lowLoop n p) k := by
  induction n generalizing s p with
  | zero => exact h
  | succ n ih =>
      rw [Pmm.lowLoop]
      split
      · rename_i hp
        apply ih
        cases hc : s.bitmapTest p with
        | true => simpa using h
        | false =>
            simp only [Bool.false_eq_true, if_false]
            apply h.take hp hc
            · exact bitmapTest_takePage s p
            · exact fun hpos => wsub_of_le h.lt hpos
      · exact h

theorem Exceeds.markUsedLoop (n : ℕ) {s : Pmm} {p : ℕ} (h : Exceeds s k) : Exceeds (s.markUsedLoop n p) k := by
  induction n generalizing s p with
  | zero => exact h
  | succ n ih =>
      rw [Pmm.markUsedLoop]
      split
      · exact h
      · rename_i hp
        split
        · exact ih h
        · rename_i hc
          apply ih
          apply h.take (p := p) (by omega) (by simpa using hc)
          · exact fun q => s.bitmap.test_setBit p q
          · intro hpos
            dsimp only
            rw [if_pos hpos]

/-- **After `pmm_init`** the counter exceeds the number of free pages by those that were counted again. -/
theorem ofEntries_exceeds (s : Pmm) (hlen : es.length < 2 ^ 32) : Exceeds (s.ofEntries es) (recounted ∅ (es.map offered)) := by
  have hnone : s.allUsed.clearPages = ∅ := by
    apply Finset.eq_empty_of_forall_notMem
    intro q hq
    obtain ⟨hlt, hf⟩ := mem_clearPages.mp hq
    rw [allUsed_test hlt] at hf
    cases hf
  have hzero : s.allUsed.freePhysPages = 0 := rfl
  have hsum : ((es.map offered).map Finset.card).sum ≤ es.length * PMM_MAX_PAGES := by
    have h := List.sum_le_card_nsmul ((es.map offered).map Finset.card) PMM_MAX_PAGES (by
      intro c hc
      obtain ⟨t, ht, rfl⟩ := List.mem_map.mp hc
      obtain ⟨e, _, rfl⟩ := List.mem_map.mp ht
      exact card_offered_le e)
    rwa [List.length_map, List.length_map, smul_eq_mul] at h
  have hlt : ((es.map offered).map Finset.card).sum < 2 ^ 64 := by
    unfold PMM_MAX_PAGES at hsum
    omega
  have hfree := @foldl_applyEntry_free s.allUsed es (by omega)
  have hcard := @card_foldl_union _ _ ∅ (es.map offered)
  have hexceeds : Exceeds (es.foldl applyEntry s.allUsed) (recounted ∅ (es.map offered)) := by
    constructor
    · rw [foldl_applyEntry_clear, hnone, ← hcard, hfree, hzero]
      rfl
    · omega
  exact (hexceeds.lowLoop 256).markUsedLoop _

/-! ### Entries that overlap -/

/-- No page is offered by two entries. -/
def OfferedOnce (es : List MmapEntry) : Prop := es.Pairwise (fun e e' => Disjoint (offered e) (offered e'))

instance (es : List MmapEntry) : Decidable (OfferedOnce es) := inferInstanceAs (Decidable (List.Pairwise _ _))

/-- The counter is the number of clear bits, and no page of the low 1 MiB or of the kernel is free. -/
structure InitExact (s : Pmm) : Prop where
  free : s.freePhysPages = s.clearPages.card
  low : ∀ q < 256, s.bitmapTest q = true
  kernel : ∀ q ∈ Set.Ico (KERNEL_PHYS_BASE / PAGE_SIZE) (KERNEL_PHYS_BASE / PAGE_SIZE + 768), s.bitmapTest q = true

/-- A page that is not allocatable is used. -/
theorem ofEntries_reserved {q : ℕ} (hq : q < PMM_MAX_PAGES) (hr : ¬ Allocatable q) : (s.ofEntries es).bitmapTest q = true := by
  rw [← Bool.not_eq_false, ofEntries_test hq]
  rintro ⟨e, _, _, hpage⟩
  exact hr hpage.1

theorem initExact_iff (s : Pmm) (hlen : es.length < 2 ^ 32) : InitExact (s.ofEntries es) ↔ OfferedOnce es := by
  have hx := (ofEntries_exceeds s hlen).free
  have hzero : recounted ∅ (es.map offered) = 0 ↔ OfferedOnce es := by
    rw [recounted_eq_zero_iff, List.pairwise_map]
    exact and_iff_right fun t _ => Finset.disjoint_empty_left t
  rw [← hzero]
  constructor
  · intro h
    have hfree := h.free
    omega
  · intro h0
    refine ⟨by omega, fun q hq => ?_, fun q hq => ?_⟩
    · apply ofEntries_reserved
      · unfold PMM_MAX_PAGES
        omega
      · exact fun ha => absurd ha.1 (by omega)
    · apply ofEntries_reserved
      · have hlt := hq.2
        unfold KERNEL_PHYS_BASE PAGE_SIZE at hlt
        unfold PMM_MAX_PAGES
        omega
      · exact fun ha => ha.2.2 hq

/-- **When the counter is exact.**  For every well-formed information block: `pmm_init` returns, and the
counter is the number of clear bits, with the reserved pages all used, if and only if no page is offered by two
of the entries that are read. -/
theorem pmm_init_counter_iff (s : Pmm) (h : InfoAt m info tags) (hs : ∀ tag ∈ tags, tag.Strided) :
    ∃ s', pmmInit (tags.length + 1) m s info = .ok s' ∧ (InitExact s' ↔ OfferedOnce (arraysOf m (info + 8) tags)) ∧
      ((∀ tag ∈ tags, tag.Packed) → arraysOf m (info + 8) tags = tags.flatMap Tag.entries) :=
  ⟨_, pmmInit_infoAt h hs (Nat.lt_succ_self _), initExact_iff s (mapRead_infoAt h hs (Nat.lt_succ_self _)).2, arraysOf_packed h.tags⟩

theorem offeredOnce_plainMap : OfferedOnce plainMap := by
  have hreserved : offered ⟨0x9f000, 0x61000, 2⟩ = ∅ := rfl
  have hdisj : Disjoint (offered ⟨0, 0x9f000, 1⟩) (offered ⟨0x100000, 0x7f00000, 1⟩) := by
    rw [Finset.disjoint_left]
    intro q h1 h2
    have hlow := (Finset.mem_Ico.mp h1).2
    have hhigh := (Finset.mem_Ico.mp h2).1
    unfold PAGE_SIZE at hlow hhigh
    dsimp only at hlow hhigh
    omega
  unfold OfferedOnce plainMap
  simp [hreserved, hdisj]

theorem pmm_init_counter_plain : ∃ s', pmmInit 2 (wordMem 0x10000 (mapBlock plainMap)) zeroed 0x10000 = .ok s' ∧ InitExact s' := by
  obtain ⟨s', hs', hiff, hpack⟩ := pmm_init_counter_iff zeroed infoAt_plainMap (by simp [Tag.Strided, MMAP_ENTRY_SIZE])
  rw [hpack (by simp [Tag.Packed])] at hiff
  exact ⟨s', hs', hiff.mpr offeredOnce_plainMap⟩

/-- A map that lists the same three pages twice. -/
def repeatedMap : List MmapEntry := [⟨0x100000, 0x3000, 1⟩, ⟨0x100000, 0x3000, 1⟩]

/-- Three pages are free and six are counted. -/
theorem pmm_init_counts_twice : ∃ s', pmmInit 2 (wordMem 0x10000 (mapBlock repeatedMap)) zeroed 0x10000 = .ok s' ∧
    s'.clearPages.card = 3 ∧ s'.freePhysPages = 6 ∧ ¬ InitExact s' := by
  have h : InfoAt (wordMem 0x10000 (mapBlock repeatedMap)) 0x10000 [.mmap MMAP_ENTRY_SIZE repeatedMap] :=
    ⟨by decide, by decide +kernel, ⟨by decide +kernel, by decide +kernel, by decide +kernel⟩, by decide +kernel,
      by decide +kernel, by decide +kernel⟩
  have hinit := @pmmInit_infoAt zeroed _ _ _ 2 h (by simp [Tag.Strided, MMAP_ENTRY_SIZE]) (by decide)
  have hentries : [Tag.mmap MMAP_ENTRY_SIZE repeatedMap].flatMap Tag.entries = repeatedMap := rfl
  rw [arraysOf_packed h.tags (by simp [Tag.Packed]), hentries] at hinit
  have hx := (@ofEntries_exceeds repeatedMap zeroed (by decide)).free
  have hagain : recounted ∅ (repeatedMap.map offered) = 3 := by decide +kernel
  have hfree : (zeroed.ofEntries repeatedMap).freePhysPages = 6 := by decide +kernel
  refine ⟨_, hinit, ?_, hfree, fun hexact => ?_⟩
  · omega
  · have heq := hexact.free
    omega

/-! ### Entries that are spread out -/

/-- The two lists offer the same allocatable pages. -/
def SamePages (es es' : List MmapEntry) : Prop := ∀ p,
  (∃ e ∈ es, e.Available ∧ p ∈ roundedPages e) ↔ ∃ e ∈ es', e.Available ∧ p ∈ roundedPages e

/-- The two managers have the same bitmap. -/
def SameBitmap (s s' : Pmm) : Prop := ∀ q < PMM_MAX_PAGES, s.bitmapTest q = s'.bitmapTest q

theorem sameBitmap_iff : SameBitmap (s.ofEntries es) (s.ofEntries es') ↔ SamePages es es' := by
  constructor
  · intro h q
    by_cases hq : q < PMM_MAX_PAGES
    · rw [← @ofEntries_test s es q hq, ← @ofEntries_test s es' q hq, h q hq]
    · have hout : ∀ e : MmapEntry, q ∉ roundedPages e := fun e he => hq he.1.2.1
      simp [hout]
  · intro h q hq
    have hfree : (s.ofEntries es).bitmapTest q = false ↔ (s.ofEntries es').bitmapTest q = false := by
      rw [ofEntries_test hq, ofEntries_test hq]
      exact h q
    rwa [Bool.eq_iff_iff, ← not_iff_not, Bool.not_eq_true, Bool.not_eq_true]

/-- **When the declared entries are applied.**  For every well-formed information block, whatever the distance
of its entries: `pmm_init` returns, and its bitmap is the one of the declared entries if and only if these offer
the same pages as the records that follow each other without a gap; it is where the declared distance is the size
of a record. -/
theorem pmm_init_stride_iff (s : Pmm) (h : InfoAt m info tags) (hs : ∀ tag ∈ tags, tag.Strided) :
    ∃ s', pmmInit (tags.length + 1) m s info = .ok s' ∧
      (SameBitmap s' (s.ofEntries (tags.flatMap Tag.entries)) ↔
        SamePages (arraysOf m (info + 8) tags) (tags.flatMap Tag.entries)) ∧
      ((∀ tag ∈ tags, tag.Packed) → SameBitmap s' (s.ofEntries (tags.flatMap Tag.entries))) := by
  refine ⟨_, pmmInit_infoAt h hs (Nat.lt_succ_self _), sameBitmap_iff, fun hp => ?_⟩
  rw [arraysOf_packed h.tags hp]
  exact fun q _ => rfl

theorem pmm_init_stride_plain : ∃ s', pmmInit 2 (wordMem 0x10000 (mapBlock plainMap)) zeroed 0x10000 = .ok s' ∧
    SameBitmap s' (zeroed.ofEntries plainMap) := by
  obtain ⟨s', hs', _, hpacked⟩ := pmm_init_stride_iff zeroed infoAt_plainMap (by simp [Tag.Strided, MMAP_ENTRY_SIZE])
  exact ⟨s', hs', hpacked (by simp [Tag.Packed])⟩

/-- Two ranges of three pages. -/
def twoRanges : List MmapEntry := [⟨0x100000, 0x3000, 1⟩, ⟨0x200000, 0x3000, 1⟩]

/-- Their map with eight more bytes for each entry. -/
def spreadMap : Mem := wordMem 0x10000
  [96, 6 + 80 * 2 ^ 32, 32, 0x100000, 0x3000, 1, 0, 0x200000, 0x3000, 1, 0, 8 * 2 ^ 32]

/-- The second range is read eight bytes too early, and stays used. -/
theorem pmm_init_misreads_spread : ∃ s', InfoAt spreadMap 0x10000 [.mmap 32 twoRanges] ∧
    pmmInit 2 spreadMap zeroed 0x10000 = .ok s' ∧ s'.bitmapTest 0x200 = true ∧
    (zeroed.ofEntries twoRanges).bitmapTest 0x200 = false ∧ ¬ SameBitmap s' (zeroed.ofEntries twoRanges) := by
  have h : InfoAt spreadMap 0x10000 [.mmap 32 twoRanges] :=
    ⟨by decide, by decide +kernel, ⟨by decide +kernel, by decide +kernel, by decide +kernel⟩, by decide +kernel,
      by decide +kernel, by decide +kernel⟩
  have hinit := @pmmInit_infoAt zeroed _ _ _ 2 h (by simp [Tag.Strided]) (by decide)
  have harray : arraysOf spreadMap (0x10000 + 8) [.mmap 32 twoRanges] = [⟨0x100000, 0x3000, 1⟩, ⟨0, 0x200000, 0x3000⟩] := by
    decide +kernel
  rw [harray] at hinit
  have hread : (zeroed.ofEntries [⟨0x100000, 0x3000, 1⟩, ⟨0, 0x200000, 0x3000⟩]).bitmapTest 0x200 = true := by decide +kernel
  have hdeclared : (zeroed.ofEntries twoRanges).bitmapTest 0x200 = false := by decide +kernel
  refine ⟨_, h, hinit, hread, hdeclared, fun hsame => ?_⟩
  have heq := hsame 0x200 (by decide)
  rw [hread, hdeclared] at heq
  cases heq

end Pmm
end HeroOS
