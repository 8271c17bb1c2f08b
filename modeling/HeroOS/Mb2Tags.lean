import HeroOS.Mb2Walk

/-! # Any list of tags

A tag as a type and the bytes behind its header, without regard to what the type means.  `Mb2BlockAt m info tags` says
that memory holds a well-formed block with these tags at `info`; `encodeBlock` writes one (`mb2BlockAt_encodeBlock`).

* `tagWalk_tagsFrom`: the tag pointer of the loops comes to the addresses at which the tags are placed, and to no
  others;
* `findLoop_of_tagWalk`, `tagLoop_of_tagWalk`: so `mb2_find_tag` returns the first of these with the type that is asked
  for, and `pmm_init` runs the body of its loop at each of them;
* `mb2_tags_visited`: both loops on any well-formed block;
* `entryLoop_mapTag`: for a memory map that was made of entries, the body applies these. -/

namespace HeroOS

open Word Pmm

/-! ### Bytes in memory -/

/-- The `n` bytes of a number, in little-endian order. -/
def leBytes (n v : ℕ) : List UInt8 := (List.range n).map fun k => UInt8.ofNat (v / 256 ^ k)

/-- The bytes stand at `a`. -/
def Mem.Holds (m : Mem) (a : ℕ) (bytes : List UInt8) : Prop := ∀ i (hi : i < bytes.length), m (a + i) = bytes[i]

variable {m : Mem} {a p e n v fuel info tagType : ℕ} {xs ys : List UInt8}

@[simp] theorem length_leBytes (n v : ℕ) : (leBytes n v).length = n := by
  unfold leBytes
  rw [List.length_map, List.length_range]

theorem Mem.holds_append : m.Holds a (xs ++ ys) ↔ m.Holds a xs ∧ m.Holds (a + xs.length) ys := by
  unfold Mem.Holds
  constructor
  · intro h
    constructor
    · intro i hi
      rw [h i (by rw [List.length_append]; omega), List.getElem_append_left hi]
    · intro i hi
      rw [Nat.add_assoc, h (xs.length + i) (by rw [List.length_append]; omega), List.getElem_append_right (Nat.le_add_right _ _)]
      simp only [Nat.add_sub_cancel_left]
  · rintro ⟨hx, hy⟩ i hi
    rcases Nat.lt_or_ge i xs.length with hlt | hge
    · rw [hx i hlt, List.getElem_append_left hlt]
    · rw [List.length_append] at hi
      have hrest := hy (i - xs.length) (by omega)
      rw [Nat.add_assoc, Nat.add_sub_cancel' hge] at hrest
      rw [hrest, List.getElem_append_right hge]

/-- A number that stands in memory is read. -/
theorem Mem.readLE_of_holds (h : m.Holds a (leBytes n v)) : m.readLE a n = v % 256 ^ n := by
  have hsame : m.readLE a n = (m.writeLE a n v).readLE a n := by
    apply readLE_congr n
    intro x hx
    obtain ⟨i, rfl⟩ : ∃ i, x = a + i := Nat.exists_eq_add_of_le hx.1
    have hi : i < n := Nat.lt_of_add_lt_add_left hx.2
    have hin : a ≤ a + i ∧ a + i < a + n := hx
    rw [h i (by rwa [length_leBytes]), writeLE, if_pos hin, Nat.add_sub_cancel_left]
    unfold leBytes
    rw [List.getElem_map, List.getElem_range]
  rw [hsame, readLE_writeLE_same]

theorem Mem.read32_of_holds (h : m.Holds a (leBytes 4 v)) (hv : v < 2 ^ 32) : m.read32 a = v :=
  (Mem.readLE_of_holds h).trans (Nat.mod_eq_of_lt hv)

theorem Mem.read64_of_holds (h : m.Holds a (leBytes 8 v)) (hv : v < 2 ^ 64) : m.read64 a = v :=
  (Mem.readLE_of_holds h).trans (Nat.mod_eq_of_lt hv)

/-- Memory that holds the bytes at `a`, and zeros elsewhere. -/
def bytesMem (a : ℕ) (bytes : List UInt8) : Mem := fun x => if x < a then 0 else bytes.getD (x - a) 0

theorem holds_bytesMem (a : ℕ) (bytes : List UInt8) : (bytesMem a bytes).Holds a bytes := by
  intro i hi
  unfold bytesMem
  rw [if_neg (Nat.not_lt.mpr (Nat.le_add_right a i)), Nat.add_sub_cancel_left, List.getD_eq_getElem _ _ hi]

/-! ### Tags and blocks -/

/-- A tag other than the last one: its type, and the bytes behind the header. -/
structure Mb2Tag where
  type : ℕ
  body : List UInt8
  type_ne_zero : type ≠ 0
  type_lt : type < 2 ^ 32
deriving DecidableEq, Repr

namespace Mb2Tag

/-- The `size` field. -/
def size (t : Mb2Tag) : ℕ := 8 + t.body.length

/-- The size with the padding to eight bytes. -/
def paddedSize (t : Mb2Tag) : ℕ := (t.size + 7) / 8 * 8

/-- The tag is at address `p`. -/
structure StoredAt (m : Mem) (p : ℕ) (t : Mb2Tag) : Prop where
  type : m.read32 p = t.type
  size : m.read32 (p + 4) = t.size
  body : m.Holds (p + 8) t.body

/-- The bytes of a tag and its padding. -/
def encode (t : Mb2Tag) : List UInt8 :=
  leBytes 4 t.type ++ leBytes 4 t.size ++ t.body ++ List.replicate (t.paddedSize - t.size) 0

theorem le_paddedSize (t : Mb2Tag) : t.size ≤ t.paddedSize ∧ 8 ≤ t.size ∧ t.paddedSize < t.size + 8 := by
  unfold paddedSize size
  omega

theorem length_encode (t : Mb2Tag) : t.encode.length = t.paddedSize := by
  have hle := t.le_paddedSize.1
  unfold encode
  simp only [List.length_append, length_leBytes, List.length_replicate]
  unfold size at *
  omega

theorem storedAt_encode {t : Mb2Tag} (h : m.Holds p t.encode) (hsize : t.size < 2 ^ 32) : t.StoredAt m p := by
  unfold encode at h
  rw [Mem.holds_append, Mem.holds_append, Mem.holds_append, List.length_append, length_leBytes, length_leBytes] at h
  obtain ⟨⟨⟨htype, hs⟩, hbody⟩, _⟩ := h
  exact ⟨Mem.read32_of_holds htype t.type_lt, Mem.read32_of_holds hs hsize, hbody⟩

end Mb2Tag

variable {tags : List Mb2Tag}

/-- The tags follow each other from `p` on, and a tag of type 0 ends them before `e`. -/
def TagsFrom (m : Mem) (e : ℕ) : ℕ → List Mb2Tag → Prop
  | p, [] => m.read32 p = 0 ∧ p + 8 ≤ e
  | p, t :: tags => t.StoredAt m p ∧ TagsFrom m e (p + t.paddedSize) tags

/-- A well-formed block at `info`. -/
structure Mb2BlockAt (m : Mem) (info : ℕ) (tags : List Mb2Tag) : Prop where
  nonnull : info ≠ 0
  inMemory : info + m.read32 info < 2 ^ 64
  tags : TagsFrom m (info + m.read32 info) (info + 8) tags

/-- The tags with their addresses. -/
def placed : ℕ → List Mb2Tag → List (ℕ × Mb2Tag)
  | _, [] => []
  | p, t :: tags => (p, t) :: placed (p + t.paddedSize) tags

/-- The bytes of a block: total size, a reserved field, the tags and the last tag. -/
def encodeBlock (tags : List Mb2Tag) : List UInt8 :=
  leBytes 4 (16 + (tags.flatMap Mb2Tag.encode).length) ++ leBytes 4 0 ++ tags.flatMap Mb2Tag.encode ++ (leBytes 4 0 ++ leBytes 4 8)

theorem length_encodeBlock (tags : List Mb2Tag) : (encodeBlock tags).length = 16 + (tags.flatMap Mb2Tag.encode).length := by
  unfold encodeBlock
  simp only [List.length_append, length_leBytes]
  omega

theorem TagsFrom.le (h : TagsFrom m e p tags) : p + 8 ≤ e := by
  induction tags generalizing p with
  | nil => exact h.2
  | cons t tags ih =>
      have hle := ih h.2
      omega

theorem tagsFrom_encode (h : m.Holds p (tags.flatMap Mb2Tag.encode ++ (leBytes 4 0 ++ leBytes 4 8)))
    (hle : p + (tags.flatMap Mb2Tag.encode).length + 8 ≤ e) (hlt : (tags.flatMap Mb2Tag.encode).length < 2 ^ 32) :
    TagsFrom m e p tags := by
  induction tags generalizing p with
  | nil =>
      rw [List.flatMap_nil, List.nil_append, Mem.holds_append] at h
      exact ⟨Mem.read32_of_holds h.1 (by norm_num), hle⟩
  | cons t tags ih =>
      rw [List.flatMap_cons, List.append_assoc, Mem.holds_append, t.length_encode] at h
      rw [List.flatMap_cons, List.length_append, t.length_encode] at hle hlt
      have hsize := t.le_paddedSize.1
      exact ⟨Mb2Tag.storedAt_encode h.1 (by omega), ih h.2 (by omega) (by omega)⟩

/-- The bytes of a block are a block. -/
theorem mb2BlockAt_encodeBlock (h : m.Holds info (encodeBlock tags)) (h0 : info ≠ 0) (hlen : (encodeBlock tags).length < 2 ^ 32)
    (hin : info + (encodeBlock tags).length < 2 ^ 64) : Mb2BlockAt m info tags := by
  rw [length_encodeBlock] at hlen hin
  unfold encodeBlock at h
  rw [List.append_assoc, Mem.holds_append, Mem.holds_append, List.length_append, length_leBytes, length_leBytes] at h
  obtain ⟨⟨htotal, _⟩, htags⟩ := h
  have htotal := Mem.read32_of_holds htotal hlen
  constructor
  · exact h0
  · rwa [htotal]
  · exact tagsFrom_encode htags (by omega) (by omega)

/-! ### The addresses that the loops come to -/

/-- The values of the tag pointer at which the loops find a tag that is not the last one. -/
def tagWalk (m : Mem) (endPtr : ℕ) : ℕ → ℕ → Except Halt (List ℕ)
  | 0, _ => .error .outOfFuel
  | fuel + 1, p =>
      if p < endPtr then
        if m.read32 p = 0 then .ok []
        else do
          let ps ← tagWalk m endPtr fuel (wadd p (alignUp32 (m.read32 (p + 4)) 8))
          .ok (p :: ps)
      else .ok []

variable {ps : List ℕ}

/-- One step: the walk is at its end, on the last tag, or goes on behind the tag at `p`. -/
theorem tagWalk_cases (h : tagWalk m e (fuel + 1) p = .ok ps) :
    ¬ p < e ∧ ps = [] ∨ p < e ∧ m.read32 p = 0 ∧ ps = [] ∨
      p < e ∧ m.read32 p ≠ 0 ∧ ∃ rest, ps = p :: rest ∧
        tagWalk m e fuel (wadd p (alignUp32 (m.read32 (p + 4)) 8)) = .ok rest := by
  rw [tagWalk] at h
  split at h
  · rename_i hp
    split at h
    · rename_i h0
      exact .inr (.inl ⟨hp, h0, (Except.ok.inj h).symm⟩)
    · rename_i h0
      obtain ⟨rest, hrest, h⟩ := bind_eq_ok.mp h
      exact .inr (.inr ⟨hp, h0, rest, (Except.ok.inj h).symm, hrest⟩)
  · rename_i hp
    exact .inl ⟨hp, (Except.ok.inj h).symm⟩

/-- `mb2_find_tag` returns the first address of the walk that has the type. -/
theorem findLoop_of_tagWalk (h : tagWalk m e fuel p = .ok ps) :
    findLoop m e tagType fuel p = .ok ((ps.find? fun q => m.read32 q = tagType).getD 0) := by
  induction fuel generalizing p ps with
  | zero => cases h
  | succ fuel ih =>
      rw [findLoop]
      obtain ⟨hp, rfl⟩ | ⟨hp, h0, rfl⟩ | ⟨hp, h0, rest, rfl, hrest⟩ := tagWalk_cases h
      · rw [if_neg hp]
        rfl
      · rw [if_pos hp, if_pos h0]
        rfl
      · rw [if_pos hp, if_neg h0, ih hrest, List.find?_cons]
        split
        · rename_i ht
          simp only [ht, decide_true]
          rfl
        · rename_i ht
          simp only [ht, decide_false]

/-- `pmm_init` runs the body of its loop at every address of the walk. -/
theorem tagLoop_of_tagWalk {s : Pmm} (h : tagWalk m e fuel p = .ok ps) :
    tagLoop m e fuel s p = ps.foldlM (fun s q => s.applyTag m q) s := by
  induction fuel generalizing s p ps with
  | zero => cases h
  | succ fuel ih =>
      rw [tagLoop]
      obtain ⟨hp, rfl⟩ | ⟨hp, h0, rfl⟩ | ⟨hp, h0, rest, rfl, hrest⟩ := tagWalk_cases h
      · rw [if_neg hp]
        rfl
      · rw [if_pos hp, if_pos h0]
        rfl
      · rw [if_pos hp, if_neg h0, List.foldlM_cons]
        exact congrArg (s.applyTag m p >>= ·) (funext fun s => ih hrest)

/-- **The walk over a well-formed block** comes to its tags, one after the other. -/
theorem tagWalk_tagsFrom (h : TagsFrom m e p tags) (hend : e < 2 ^ 64) (hspan : e ≤ p + 2 ^ 32) (hfuel : tags.length < fuel) :
    tagWalk m e fuel p = .ok ((placed p tags).map Prod.fst) := by
  induction tags generalizing p fuel with
  | nil =>
      obtain ⟨k, rfl⟩ : ∃ k, fuel = k + 1 := ⟨fuel - 1, by omega⟩
      obtain ⟨h0, hle⟩ := h
      rw [tagWalk, if_pos (by omega), if_pos h0]
      rfl
  | cons t tags ih =>
      obtain ⟨k, rfl⟩ : ∃ k, fuel = k + 1 := ⟨fuel - 1, by omega⟩
      obtain ⟨hst, hrest⟩ := h
      have hle := hrest.le
      have hsize := t.le_paddedSize
      have hnext : wadd p (alignUp32 (m.read32 (p + 4)) 8) = p + t.paddedSize := by
        unfold Mb2Tag.paddedSize at *
        rw [alignUp32_eight, hst.size, Nat.mod_eq_of_lt (by omega)]
        exact wadd_of_lt (by omega)
      have hne : m.read32 p ≠ 0 := hst.type ▸ t.type_ne_zero
      rw [tagWalk, if_pos (by omega), if_neg hne, hnext, ih hrest (by omega) (Nat.lt_of_succ_lt_succ hfuel)]
      rfl

theorem storedAt_placed (h : TagsFrom m e p tags) : ∀ q ∈ placed p tags, p ≤ q.1 ∧ q.2.StoredAt m q.1 := by
  induction tags generalizing p with
  | nil => exact fun q hq => absurd hq List.not_mem_nil
  | cons t tags ih =>
      intro q hq
      rcases List.mem_cons.mp hq with rfl | hq
      · exact ⟨le_rfl, h.1⟩
      · obtain ⟨hle, hst⟩ := ih h.2 q hq
        exact ⟨(Nat.le_add_right p _).trans hle, hst⟩

/-! ### Memory maps -/

/-- The bytes of `mb2_mmap_entry_t`. -/
def MmapEntry.encode (entry : MmapEntry) : List UInt8 :=
  leBytes 8 entry.baseAddr ++ leBytes 8 entry.length ++ leBytes 4 entry.type ++ leBytes 4 0

/-- The fields of the entry have their widths. -/
structure MmapEntry.Fits (entry : MmapEntry) : Prop where
  baseAddr : entry.baseAddr < 2 ^ 64
  length : entry.length < 2 ^ 64
  type : entry.type < 2 ^ 32

/-- A memory map: the fields `entry_size` and `entry_version`, and an array of entries. -/
def mapTag (entrySize : ℕ) (es : List MmapEntry) : Mb2Tag where
  type := MB2_TAG_TYPE_MMAP
  body := leBytes 4 entrySize ++ leBytes 4 0 ++ es.flatMap MmapEntry.encode
  type_ne_zero := by decide
  type_lt := by decide

variable {es : List MmapEntry} {entrySize : ℕ}

theorem length_encodeEntry (entry : MmapEntry) : entry.encode.length = MMAP_ENTRY_SIZE := by
  unfold MmapEntry.encode
  simp only [List.length_append, length_leBytes]
  rfl

theorem mmapEntry_of_holds {entry : MmapEntry} (h : m.Holds a entry.encode) (hf : entry.Fits) : m.mmapEntry a = entry := by
  unfold MmapEntry.encode at h
  rw [Mem.holds_append, Mem.holds_append, Mem.holds_append, List.length_append, List.length_append, length_leBytes,
    length_leBytes] at h
  obtain ⟨⟨⟨hbase, hlength⟩, htype⟩, _⟩ := h
  unfold Mem.mmapEntry
  rw [Mem.read64_of_holds hbase hf.baseAddr, Mem.read64_of_holds hlength hf.length, Mem.read32_of_holds htype hf.type]

theorem entries_of_holds (h : m.Holds a (es.flatMap MmapEntry.encode)) (hf : ∀ entry ∈ es, entry.Fits) :
    ((List.range es.length).map fun i => m.mmapEntry (a + MMAP_ENTRY_SIZE * i)) = es := by
  induction es generalizing a with
  | nil => rfl
  | cons entry es ih =>
      rw [List.flatMap_cons, Mem.holds_append, length_encodeEntry] at h
      obtain ⟨hfirst, hothers⟩ := List.forall_mem_cons.mp hf
      have hstep : (fun i => m.mmapEntry (a + MMAP_ENTRY_SIZE * i)) ∘ Nat.succ =
          fun i => m.mmapEntry (a + MMAP_ENTRY_SIZE + MMAP_ENTRY_SIZE * i) := by
        funext i
        simp only [Function.comp, Nat.mul_succ]
        congr 1
        omega
      rw [List.length_cons, List.range_succ_eq_map, List.map_cons, List.map_map, hstep, ih h.2 hothers, Nat.mul_zero,
        Nat.add_zero, mmapEntry_of_holds h.1 hfirst]

theorem length_mapEntries (es : List MmapEntry) : (es.flatMap MmapEntry.encode).length = MMAP_ENTRY_SIZE * es.length := by
  induction es with
  | nil => rfl
  | cons entry es ih =>
      rw [List.flatMap_cons, List.length_append, length_encodeEntry, ih, List.length_cons, Nat.mul_succ, Nat.add_comm]

/-- **The entries that are read** from a memory map are those that it was made of. -/
theorem entriesRead_mapTag (h : (mapTag MMAP_ENTRY_SIZE es).StoredAt m p) (hf : ∀ entry ∈ es, entry.Fits) :
    entriesRead m p (mapCount m p) = es := by
  have hbody := h.body
  unfold mapTag at hbody
  dsimp only at hbody
  rw [Mem.holds_append, Mem.holds_append, List.length_append, length_leBytes, length_leBytes] at hbody
  obtain ⟨⟨hentry, _⟩, hes⟩ := hbody
  have hsize : m.read32 (p + 4) = 16 + 24 * es.length := by
    rw [h.size]
    unfold Mb2Tag.size mapTag
    dsimp only
    rw [List.length_append, List.length_append, length_leBytes, length_leBytes, length_mapEntries]
    unfold MMAP_ENTRY_SIZE
    omega
  have hlt := m.read32_lt (p + 4)
  have hcount : mapCount m p = es.length := by
    unfold mapCount
    rw [Mem.read32_of_holds hentry (by decide), hsize]
    unfold MMAP_ENTRY_SIZE
    omega
  unfold entriesRead
  rw [hcount]
  exact entries_of_holds hes hf

/-- The loop over the entries applies them. -/
theorem entryLoop_mapTag (s : Pmm) (h : (mapTag MMAP_ENTRY_SIZE es).StoredAt m p) (hf : ∀ entry ∈ es, entry.Fits) :
    s.entryLoop m p (mapCount m p) 0 = es.foldl applyEntry s := by
  have hread := entriesRead_mapTag h hf
  unfold entriesRead at hread
  rw [entryLoop_read, ← List.range_eq_range', hread]

/-! ### All tags -/

/-- What the two loops do on a block with the tags `tags`. -/
structure TagsVisited (m : Mem) (s : Pmm) (info : ℕ) (tags : List Mb2Tag) (fuel : ℕ) : Prop where
  /-- They come to the tags one after the other, and to nothing else. -/
  visited : tagWalk m (wadd info (m.read32 info)) fuel (wadd info 8) = .ok ((placed (info + 8) tags).map Prod.fst)
  stored : ∀ q ∈ placed (info + 8) tags, q.1 ≠ 0 ∧ q.2.StoredAt m q.1
  /-- `mb2_find_tag` returns the first tag of the type, or `NULL`. -/
  found : ∀ tagType, mb2FindTag fuel m info tagType =
    .ok (((placed (info + 8) tags).find? fun q => q.2.type = tagType).elim 0 Prod.fst)
  /-- `pmm_init` runs the loop over the entries for every memory map, in order, if it need not divide by zero. -/
  processed : (∀ q ∈ placed (info + 8) tags, q.2.type = MB2_TAG_TYPE_MMAP → m.read32 (q.1 + 8) ≠ 0) →
    pmmInit fuel m s info = .ok (((((placed (info + 8) tags).filter fun q => q.2.type = MB2_TAG_TYPE_MMAP).foldl
      (fun s q => s.entryLoop m q.1 (mapCount m q.1) 0) s.allUsed).lowLoop 256 0).pmmMarkUsed KERNEL_PHYS_BASE (3 * 1024 * 1024))

variable {qs : List (ℕ × Mb2Tag)}

/-- The addresses at which tags stand, searched for a type. -/
theorem find_stored (h : ∀ q ∈ qs, q.2.StoredAt m q.1) :
    ((qs.map Prod.fst).find? fun p => m.read32 p = tagType).getD 0 = (qs.find? fun q => q.2.type = tagType).elim 0 Prod.fst := by
  induction qs with
  | nil => rfl
  | cons q qs ih =>
      obtain ⟨hq, hqs⟩ := List.forall_mem_cons.mp h
      rw [List.map_cons, List.find?_cons, List.find?_cons, hq.type]
      split
      · rfl
      · exact ih hqs

/-- The body of the loop of `pmm_init`, for all tags. -/
theorem applyTags_stored {s : Pmm} (h : ∀ q ∈ qs, q.2.StoredAt m q.1)
    (hpos : ∀ q ∈ qs, q.2.type = MB2_TAG_TYPE_MMAP → m.read32 (q.1 + 8) ≠ 0) :
    (qs.map Prod.fst).foldlM (fun s p => s.applyTag m p) s =
      .ok ((qs.filter fun q => q.2.type = MB2_TAG_TYPE_MMAP).foldl (fun s q => s.entryLoop m q.1 (mapCount m q.1) 0) s) := by
  induction qs generalizing s with
  | nil => rfl
  | cons q qs ih =>
      obtain ⟨hq, hqs⟩ := List.forall_mem_cons.mp h
      obtain ⟨hposq, hposqs⟩ := List.forall_mem_cons.mp hpos
      rw [List.map_cons, List.foldlM_cons, List.filter_cons]
      unfold applyTag
      rw [hq.type]
      by_cases ht : q.2.type = MB2_TAG_TYPE_MMAP
      · rw [if_pos ht, if_pos (decide_eq_true ht), List.foldl_cons]
        unfold applyMmap
        dsimp only
        rw [if_neg (hposq ht)]
        exact ih hqs hposqs
      · rw [if_neg ht, if_neg (by simpa using ht)]
        exact ih hqs hposqs

/-- **Any list of tags** is visited by `mb2_find_tag` and `pmm_init` as it was laid out. -/
theorem mb2_tags_visited (s : Pmm) (h : Mb2BlockAt m info tags) (hfuel : tags.length < fuel) : TagsVisited m s info tags fuel := by
  have hsize := m.read32_lt info
  have hle := h.tags.le
  have hin := h.inMemory
  have hwalk : tagWalk m (wadd info (m.read32 info)) fuel (wadd info 8) = .ok ((placed (info + 8) tags).map Prod.fst) := by
    rw [wadd_of_lt hin, wadd_of_lt (by omega)]
    exact tagWalk_tagsFrom h.tags hin (by omega) hfuel
  have hstored : ∀ q ∈ placed (info + 8) tags, q.2.StoredAt m q.1 := fun q hq => (storedAt_placed h.tags q hq).2
  constructor
  · exact hwalk
  · intro q hq
    have hge := (storedAt_placed h.tags q hq).1
    exact ⟨by omega, hstored q hq⟩
  · intro tagType
    unfold mb2FindTag
    rw [if_neg h.nonnull, findLoop_of_tagWalk hwalk, find_stored hstored]
  · intro hpos
    unfold pmmInit
    rw [if_neg h.nonnull, tagLoop_of_tagWalk hwalk, applyTags_stored hstored hpos]
    rfl

/-! ### Examples of blocks -/

/-- A tag with a body of three bytes, which is padded, and a memory map. -/
def twoTags : List Mb2Tag := [⟨1, [0x61, 0x62, 0], by decide, by decide⟩, mapTag MMAP_ENTRY_SIZE plainMap]

/-- The memory map is found behind the padding, and `pmm_init` returns. -/
theorem mb2_tags_visited_two : mb2FindTag 3 (bytesMem 0x10000 (encodeBlock twoTags)) 0x10000 MB2_TAG_TYPE_MMAP = .ok 0x10018 ∧
    ∃ s', pmmInit 3 (bytesMem 0x10000 (encodeBlock twoTags)) zeroed 0x10000 = .ok s' := by
  have hblock : Mb2BlockAt (bytesMem 0x10000 (encodeBlock twoTags)) 0x10000 twoTags :=
    mb2BlockAt_encodeBlock (holds_bytesMem _ _) (by norm_num) (by decide +kernel) (by decide +kernel)
  have h := @mb2_tags_visited _ 3 0x10000 _ zeroed hblock (by decide)
  exact ⟨h.found _, _, h.processed (by decide +kernel)⟩

/-- A memory map that says that its entries have no size, and a map of available memory behind it. -/
def sizelessTags : List Mb2Tag := [mapTag 0 [], mapTag MMAP_ENTRY_SIZE plainMap]

/-- `pmm_init` divides by zero at the first map and does not come to the second. -/
theorem mb2_map_not_processed : Mb2BlockAt (bytesMem 0x10000 (encodeBlock sizelessTags)) 0x10000 sizelessTags ∧
    ∀ fuel, pmmInit (fuel + 1) (bytesMem 0x10000 (encodeBlock sizelessTags)) zeroed 0x10000 = .error (.panic "Divide by Zero") := by
  refine ⟨mb2BlockAt_encodeBlock (holds_bytesMem _ _) (by norm_num) (by decide +kernel) (by decide +kernel), fun fuel => ?_⟩
  have hstart : wadd 0x10000 8 = 0x10008 := by decide
  have hlt : 0x10008 < wadd 0x10000 ((bytesMem 0x10000 (encodeBlock sizelessTags)).read32 0x10000) := by decide +kernel
  have htype : (bytesMem 0x10000 (encodeBlock sizelessTags)).read32 0x10008 = MB2_TAG_TYPE_MMAP := by decide +kernel
  have hentry : (bytesMem 0x10000 (encodeBlock sizelessTags)).read32 (0x10008 + 8) = 0 := by decide +kernel
  unfold pmmInit
  rw [if_neg (by norm_num), hstart, tagLoop, if_pos hlt, if_neg (by rw [htype]; decide)]
  unfold applyTag applyMmap
  rw [if_pos htype, hentry]
  rfl

end HeroOS
