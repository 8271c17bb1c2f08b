import HeroOS.PmmInit

/-! # Walks over arbitrary blocks

The tag loops of `pmm_init` and of `mb2_find_tag` trust what the block says: the step to the next tag is read
from the tag, and so are the number and the size of the entries.

Every loop is written once more as an instrumented program that stops where it reads outside the block
(`tagLoopM`, `findLoopM`); where it returns, the loop itself does the same (`tagLoopM_val`, `findLoopM_val`).

* `tagLoopM_returns`, `findLoopM_returns`: the loops return where every tag that is reached fits;
* `tagLoopM_fits`: the loop of `pmm_init` returns only there;
* `fits_infoAt`: in a well-formed block with packed maps all tags fit;
* `mb2_walks_safe_iff`: both loops return for exactly these blocks. -/

namespace HeroOS

open Word Relation Pmm

/-! ### `mb2_find_tag` -/

/-- The loop of `mb2_find_tag`. -/
def findLoop (m : Mem) (endPtr tagType : ℕ) : ℕ → ℕ → Except Halt ℕ
  | 0, _ => .error .outOfFuel
  | fuel + 1, p =>
      if p < endPtr then
        if m.read32 p = 0 then .ok 0
        else if m.read32 p = tagType then .ok p
        else findLoop m endPtr tagType fuel (wadd p (alignUp32 (m.read32 (p + 4)) 8))
      else .ok 0

/-- `mb2_find_tag` -/
def mb2FindTag (fuel : ℕ) (m : Mem) (mb2Phys tagType : ℕ) : Except Halt ℕ :=
  if mb2Phys = 0 then .ok 0
  else findLoop m (wadd mb2Phys (m.read32 mb2Phys)) tagType fuel (wadd mb2Phys 8)

/-! ### Instrumented programs -/

/-- Stop unless the `n` bytes at `a` are between `lo` and `hi`. -/
def within (lo hi a n : ℕ) : Except Halt Unit := if lo ≤ a ∧ a + n ≤ hi then .ok () else .error .overrun

/-- `findLoop` -/
def findLoopM (m : Mem) (lo hi tagType : ℕ) : ℕ → ℕ → Except Halt ℕ
  | 0, _ => .error .outOfFuel
  | fuel + 1, p =>
      if p < hi then do
        within lo hi p 4
        if m.read32 p = 0 then .ok 0
        else if m.read32 p = tagType then .ok p
        else do
          within lo hi (p + 4) 4
          findLoopM m lo hi tagType fuel (wadd p (alignUp32 (m.read32 (p + 4)) 8))
      else .ok 0

namespace Pmm

/-- `entryLoop`; of an entry everything but the reserved field is read. -/
def entryLoopM (s : Pmm) (m : Mem) (lo hi mmap : ℕ) : ℕ → ℕ → Except Halt Pmm
  | 0, _ => .ok s
  | n + 1, i => do
      within lo hi (mmap + 16 + MMAP_ENTRY_SIZE * i) 20
      entryLoopM (s.applyEntry (m.mmapEntry (mmap + 16 + MMAP_ENTRY_SIZE * i))) m lo hi mmap n (i + 1)

/-- The number of entries that the loop computes for the map at `mmap`. -/
def mapCount (m : Mem) (mmap : ℕ) : ℕ := (m.read32 (mmap + 4) + 2 ^ 32 - 16) % 2 ^ 32 / m.read32 (mmap + 8)

/-- `applyTag` -/
def applyTagM (s : Pmm) (m : Mem) (lo hi tag : ℕ) : Except Halt Pmm :=
  if m.read32 tag = MB2_TAG_TYPE_MMAP then do
    within lo hi (tag + 4) 4
    within lo hi (tag + 8) 4
    if m.read32 (tag + 8) = 0 then .error (.panic "Divide by Zero")
    else s.entryLoopM m lo hi tag (mapCount m tag) 0
  else .ok s

/-- `tagLoop` -/
def tagLoopM (m : Mem) (lo hi : ℕ) : ℕ → Pmm → ℕ → Except Halt Pmm
  | 0, _, _ => .error .outOfFuel
  | fuel + 1, s, tagPtr =>
      if tagPtr < hi then do
        within lo hi tagPtr 4
        if m.read32 tagPtr = 0 then .ok s
        else do
          let s ← s.applyTagM m lo hi tagPtr
          within lo hi (tagPtr + 4) 4
          tagLoopM m lo hi fuel s (wadd tagPtr (alignUp32 (m.read32 (tagPtr + 4)) 8))
      else .ok s

end Pmm

variable {s s' : Pmm} {m : Mem} {tags : List Tag} {lo hi a n p q r info fuel tagType : ℕ}

theorem within_bind {α : Type} {f : Unit → Except Halt α} {b : α} :
    (within lo hi a n >>= f) = .ok b ↔ (lo ≤ a ∧ a + n ≤ hi) ∧ f () = .ok b := by
  unfold within
  split
  · rename_i h
    exact (and_iff_right h).symm
  · rename_i h
    constructor
    · exact fun h => nomatch h
    · exact fun hb => absurd hb.1 h

theorem findLoopM_val (h : findLoopM m lo hi tagType fuel p = .ok r) : findLoop m hi tagType fuel p = .ok r := by
  induction fuel generalizing p with
  | zero => cases h
  | succ fuel ih =>
      rw [findLoopM] at h
      rw [findLoop]
      split
      · rename_i hp
        rw [if_pos hp, within_bind] at h
        obtain ⟨_, h⟩ := h
        split
        · rename_i h0
          rwa [if_pos h0] at h
        · rename_i h0
          rw [if_neg h0] at h
          split
          · rename_i ht
            rwa [if_pos ht] at h
          · rename_i ht
            rw [if_neg ht, within_bind] at h
            exact ih h.2
      · rename_i hp
        rwa [if_neg hp] at h

namespace Pmm

theorem entryLoopM_val {i mmap : ℕ} (h : s.entryLoopM m lo hi mmap n i = .ok s') : s.entryLoop m mmap n i = s' := by
  induction n generalizing s i with
  | zero => exact Except.ok.inj h
  | succ n ih =>
      rw [entryLoopM, within_bind] at h
      exact ih h.2

theorem applyTagM_val (h : s.applyTagM m lo hi p = .ok s') : s.applyTag m p = .ok s' := by
  unfold applyTagM at h
  unfold applyTag applyMmap
  split
  · rename_i ht
    rw [if_pos ht, within_bind, within_bind] at h
    obtain ⟨_, _, h⟩ := h
    dsimp only
    split
    · rename_i h0
      rw [if_pos h0] at h
      cases h
    · rename_i h0
      rw [if_neg h0] at h
      exact congrArg Except.ok (entryLoopM_val h)
  · rename_i ht
    rwa [if_neg ht] at h

theorem tagLoopM_val (h : tagLoopM m lo hi fuel s p = .ok s') : tagLoop m hi fuel s p = .ok s' := by
  induction fuel generalizing s p with
  | zero => cases h
  | succ fuel ih =>
      rw [tagLoopM] at h
      rw [tagLoop]
      split
      · rename_i hp
        rw [if_pos hp, within_bind] at h
        obtain ⟨_, h⟩ := h
        split
        · rename_i h0
          rwa [if_pos h0] at h
        · rename_i h0
          rw [if_neg h0] at h
          obtain ⟨s₁, h₁, h⟩ := bind_eq_ok.mp h
          rw [within_bind] at h
          exact bind_eq_ok.mpr ⟨s₁, applyTagM_val h₁, ih h.2⟩
      · rename_i hp
        rwa [if_neg hp] at h

end Pmm

/-! ### Tags that fit -/

/-- From one tag to the next, as their sizes say. -/
def NextTag (m : Mem) (hi p q : ℕ) : Prop := p < hi ∧ m.read32 p ≠ 0 ∧ q = p + (m.read32 (p + 4) + 7) / 8 * 8

/-- The header of the tag is inside the block, and its size is not zero and does not wrap when rounded. -/
structure HeaderFits (m : Mem) (hi p : ℕ) : Prop where
  type : p + 4 ≤ hi
  size : m.read32 p ≠ 0 → p + 8 ≤ hi ∧ 0 < m.read32 (p + 4) ∧ m.read32 (p + 4) ≤ 2 ^ 32 - 8
  room : m.read32 p ≠ 0 → p + (m.read32 (p + 4) + 7) / 8 * 8 < 2 ^ 64

/-- The array of the map is inside the block. -/
structure MapFits (m : Mem) (hi p : ℕ) : Prop where
  header : p + 12 ≤ hi
  entrySize : 0 < m.read32 (p + 8)
  entries : ∀ i < Pmm.mapCount m p, p + 16 + MMAP_ENTRY_SIZE * i + 20 ≤ hi

/-- Every tag that is reached from the first has a header that fits. -/
def HeadersFit (m : Mem) (info : ℕ) : Prop :=
  ∀ p, ReflTransGen (NextTag m (info + m.read32 info)) (info + 8) p → p < info + m.read32 info →
    HeaderFits m (info + m.read32 info) p

/-- So has every memory map, and its array fits as well. -/
def MapsFit (m : Mem) (info : ℕ) : Prop :=
  ∀ p, ReflTransGen (NextTag m (info + m.read32 info)) (info + 8) p → p < info + m.read32 info →
    m.read32 p = MB2_TAG_TYPE_MMAP → MapFits m (info + m.read32 info) p

/-- The step of the loops. -/
theorem HeaderFits.next (h : HeaderFits m hi p) (h0 : m.read32 p ≠ 0) :
    wadd p (alignUp32 (m.read32 (p + 4)) 8) = p + (m.read32 (p + 4) + 7) / 8 * 8 ∧ p + 8 ≤ p + (m.read32 (p + 4) + 7) / 8 * 8 := by
  obtain ⟨_, hpos, hle⟩ := h.size h0
  have hroom := h.room h0
  rw [alignUp32_eight, Nat.mod_eq_of_lt (by omega)]
  exact ⟨wadd_of_lt hroom, by omega⟩

theorem findLoopM_returns (hfit : ∀ q, ReflTransGen (NextTag m hi) p q → q < hi → HeaderFits m hi q) (hlo : lo ≤ p)
    (hfuel : hi - p < fuel) : ∃ r, findLoopM m lo hi tagType fuel p = .ok r := by
  induction fuel generalizing p with
  | zero => exact absurd hfuel (Nat.not_lt_zero _)
  | succ fuel ih =>
      rw [findLoopM]
      split
      · rename_i hp
        have hh := hfit p .refl hp
        simp only [within_bind]
        by_cases h0 : m.read32 p = 0
        · exact ⟨0, ⟨hlo, hh.type⟩, if_pos h0⟩
        · by_cases ht : m.read32 p = tagType
          · exact ⟨p, ⟨hlo, hh.type⟩, by rw [if_neg h0, if_pos ht]⟩
          · obtain ⟨hnext, hle⟩ := hh.next h0
            have hstep : NextTag m hi p (p + (m.read32 (p + 4) + 7) / 8 * 8) := ⟨hp, h0, rfl⟩
            obtain ⟨r, hr⟩ := ih (fun q hq => hfit q (.head hstep hq)) (by omega) (by omega)
            refine ⟨r, ⟨hlo, hh.type⟩, ?_⟩
            rw [if_neg h0, if_neg ht, within_bind, hnext]
            exact ⟨⟨by omega, (hh.size h0).1⟩, hr⟩
      · exact ⟨0, rfl⟩

namespace Pmm

theorem entryLoopM_returns {i mmap : ℕ} (hlo : lo ≤ mmap)
    (hfit : ∀ j < i + n, mmap + 16 + MMAP_ENTRY_SIZE * j + 20 ≤ hi) : ∃ s', s.entryLoopM m lo hi mmap n i = .ok s' := by
  induction n generalizing s i with
  | zero => exact ⟨s, rfl⟩
  | succ n ih =>
      obtain ⟨s', hs'⟩ := @ih (s.applyEntry (m.mmapEntry (mmap + 16 + MMAP_ENTRY_SIZE * i))) (i + 1)
        (fun j hj => hfit j (by omega))
      rw [entryLoopM]
      simp only [within_bind]
      exact ⟨s', ⟨by omega, hfit i (by omega)⟩, hs'⟩

theorem applyTagM_returns (hlo : lo ≤ p) (hfit : m.read32 p = MB2_TAG_TYPE_MMAP → MapFits m hi p) :
    ∃ s', s.applyTagM m lo hi p = .ok s' := by
  unfold applyTagM
  split
  · rename_i ht
    obtain ⟨hheader, hpos, hentries⟩ := hfit ht
    simp only [within_bind]
    rw [if_neg (by omega)]
    obtain ⟨s', hs'⟩ := @entryLoopM_returns s m lo hi (mapCount m p) 0 p hlo (fun j hj => hentries j (by omega))
    exact ⟨s', ⟨by omega, by omega⟩, ⟨by omega, by omega⟩, hs'⟩
  · exact ⟨s, rfl⟩

theorem tagLoopM_returns (hfit : ∀ q, ReflTransGen (NextTag m hi) p q → q < hi → HeaderFits m hi q)
    (hmap : ∀ q, ReflTransGen (NextTag m hi) p q → q < hi → m.read32 q = MB2_TAG_TYPE_MMAP → MapFits m hi q) (hlo : lo ≤ p)
    (hfuel : hi - p < fuel) : ∃ s', tagLoopM m lo hi fuel s p = .ok s' := by
  induction fuel generalizing s p with
  | zero => exact absurd hfuel (Nat.not_lt_zero _)
  | succ fuel ih =>
      rw [tagLoopM]
      split
      · rename_i hp
        have hh := hfit p .refl hp
        simp only [within_bind]
        by_cases h0 : m.read32 p = 0
        · exact ⟨s, ⟨hlo, hh.type⟩, if_pos h0⟩
        · obtain ⟨hnext, hle⟩ := hh.next h0
          have hstep : NextTag m hi p (p + (m.read32 (p + 4) + 7) / 8 * 8) := ⟨hp, h0, rfl⟩
          obtain ⟨s₁, h₁⟩ := @applyTagM_returns s m lo hi p hlo (hmap p .refl hp)
          obtain ⟨s', hs'⟩ := @ih s₁ _ (fun q hq => hfit q (.head hstep hq)) (fun q hq => hmap q (.head hstep hq)) (by omega)
            (by omega)
          refine ⟨s', ⟨hlo, hh.type⟩, ?_⟩
          rw [if_neg h0, h₁, hnext]
          exact within_bind.mpr ⟨⟨by omega, (hh.size h0).1⟩, hs'⟩
      · exact ⟨s, rfl⟩

/-! ### Where the loop returns -/

theorem entryLoopM_fits {i j mmap : ℕ} (h : s.entryLoopM m lo hi mmap n i = .ok s') (h1 : i ≤ j) (h2 : j < i + n) :
    mmap + 16 + MMAP_ENTRY_SIZE * j + 20 ≤ hi := by
  induction n generalizing s i with
  | zero => omega
  | succ n ih =>
      rw [entryLoopM, within_bind] at h
      obtain ⟨hin, h⟩ := h
      rcases Nat.eq_or_lt_of_le h1 with rfl | hlt
      · exact hin.2
      · exact ih h hlt (by omega)

theorem applyTagM_fits (h : s.applyTagM m lo hi p = .ok s') (ht : m.read32 p = MB2_TAG_TYPE_MMAP) : MapFits m hi p := by
  unfold applyTagM at h
  rw [if_pos ht, within_bind, within_bind] at h
  obtain ⟨_, hheader, h⟩ := h
  split at h
  · cases h
  · rename_i h0
    exact ⟨by omega, by omega, fun i hi => entryLoopM_fits h (Nat.zero_le i) (by omega)⟩

/-- What a loop that returns has done with the tag it stands on. -/
theorem tagLoopM_step (h : tagLoopM m lo hi fuel s p = .ok s') (hp : p < hi) :
    (lo ≤ p ∧ p + 4 ≤ hi) ∧ (m.read32 p ≠ 0 → p + 8 ≤ hi ∧ ∃ k s₁, fuel = k + 1 ∧ s.applyTagM m lo hi p = .ok s₁ ∧
      tagLoopM m lo hi k s₁ (wadd p (alignUp32 (m.read32 (p + 4)) 8)) = .ok s') := by
  cases fuel with
  | zero => cases h
  | succ fuel =>
      rw [tagLoopM, if_pos hp, within_bind] at h
      obtain ⟨hin, h⟩ := h
      refine ⟨hin, fun h0 => ?_⟩
      rw [if_neg h0] at h
      obtain ⟨s₁, h₁, h⟩ := bind_eq_ok.mp h
      rw [within_bind] at h
      exact ⟨h.1.2, fuel, s₁, rfl, h₁, h.2⟩

/-- Where the next tag is the same one, the loop does not end. -/
theorem tagLoopM_stuck (hp : p < hi) (h0 : m.read32 p ≠ 0) (hstep : wadd p (alignUp32 (m.read32 (p + 4)) 8) = p) :
    tagLoopM m lo hi fuel s p ≠ .ok s' := by
  induction fuel generalizing s with
  | zero => exact fun h => nomatch h
  | succ fuel ih =>
      intro h
      obtain ⟨_, k, s₁, hk, _, hnext⟩ := (tagLoopM_step h hp).2 h0
      obtain rfl := Nat.succ.inj hk
      rw [hstep] at hnext
      exact ih hnext

theorem tagLoopM_header (h : tagLoopM m lo hi fuel s p = .ok s') (hin : hi < 2 ^ 64) (hspan : hi < lo + 2 ^ 32) (hp : p < hi) :
    HeaderFits m hi p := by
  obtain ⟨⟨hlo, htype⟩, hrest⟩ := tagLoopM_step h hp
  have hlt := m.read32_lt (p + 4)
  have hsize : m.read32 p ≠ 0 → p + 8 ≤ hi ∧ 0 < m.read32 (p + 4) ∧ m.read32 (p + 4) ≤ 2 ^ 32 - 8 := by
    intro h0
    obtain ⟨hsize, k, s₁, _, _, hnext⟩ := hrest h0
    have hmoves : alignUp32 (m.read32 (p + 4)) 8 ≠ 0 := by
      intro hzero
      have hstep : wadd p (alignUp32 (m.read32 (p + 4)) 8) = p := by
        rw [hzero]
        exact wadd_of_lt (by omega)
      rw [hstep] at hnext
      exact tagLoopM_stuck hp h0 hstep hnext
    rw [alignUp32_eight] at hmoves
    omega
  refine ⟨htype, hsize, fun h0 => ?_⟩
  by_contra hroom
  obtain ⟨_, hpos, hle⟩ := hsize h0
  obtain ⟨_, k, s₁, _, _, hnext⟩ := hrest h0
  -- the step past the end of the address space lands in front of the block
  have hwrap : wadd p (alignUp32 (m.read32 (p + 4)) 8) < lo := by
    rw [alignUp32_eight, Nat.mod_eq_of_lt (by omega)]
    unfold wadd
    omega
  have hbelow := (tagLoopM_step hnext (by omega)).1.1
  omega

theorem tagLoopM_fits (h : tagLoopM m lo hi fuel s p = .ok s') (hin : hi < 2 ^ 64) (hspan : hi < lo + 2 ^ 32)
    (hq : ReflTransGen (NextTag m hi) p q) (hlt : q < hi) :
    HeaderFits m hi q ∧ (m.read32 q = MB2_TAG_TYPE_MMAP → MapFits m hi q) := by
  induction fuel generalizing s p with
  | zero => cases h
  | succ fuel ih =>
      rcases hq.cases_head with rfl | ⟨r, ⟨hp, h0, rfl⟩, hr⟩
      · refine ⟨tagLoopM_header h hin hspan hlt, fun ht => ?_⟩
        have h0 : m.read32 p ≠ 0 := by
          rw [ht]
          decide
        obtain ⟨_, k, s₁, _, h₁, _⟩ := (tagLoopM_step h hlt).2 h0
        exact applyTagM_fits h₁ ht
      · obtain ⟨_, k, s₁, hk, _, hnext⟩ := (tagLoopM_step h hp).2 h0
        obtain rfl := Nat.succ.inj hk
        rw [((tagLoopM_header h hin hspan hp).next h0).1] at hnext
        exact ih hnext hr

end Pmm

/-! ### Well-formed blocks -/

theorem header_stored {tag : Tag} (h : tag.StoredAt m p) (hsize : m.read32 (p + 4) = tag.size)
    (hnext : p + (tag.size + 7) / 8 * 8 + 8 ≤ hi) (hin : hi < 2 ^ 64) (hspan : hi < p + 2 ^ 32) : HeaderFits m hi p := by
  have hle : 8 ≤ tag.size := by
    cases tag with
    | mmap entrySize es => exact Nat.le_add_right_of_le (by norm_num)
    | other type size => exact h.2.2.1
  refine ⟨by omega, fun _ => ?_, fun _ => ?_⟩
  · rw [hsize]
    omega
  · rw [hsize]
    omega

theorem mapFits_stored {tag : Tag} (h : tag.StoredAt m p) (hsize : m.read32 (p + 4) = tag.size) (hp : tag.Packed)
    (hnext : p + (tag.size + 7) / 8 * 8 + 8 ≤ hi) (ht : m.read32 p = MB2_TAG_TYPE_MMAP) : MapFits m hi p := by
  cases tag with
  | mmap entrySize es =>
      obtain ⟨_, hentry, _⟩ := h
      have hp : entrySize = MMAP_ENTRY_SIZE := hp
      subst hp
      have hlt := m.read32_lt (p + 4)
      have hval : (Tag.mmap MMAP_ENTRY_SIZE es).size = 16 + 24 * es.length := rfl
      have hcount : Pmm.mapCount m p = es.length := by
        unfold Pmm.mapCount
        rw [hentry, hsize, hval]
        unfold MMAP_ENTRY_SIZE
        omega
      rw [hval] at hnext
      refine ⟨by omega, ?_, fun i hi => ?_⟩
      · rw [hentry]
        decide
      · unfold MMAP_ENTRY_SIZE
        omega
  | other type size => exact absurd (h.2.2.2.symm.trans ht) h.2.1

theorem tagsAt_fits (h : TagsAt m hi p tags) (hin : hi < 2 ^ 64) (hspan : hi < p + 2 ^ 32)
    (hq : ReflTransGen (NextTag m hi) p q) (hlt : q < hi) :
    HeaderFits m hi q ∧ ((∀ tag ∈ tags, tag.Packed) → m.read32 q = MB2_TAG_TYPE_MMAP → MapFits m hi q) := by
  induction tags generalizing p with
  | nil =>
      obtain ⟨h0, hle⟩ := h
      rcases hq.cases_head with rfl | ⟨r, ⟨_, hne, _⟩, _⟩
      · refine ⟨⟨by omega, fun hne => absurd h0 hne, fun hne => absurd h0 hne⟩, fun _ ht => ?_⟩
        rw [h0] at ht
        cases ht
      · exact absurd h0 hne
  | cons tag tags ih =>
      obtain ⟨hst, hsize, hrest⟩ := h
      have hnext := hrest.le
      rcases hq.cases_head with rfl | ⟨r, ⟨_, _, rfl⟩, hr⟩
      · exact ⟨header_stored hst hsize hnext hin hspan,
          fun hp ht => mapFits_stored hst hsize (hp tag List.mem_cons_self) hnext ht⟩
      · rw [hsize] at hr
        obtain ⟨hh, hm⟩ := ih hrest (by omega) hr
        exact ⟨hh, fun hp => hm fun t ht => hp t (List.mem_cons_of_mem _ ht)⟩

theorem headersFit_infoAt (h : InfoAt m info tags) : HeadersFit m info := by
  intro p hp hlt
  have hsize := m.read32_lt info
  exact (tagsAt_fits h.tags h.inMemory (by omega) hp hlt).1

theorem mapsFit_infoAt (h : InfoAt m info tags) (hp : ∀ tag ∈ tags, tag.Packed) : MapsFit m info := by
  intro p hq hlt ht
  have hsize := m.read32_lt info
  exact (tagsAt_fits h.tags h.inMemory (by omega) hq hlt).2 hp ht

/-! ### Which blocks are walked safely -/

/-- The loops of `pmm_init` and of `mb2_find_tag` return, for every tag that is asked for, and have read only
bytes of the block. -/
structure WalksReturn (m : Mem) (s : Pmm) (info : ℕ) : Prop where
  init : ∃ fuel s', Pmm.tagLoopM m info (wadd info (m.read32 info)) fuel s (wadd info 8) = .ok s'
  find : ∀ tagType, ∃ fuel r, findLoopM m info (wadd info (m.read32 info)) tagType fuel (wadd info 8) = .ok r

/-- **Which blocks are walked safely.**  Whatever a block contains: the loops over its tags end, divide by
nothing but a positive entry size and read only bytes of the block if and only if every tag that they come to
has its header in the block and a size that moves them on, and every memory map among these has a positive entry
size and its array in the block. -/
theorem mb2_walks_safe_iff (s : Pmm) (hhead : info + 8 < 2 ^ 64) (hin : info + m.read32 info < 2 ^ 64) :
    WalksReturn m s info ↔ HeadersFit m info ∧ MapsFit m info := by
  have hsize := m.read32_lt info
  have hend : wadd info (m.read32 info) = info + m.read32 info := wadd_of_lt hin
  have hstart : wadd info 8 = info + 8 := wadd_of_lt hhead
  constructor
  · rintro ⟨⟨fuel, s', h⟩, _⟩
    rw [hend, hstart] at h
    have hfits := fun p hp hlt => Pmm.tagLoopM_fits h hin (by omega) (q := p) hp hlt
    exact ⟨fun p hp hlt => (hfits p hp hlt).1, fun p hp hlt => (hfits p hp hlt).2⟩
  · rintro ⟨hheaders, hmaps⟩
    constructor
    · rw [hend, hstart]
      exact ⟨_, Pmm.tagLoopM_returns hheaders hmaps (by omega) (Nat.lt_succ_self _)⟩
    · intro tagType
      rw [hend, hstart]
      exact ⟨_, findLoopM_returns hheaders (by omega) (Nat.lt_succ_self _)⟩

/-- Then `pmm_init` returns. -/
theorem WalksReturn.pmmInit (h : WalksReturn m s.allUsed info) (h0 : info ≠ 0) : ∃ fuel s', Pmm.pmmInit fuel m s info = .ok s' := by
  obtain ⟨fuel, s', hs'⟩ := h.init
  refine ⟨fuel, (s'.lowLoop 256 0).pmmMarkUsed KERNEL_PHYS_BASE (3 * 1024 * 1024), ?_⟩
  unfold Pmm.pmmInit
  rw [if_neg h0, Pmm.tagLoopM_val hs']
  rfl

theorem mb2_walks_safe_plain : WalksReturn (wordMem 0x10000 (mapBlock plainMap)) Pmm.zeroed 0x10000 := by
  apply (mb2_walks_safe_iff Pmm.zeroed (by norm_num) infoAt_plainMap.inMemory).mpr
  exact ⟨headersFit_infoAt infoAt_plainMap, mapsFit_infoAt infoAt_plainMap (by simp [Tag.Packed])⟩

/-- A tag without a size: the loop stays where it is. -/
theorem tagLoop_stuck (hp : p < hi) (h0 : m.read32 p ≠ 0) (ht : m.read32 p ≠ MB2_TAG_TYPE_MMAP)
    (hstep : wadd p (alignUp32 (m.read32 (p + 4)) 8) = p) (fuel : ℕ) : Pmm.tagLoop m hi fuel s p = .error .outOfFuel := by
  induction fuel with
  | zero => rfl
  | succ fuel ih =>
      have htag : s.applyTag m p = .ok s := if_neg ht
      rw [Pmm.tagLoop, if_pos hp, if_neg h0, htag, hstep]
      exact ih

/-- A block whose first tag has type 1 and size 0, and one with a memory map of entry size 0. -/
theorem mb2_walks_unsafe :
    (¬ WalksReturn (wordMem 0x10000 [24, 1, 8 * 2 ^ 32]) Pmm.zeroed 0x10000 ∧
      ∀ fuel, Pmm.pmmInit fuel (wordMem 0x10000 [24, 1, 8 * 2 ^ 32]) Pmm.zeroed 0x10000 = .error .outOfFuel) ∧
    Pmm.pmmInit 2 (wordMem 0x10000 [32, 6 + 16 * 2 ^ 32, 0, 8 * 2 ^ 32]) Pmm.zeroed 0x10000 = .error (.panic "Divide by Zero") := by
  have hend : wadd 0x10000 ((wordMem 0x10000 [24, 1, 8 * 2 ^ 32]).read32 0x10000) = 0x10018 := by decide +kernel
  have hstart : wadd 0x10000 8 = 0x10008 := by decide
  have h0 : (wordMem 0x10000 [24, 1, 8 * 2 ^ 32]).read32 0x10008 = 1 := by decide +kernel
  have hstep : wadd 0x10008 (alignUp32 ((wordMem 0x10000 [24, 1, 8 * 2 ^ 32]).read32 (0x10008 + 4)) 8) = 0x10008 := by
    decide +kernel
  have hread : Pmm.mapRead 2 (wordMem 0x10000 [32, 6 + 16 * 2 ^ 32, 0, 8 * 2 ^ 32]) 0x10000 = .error (.panic "Divide by Zero") := by
    decide +kernel
  refine ⟨⟨fun h => ?_, fun fuel => ?_⟩, ?_⟩
  · obtain ⟨fuel, s', hs'⟩ := h.init
    rw [hend, hstart] at hs'
    exact Pmm.tagLoopM_stuck (by norm_num) (by omega) hstep hs'
  · unfold Pmm.pmmInit
    rw [if_neg (by norm_num), hend, hstart, tagLoop_stuck (by norm_num) (by omega) (by rw [h0]; decide) hstep]
    rfl
  · rw [Pmm.pmmInit_eq (by norm_num), hread]
    rfl

end HeroOS
