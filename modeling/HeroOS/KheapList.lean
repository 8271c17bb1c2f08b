import HeroOS.KheapBlocks
import HeroOS.LinkedList

/-! # The block list of the heap

`HeapList m head bs`: the list starting at `head` consists of the blocks `bs`, doubly linked, each
with header and footer in place, and no two of them sharing a byte.

All operations rewrite a middle part of the list in place.  `HeapList.replace` is the rule for such
rewrites: the new blocks occupy no memory but that of the old ones, and outside it only the back
link of the block that follows is written.  Its three instances are changing the flag of a block
(`HeapList.writeBlock`), merging two adjacent free blocks (`HeapList.coalesce`) and taking a free
block, split or whole (`HeapList.takeBlock`). -/

namespace HeroOS

open Word LinkedList Mem

/-- The list starting at `head` consists of the blocks `bs`. -/
structure HeapList (m : Mem) (head : ℕ) (bs : List Block) : Prop where
  head_eq : head = (bs.map Block.addr).headD 0
  links : Seg m.hdrNext m.hdrPrev 0 (bs.map Block.addr) 0
  blocks : ∀ b ∈ bs, BlockAt m b
  nonnull : ∀ b ∈ bs, b.addr ≠ 0
  bound : ∀ b ∈ bs, b.stop < 2 ^ 64
  apart : bs.Pairwise Block.Apart

variable {m m' : Mem} {head : ℕ} {bs xs ys mid mid' : List Block}

/-- The list depends only on headers and footers. -/
theorem HeapList.congr (h : HeapList m head bs) (hm : ∀ b ∈ bs, ∀ x ∈ b.tags, m' x = m x) :
    HeapList m' head bs := by
  refine ⟨h.head_eq, ?_, ?_, h.nonnull, h.bound, h.apart⟩
  · refine h.links.congr (fun a ha => ?_) (fun a ha => ?_)
    · obtain ⟨b, hb, rfl⟩ := List.mem_map.mp ha
      exact hdrNext_congr (fun x h1 h2 => hm b hb x (.inl ⟨by omega, by omega⟩))
    · obtain ⟨b, hb, rfl⟩ := List.mem_map.mp ha
      exact hdrPrev_congr (fun x h1 h2 => hm b hb x (.inl ⟨by omega, by omega⟩))
  · intro b hb
    refine (h.blocks b hb).congr (fun x h1 h2 => hm b hb x (.inl ⟨h1, by omega⟩))
      (fun x h1 h2 => hm b hb x (.inr ⟨h1, ?_⟩))
    simp only [Block.footer, Block.stop] at *
    omega

/-- Only the blocks `mid` and the back link of the first block of `ys` are written. -/
def EditsWithin (m m' : Mem) (mid ys : List Block) : Prop :=
  ∀ x, (∀ b ∈ mid, x < b.addr ∨ b.stop ≤ x) → (∀ y ∈ ys.head?, x < y.addr + 24 ∨ y.addr + 32 ≤ x) → m' x = m x

/-- A block apart from all of these is untouched. -/
theorem EditsWithin.before {b : Block} {x : ℕ} (he : EditsWithin m m' mid ys) (hmid : ∀ c ∈ mid, Block.Apart b c)
    (hys : ∀ c ∈ ys, Block.Apart b c) (h1 : b.addr ≤ x) (h2 : x < b.stop) : m' x = m x := by
  refine he x (fun c hc => ?_) (fun y hy => ?_)
  · have := hmid c hc
    unfold Block.Apart at this
    omega
  · have := hys y (List.mem_of_mem_head? hy)
    unfold Block.Apart Block.stop at *
    omega

/-- Of a block behind `mid`, only the back link of the first one may change. -/
theorem EditsWithin.behind {b : Block} {x : ℕ} (he : EditsWithin m m' mid ys) (hmid : ∀ c ∈ mid, Block.Apart c b)
    (hyy : ys.Pairwise Block.Apart) (hb : b ∈ ys) (h1 : b.addr ≤ x) (h2 : x < b.stop)
    (h3 : b ∈ ys.head? → x < b.addr + 24 ∨ b.addr + 32 ≤ x) : m' x = m x := by
  refine he x (fun c hc => ?_) (fun y hy => ?_)
  · have := hmid c hc
    unfold Block.Apart at this
    omega
  · by_cases hby : b = y
    · rw [← hby] at hy ⊢
      exact h3 hy
    · have : Block.Apart y b := by
        cases ys with
        | nil => cases hb
        | cons y' ys =>
            obtain rfl := Option.some.inj hy
            exact (List.pairwise_cons.mp hyy).1 b ((List.mem_cons.mp hb).resolve_left hby)
      unfold Block.Apart Block.stop at *
      omega

/-- The links of the blocks behind `mid`, once the back link of the first one has been set to `p`. -/
theorem EditsWithin.seg_behind {p p' nx : ℕ} (he : EditsWithin m m' mid ys)
    (hmid : ∀ b ∈ ys, ∀ c ∈ mid, Block.Apart c b) (hyy : ys.Pairwise Block.Apart)
    (hl : Seg m.hdrNext m.hdrPrev p' (ys.map Block.addr) nx) (hys : ∀ y ∈ ys.head?, m'.hdrPrev y.addr = p) :
    Seg m'.hdrNext m'.hdrPrev p (ys.map Block.addr) nx := by
  refine hl.relink (fun a ha => ?_) (fun a ha => ?_) (fun a ha => ?_)
  · obtain ⟨b, hb, rfl⟩ := List.mem_map.mp ha
    exact hdrNext_congr (fun x h1 h2 => he.behind (hmid b hb) hyy hb (by omega) (by unfold Block.stop; omega)
      (fun _ => by omega))
  · cases ys with
    | nil => cases ha
    | cons y ys =>
        obtain ⟨b, hb, rfl⟩ := List.mem_map.mp ha
        -- a later block differs from the first one
        have hne : ¬ b ∈ (y :: ys).head? := by
          intro hb'
          obtain rfl := Option.some.inj hb'
          have := (List.pairwise_cons.mp hyy).1 _ hb
          unfold Block.Apart Block.stop at this
          omega
        have hb' : b ∈ y :: ys := List.mem_cons_of_mem _ hb
        exact hdrPrev_congr (fun x h1 h2 => he.behind (hmid b hb') hyy hb' (by omega)
          (by unfold Block.stop; omega) (fun hb' => absurd hb' hne))
  · cases ys with
    | nil => cases ha
    | cons y ys =>
        obtain rfl := Option.some.inj ha
        exact hys y rfl

/-- The links of the blocks in front of `mid`. -/
theorem EditsWithin.seg_before {p nx : ℕ} (he : EditsWithin m m' mid ys)
    (hmid : ∀ b ∈ xs, ∀ c ∈ mid, Block.Apart b c) (hys : ∀ b ∈ xs, ∀ c ∈ ys, Block.Apart b c)
    (hl : Seg m.hdrNext m.hdrPrev p (xs.map Block.addr) nx) :
    Seg m'.hdrNext m'.hdrPrev p (xs.map Block.addr) nx := by
  refine hl.congr (fun a ha => ?_) (fun a ha => ?_)
  · obtain ⟨b, hb, rfl⟩ := List.mem_map.mp ha
    exact hdrNext_congr (fun x h1 h2 => he.before (hmid b hb) (hys b hb) (by omega) (by unfold Block.stop; omega))
  · obtain ⟨b, hb, rfl⟩ := List.mem_map.mp ha
    exact hdrPrev_congr (fun x h1 h2 => he.before (hmid b hb) (hys b hb) (by omega) (by unfold Block.stop; omega))

/-- A list starts at the same address when the replaced part does. -/
theorem headD_replaced (hne : mid ≠ []) (hne' : mid' ≠ [])
    (hfirst : (mid'.map Block.addr).headD 0 = (mid.map Block.addr).headD 0) (ys : List ℕ) :
    (mid'.map Block.addr ++ ys).headD 0 = (mid.map Block.addr ++ ys).headD 0 := by
  cases mid with
  | nil => exact absurd rfl hne
  | cons b mid =>
      cases mid' with
      | nil => exact absurd rfl hne'
      | cons b' mid' => exact hfirst

/-- **Replacing a middle part of the list.** -/
theorem HeapList.replace (mid mid' : List Block) (h : HeapList m head (xs ++ (mid ++ ys))) (hne : mid ≠ [])
    (hne' : mid' ≠ []) (hfirst : (mid'.map Block.addr).headD 0 = (mid.map Block.addr).headD 0)
    (hin : ∀ b' ∈ mid', ∀ c, (∀ b ∈ mid, Block.Apart b c) → Block.Apart b' c)
    (hapart : mid'.Pairwise Block.Apart)
    (hblocks : ∀ b ∈ mid', BlockAt m' b ∧ b.addr ≠ 0 ∧ b.stop < 2 ^ 64)
    (hseg : Seg m'.hdrNext m'.hdrPrev ((xs.map Block.addr).getLastD 0) (mid'.map Block.addr)
      ((ys.map Block.addr).headD 0))
    (hys : ∀ y ∈ ys.head?, m'.hdrPrev y.addr = (mid'.map Block.addr).getLastD 0)
    (he : EditsWithin m m' mid ys) :
    HeapList m' head (xs ++ (mid' ++ ys)) := by
  obtain ⟨hxx, hmy, hxmy⟩ := List.pairwise_append.mp h.apart
  obtain ⟨_, hyy, hmidys⟩ := List.pairwise_append.mp hmy
  have hxmid : ∀ b ∈ xs, ∀ c ∈ mid, Block.Apart b c := fun b hb c hc =>
    hxmy b hb c (List.mem_append_left _ hc)
  have hxys : ∀ b ∈ xs, ∀ c ∈ ys, Block.Apart b c := fun b hb c hc =>
    hxmy b hb c (List.mem_append_right _ hc)
  have hysmid : ∀ b ∈ ys, ∀ c ∈ mid, Block.Apart c b := fun b hb c hc => hmidys c hc b hb
  have hmem : ∀ b ∈ xs ++ (mid' ++ ys), b ∈ xs ∨ b ∈ mid' ∨ b ∈ ys := by
    intro b hb
    simpa only [List.mem_append] using hb
  have hold : ∀ b, b ∈ xs ∨ b ∈ ys → b ∈ xs ++ (mid ++ ys) := by
    intro b hb
    simp only [List.mem_append]
    exact hb.imp_right .inr
  refine ⟨?_, ?_, ?_, ?_, ?_, ?_⟩
  · rw [h.head_eq]
    cases xs with
    | cons x xs => rfl
    | nil =>
        simp only [List.nil_append, List.map_append]
        exact (headD_replaced hne hne' hfirst _).symm
  · have hl := h.links
    rw [List.map_append, List.map_append, seg_append, seg_append] at hl
    obtain ⟨hlx, hlm, hly⟩ := hl
    rw [List.map_append, List.map_append, seg_append, seg_append]
    refine ⟨?_, hseg, ?_⟩
    · rw [headD_replaced hne hne' hfirst]
      exact he.seg_before hxmid hxys hlx
    · have hlast : ((mid'.map Block.addr).getLastD ((xs.map Block.addr).getLastD 0)) =
          (mid'.map Block.addr).getLastD 0 := by
        cases mid' with
        | nil => exact absurd rfl hne'
        | cons b' mid' => rfl
      rw [hlast]
      exact he.seg_behind hysmid hyy hly hys
  · intro b hb
    rcases hmem b hb with hb | hb | hb
    · exact (h.blocks b (hold b (.inl hb))).congr_extent
        (fun x h1 h2 _ => he.before (hxmid b hb) (hxys b hb) h1 h2)
    · exact (hblocks b hb).1
    · exact (h.blocks b (hold b (.inr hb))).congr_extent
        (fun x h1 h2 h3 => he.behind (hysmid b hb) hyy hb h1 h2 (fun _ => by omega))
  · intro b hb
    rcases hmem b hb with hb | hb | hb
    · exact h.nonnull b (hold b (.inl hb))
    · exact (hblocks b hb).2.1
    · exact h.nonnull b (hold b (.inr hb))
  · intro b hb
    rcases hmem b hb with hb | hb | hb
    · exact h.bound b (hold b (.inl hb))
    · exact (hblocks b hb).2.2
    · exact h.bound b (hold b (.inr hb))
  · refine List.pairwise_append.mpr ⟨hxx, List.pairwise_append.mpr ⟨hapart, hyy, ?_⟩, ?_⟩
    · intro b hb c hc
      exact hin b hb c (fun b' hb' => hmidys b' hb' c hc)
    · intro b hb c hc
      rcases List.mem_append.mp hc with hc | hc
      · exact (hin c hc b (fun c' hc' => (hxmid b hb c' hc').symm)).symm
      · exact hxys b hb c hc

/-! ### The three rewrites -/

/-- The links of a block, read off the list. -/
theorem HeapList.links_at {b : Block} (h : HeapList m head (xs ++ b :: ys)) :
    m.hdrPrev b.addr = (xs.map Block.addr).getLastD 0 ∧
      m.hdrNext b.addr = (ys.map Block.addr).headD 0 := by
  have hl := h.links
  rw [List.map_append, List.map_cons] at hl
  exact hl.links

/-- Writing a block with its own size changes its flag and nothing else. -/
theorem HeapList.writeBlock {b : Block} (h : HeapList m head (xs ++ b :: ys)) (f : Bool) :
    HeapList (m.writeBlock b.addr b.size f) head (xs ++ ⟨b.addr, b.size, f⟩ :: ys) := by
  have hb : b ∈ xs ++ b :: ys := List.mem_append_right _ List.mem_cons_self
  have hlt := h.bound b hb
  unfold Block.stop at hlt
  obtain ⟨hp, hn⟩ := h.links_at
  have happ := (List.pairwise_append.mp h.apart).2.1
  refine HeapList.replace [b] [⟨b.addr, b.size, f⟩] h (by simp) (by simp) rfl
    ?_ (List.pairwise_singleton _ _) ?_ ⟨?_, ?_, trivial⟩ ?_ ?_
  · intro b' hb' c hc
    obtain rfl := List.mem_singleton.mp hb'
    exact hc b List.mem_cons_self
  · intro b' hb'
    obtain rfl := List.mem_singleton.mp hb'
    exact ⟨blockAt_writeBlock hlt, h.nonnull b hb, hlt⟩
  · show (m.writeBlock b.addr b.size f).read64 (b.addr + 24) = _
    rw [read64_writeBlock hlt (by omega) (by omega)]
    exact hp
  · show (m.writeBlock b.addr b.size f).read64 (b.addr + 32) = _
    rw [read64_writeBlock hlt (by omega) (by omega)]
    exact hn
  · intro y hy
    have hyb := (List.pairwise_cons.mp happ).1 y (List.mem_of_mem_head? hy)
    unfold Block.Apart Block.stop at hyb
    have hpy : m.hdrPrev y.addr = b.addr := by
      cases ys with
      | nil => cases hy
      | cons y' ys =>
          obtain rfl := Option.some.inj hy
          have h' : HeapList m head ((xs ++ [b]) ++ y' :: ys) := by simpa using h
          simpa using h'.links_at.1
    rw [hdrPrev, read64_writeBlock hlt (by omega) (by omega)]
    exact hpy
  · intro x hx _
    have := hx b List.mem_cons_self
    unfold Block.stop at this
    exact writeBlock_of_outside (by omega) (by omega) (by omega)

/-- What holds of the block that follows holds of the forward link, where that is not empty. -/
theorem headD_addr {P : ℕ → Prop} (h : ∀ y ∈ ys.head?, P y.addr) (h0 : (ys.map Block.addr).headD 0 ≠ 0) :
    P ((ys.map Block.addr).headD 0) := by
  cases ys with
  | nil => exact absurd rfl h0
  | cons y ys => exact h y rfl

/-- And conversely, as no block is at address 0. -/
theorem head?_addr {P : ℕ → Prop} (hne : ∀ y ∈ ys, y.addr ≠ 0)
    (h : (ys.map Block.addr).headD 0 ≠ 0 → P ((ys.map Block.addr).headD 0)) : ∀ y ∈ ys.head?, P y.addr := by
  intro y hy
  cases ys with
  | nil => cases hy
  | cons y' ys =>
      obtain rfl := Option.some.inj hy
      exact h (hne _ List.mem_cons_self)

/-- A byte of no header or footer lies outside the back link. -/
theorem outside_prev {b : Block} {x : ℕ} (hx : x ∉ b.tags) : x < b.addr + 24 ∨ b.addr + 32 ≤ x := by
  simp only [Block.tags, Set.mem_union, Set.mem_Ico] at hx
  omega

/-- The blocks behind two adjacent ones lie outside both. -/
theorem HeapList.outside_pair {a b : Block} (h : HeapList m head (xs ++ a :: b :: ys)) (hadj : b.addr = a.stop) :
    ∀ y ∈ ys, y.stop ≤ a.addr ∨ b.stop ≤ y.addr := by
  intro y hy
  obtain ⟨haall, hball⟩ := List.pairwise_cons.mp (List.pairwise_append.mp h.apart).2.1
  have hay := haall y (List.mem_cons_of_mem _ hy)
  have hby := (List.pairwise_cons.mp hball).1 y hy
  unfold Block.Apart Block.stop at *
  omega

/-- So does the forward link. -/
theorem HeapList.next_outside_pair {a b : Block} (h : HeapList m head (xs ++ a :: b :: ys)) (hadj : b.addr = a.stop)
    (h0 : (ys.map Block.addr).headD 0 ≠ 0) :
    (ys.map Block.addr).headD 0 + 40 ≤ a.addr ∨ b.stop ≤ (ys.map Block.addr).headD 0 := by
  refine headD_addr (P := fun p => p + 40 ≤ a.addr ∨ b.stop ≤ p) (fun y hy => ?_) h0
  have hout := h.outside_pair hadj y (List.mem_of_mem_head? hy)
  unfold Block.stop at *
  omega

/-- What a merge in the list writes. -/
theorem HeapList.coalesce_spec {a b : Block} (h : HeapList m head (xs ++ a :: b :: ys)) (hadj : b.addr = a.stop) :
    CoalesceSpec m (m.coalesce a.addr b.addr) a.addr a.size b.size ((ys.map Block.addr).headD 0) := by
  have hma : a ∈ xs ++ a :: b :: ys := by simp
  have hmb : b ∈ xs ++ a :: b :: ys := by simp
  have h' : HeapList m head ((xs ++ [a]) ++ b :: ys) := by simpa using h
  exact Mem.coalesce_spec (h.blocks a hma).size (h.blocks b hmb).size h'.links_at.2 (by rw [hadj]; rfl)
    (h.bound b hmb) (h.next_outside_pair hadj)

/-- All other bytes stay. -/
theorem HeapList.coalesce_frame {a b : Block} {x : ℕ} (h : HeapList m head (xs ++ a :: b :: ys)) (hadj : b.addr = a.stop)
    (h1 : x < a.addr + 8 ∨ a.addr + 16 ≤ x) (h2 : x < a.addr + 32 ∨ a.addr + 40 ≤ x)
    (h3 : ∀ y ∈ ys.head?, x < y.addr + 24 ∨ y.addr + 32 ≤ x) (h4 : x < b.footer + 8 ∨ b.footer + 16 ≤ x) :
    m.coalesce a.addr b.addr x = m x := by
  have hadj' : b.addr = a.addr + 56 + a.size := hadj
  unfold Block.footer at h4
  exact (h.coalesce_spec hadj).frame x h1 h2 (headD_addr (P := fun p => x < p + 24 ∨ p + 32 ≤ x) h3) (by omega)

/-- In particular the magic number of the absorbed block. -/
theorem HeapList.coalesce_magic {a b : Block} (h : HeapList m head (xs ++ a :: b :: ys)) (hadj : b.addr = a.stop) :
    (m.coalesce a.addr b.addr).hdrMagic b.addr = m.hdrMagic b.addr := by
  have hadj' : b.addr = a.addr + 56 + a.size := hadj
  refine read64_congr fun x hx => ?_
  rw [Set.mem_Ico] at hx
  refine h.coalesce_frame hadj (by omega) (by omega) (fun y hy => ?_) (by unfold Block.footer; omega)
  have hout := h.outside_pair hadj y (List.mem_of_mem_head? hy)
  unfold Block.stop at hout
  omega

/-- Merging two adjacent free blocks writes only headers and footers. -/
theorem HeapList.coalesce {a b : Block} (h : HeapList m head (xs ++ a :: b :: ys))
    (ha : a.free = true) (hb : b.free = true) (hadj : b.addr = a.stop) :
    HeapList (m.coalesce a.addr b.addr) head (xs ++ a.join b :: ys) ∧
      ∀ x, (∀ c ∈ xs ++ a :: b :: ys, x ∉ c.tags) → m.coalesce a.addr b.addr x = m x := by
  have hma : a ∈ xs ++ a :: b :: ys := by simp
  have hmb : b ∈ xs ++ a :: b :: ys := by simp
  have hlt := h.bound b hmb
  have hspec := h.coalesce_spec hadj
  obtain ⟨hpa, _⟩ := h.links_at
  constructor
  · refine HeapList.replace [a, b] [a.join b] h (by simp) (by simp) rfl
      ?_ (List.pairwise_singleton _ _) ?_ ⟨?_, hspec.next, trivial⟩ ?_ ?_
    · intro b' hb' c hc
      obtain rfl := List.mem_singleton.mp hb'
      have h1 := hc a (by simp)
      have h2 := hc b (by simp)
      simp only [Block.Apart, Block.join, Block.stop] at *
      omega
    · intro b' hb'
      obtain rfl := List.mem_singleton.mp hb'
      refine ⟨hspec.blockAt (h.blocks a hma) (h.blocks b hmb) ha hb hadj (h.next_outside_pair hadj), h.nonnull a hma, ?_⟩
      simp only [Block.join, Block.stop] at *
      omega
    · rw [← hpa]
      refine hdrPrev_congr (fun x h1 h2 => h.coalesce_frame hadj ?_ ?_ (fun y hy => ?_) ?_)
      · dsimp only [Block.join] at h1
        omega
      · dsimp only [Block.join] at h2
        omega
      · have hout := h.outside_pair hadj y (List.mem_of_mem_head? hy)
        simp only [Block.join, Block.stop] at *
        omega
      · simp only [Block.footer, Block.join, Block.stop] at *
        omega
    · exact head?_addr (P := fun p => (m.coalesce a.addr b.addr).hdrPrev p = a.addr)
        (fun y hy => h.nonnull y (by simp [hy])) hspec.prev
    · intro x hx hy
      have h1 := hx a (by simp)
      have h2 := hx b (by simp)
      refine h.coalesce_frame hadj ?_ ?_ hy ?_
      all_goals
        simp only [Block.footer, Block.stop] at *
        omega
  · intro x hx
    have h1 := hx a hma
    have h2 := hx b hmb
    refine h.coalesce_frame hadj ?_ ?_ (fun y hy => ?_) ?_
    · simp only [Block.tags, Set.mem_union, Set.mem_Ico] at h1
      omega
    · simp only [Block.tags, Set.mem_union, Set.mem_Ico] at h1
      omega
    · have hmem := List.mem_of_mem_head? hy
      exact outside_prev (hx y (by simp [hmem]))
    · simp only [Block.tags, Set.mem_union, Set.mem_Ico, Block.footer, Block.stop] at h2 ⊢
      omega

/-- Taking a free block writes only inside it and in the header of the block that follows. -/
theorem HeapList.takeBlock {c : Block} {size : ℕ} (h : HeapList m head (xs ++ c :: ys))
    (hfit : size + 56 ≤ c.size) :
    HeapList (m.takeBlock c.addr size) head (xs ++ (c.carve size ++ ys)) ∧
      ∀ x, x ∉ c.extent → (∀ b ∈ ys, x ∉ b.tags) → m.takeBlock c.addr size x = m x := by
  have hc : c ∈ xs ++ c :: ys := List.mem_append_right _ List.mem_cons_self
  have hlt := h.bound c hc
  have hcz := (h.blocks c hc).size
  unfold Block.stop at hlt
  by_cases hsplit : size + 88 ≤ c.size
  · obtain ⟨hp, hn⟩ := h.links_at
    have happ := (List.pairwise_append.mp h.apart).2.1
    have hcys : ∀ y ∈ ys, y.addr + 56 ≤ c.addr ∨ c.addr + 56 + c.size ≤ y.addr := by
      intro y hy
      have := (List.pairwise_cons.mp happ).1 y hy
      unfold Block.Apart Block.stop at this
      omega
    have hnx : (ys.map Block.addr).headD 0 ≠ 0 →
        (ys.map Block.addr).headD 0 + 40 ≤ c.addr ∨ c.addr + 56 + c.size ≤ (ys.map Block.addr).headD 0 := by
      apply headD_addr (P := fun p => p + 40 ≤ c.addr ∨ c.addr + 56 + c.size ≤ p)
      intro y hy
      have hapart := hcys y (List.mem_of_mem_head? hy)
      omega
    have hspec := takeBlock_split_spec hcz hn hsplit hlt hnx
    have hframe : ∀ x, (x < c.addr ∨ c.addr + 56 + c.size ≤ x) →
        (∀ y ∈ ys.head?, x < y.addr + 24 ∨ y.addr + 32 ≤ x) → m.takeBlock c.addr size x = m x := by
      intro x h1 h2
      exact hspec.frame x h1 (headD_addr (P := fun p => x < p + 24 ∨ p + 32 ≤ x) h2)
    rw [Block.carve, if_pos hsplit]
    constructor
    · refine HeapList.replace [c] _ h (by simp) (by simp) rfl ?_ ?_ ?_ ?_ ?_ ?_
      · intro b' hb' d hd
        have := hd c List.mem_cons_self
        rcases List.mem_pair.mp hb' with rfl | rfl
        all_goals
          simp only [Block.Apart, Block.stop] at *
          omega
      · refine List.pairwise_pair.mpr (.inl ?_)
        simp only [Block.stop]
        omega
      · intro b' hb'
        rcases List.mem_pair.mp hb' with rfl | rfl
        · refine ⟨hspec.used, h.nonnull c hc, ?_⟩
          simp only [Block.stop]
          omega
        · refine ⟨hspec.rest, ?_, ?_⟩
          all_goals
            simp only [Block.stop]
            omega
      · exact ⟨hspec.usedPrev.trans hp, hspec.usedNext, hspec.restPrev, hspec.restNext, trivial⟩
      · exact head?_addr (P := fun p => (m.takeBlock c.addr size).hdrPrev p = c.addr + 56 + size)
          (fun y hy => h.nonnull y (by simp [hy])) hspec.prev
      · intro x hx hy
        have := hx c List.mem_cons_self
        unfold Block.stop at this
        exact hframe x (by omega) hy
    · intro x hx hy
      simp only [Block.extent, Block.stop, Set.mem_Ico] at hx
      exact hframe x (by omega) (fun y hy' => outside_prev (hy y (List.mem_of_mem_head? hy')))
  · have e := takeBlock_whole hcz hfit (by omega) hlt
    rw [e, Block.carve, if_neg hsplit]
    refine ⟨h.writeBlock false, fun x hx _ => ?_⟩
    simp only [Block.extent, Block.stop, Set.mem_Ico] at hx
    exact writeBlock_of_outside (by omega) (by omega) (by omega)

end HeroOS
