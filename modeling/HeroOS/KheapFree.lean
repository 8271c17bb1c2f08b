import HeroOS.KheapList

/-! # Releasing a block

`kfree` marks a block free and lets it absorb its free list neighbours.  On the block list this is
the relation `Released xs h ys bs'`.  It is what `kfree` does to a well-formed list as long as the
free neighbours are adjacent in memory (`HeapList.kfree`): the code looks only at the list, never at
the addresses.  `NeighboursAdjacent` states this condition on the memory.

A release covers no byte that the old blocks did not cover (`Released.covered`), keeps the other
used blocks (`Released.used_of_mem`), keeps a tiling a tiling (`Released.tiles`) and leaves no two free
neighbours (`Released.isolated`). -/

namespace HeroOS

open Word LinkedList Mem

/-! ### Tilings -/

/-- The blocks follow each other without gaps from `a` to `e`. -/
def Tiles : ℕ → List Block → ℕ → Prop
  | a, [], e => a = e
  | a, b :: bs, e => b.addr = a ∧ Tiles b.stop bs e

theorem tiles_append : ∀ {xs : List Block} {a e : ℕ} {ys : List Block},
    Tiles a (xs ++ ys) e ↔ ∃ c, Tiles a xs c ∧ Tiles c ys e
  | [], a, e, ys => by simp [Tiles]
  | b :: xs, a, e, ys => by simp [Tiles, tiles_append, and_assoc]

/-- No two neighbours are both free. -/
def Isolated (bs : List Block) : Prop := bs.IsChain (fun a b => ¬ (a.free = true ∧ b.free = true))

/-! ### The relation on block lists -/

/-- The free block `h` absorbs the next block if that is free. -/
inductive AbsorbNext (h : Block) : List Block → Block → List Block → Prop
  | skip {ys : List Block} : (∀ n ∈ ys.head?, n.free = false) → AbsorbNext h ys h ys
  | join {n : Block} {ys : List Block} :
      n.free = true → n.addr = h.stop → AbsorbNext h (n :: ys) (h.join n) ys

/-- The free block `h` is absorbed by the previous block if that is free. -/
inductive AbsorbPrev (h : Block) : List Block → List Block → Block → Prop
  | skip {xs : List Block} : (∀ p ∈ xs.getLast?, p.free = false) → AbsorbPrev h xs xs h
  | join {p : Block} {xs : List Block} :
      p.free = true → h.addr = p.stop → AbsorbPrev h (xs ++ [p]) xs (p.join h)

/-- The list after the block `h` between `xs` and `ys` has been released. -/
def Released (xs : List Block) (h : Block) (ys bs' : List Block) : Prop :=
  ∃ h₁ ys' xs' h', AbsorbNext ⟨h.addr, h.size, true⟩ ys h₁ ys' ∧ AbsorbPrev h₁ xs xs' h' ∧
    bs' = xs' ++ h' :: ys'

variable {xs ys xs' ys' bs' : List Block} {h h' : Block}

theorem mem_extent_join {a b : Block} {x : ℕ} (hadj : b.addr = a.stop) :
    x ∈ (a.join b).extent ↔ x ∈ a.extent ∨ x ∈ b.extent := by
  simp only [Block.extent, Block.join, Block.stop, Set.mem_Ico] at *
  omega

theorem tags_join {a b : Block} {x : ℕ} (hadj : b.addr = a.stop) (hx : x ∈ (a.join b).tags) :
    x ∈ a.tags ∨ x ∈ b.tags := by
  simp only [Block.tags, Block.join, Block.footer, Block.stop, Set.mem_union, Set.mem_Ico] at *
  omega

theorem AbsorbNext.free (hn : AbsorbNext h ys h' ys') (hf : h.free = true) : h'.free = true := by
  cases hn with
  | skip _ => exact hf
  | join _ _ => rfl

theorem AbsorbNext.addr (hn : AbsorbNext h ys h' ys') : h'.addr = h.addr := by
  cases hn <;> rfl

/-- A release covers no new byte. -/
theorem Released.covered (hr : Released xs h ys bs') :
    ∀ b ∈ bs', ∀ x ∈ b.extent, ∃ c ∈ xs ++ h :: ys, x ∈ c.extent := by
  obtain ⟨h₁, ys', xs', h', hn, hp, rfl⟩ := hr
  have hn' : ∀ b ∈ h₁ :: ys', ∀ x ∈ b.extent, ∃ c ∈ h :: ys, x ∈ c.extent := by
    intro b hb x hx
    cases hn with
    | skip _ =>
        rcases List.mem_cons.mp hb with rfl | hb
        · exact ⟨h, List.mem_cons_self, hx⟩
        · exact ⟨b, List.mem_cons_of_mem _ hb, hx⟩
    | @join n _ _ hadj =>
        rcases List.mem_cons.mp hb with rfl | hb
        · rcases (mem_extent_join hadj).mp hx with hx | hx
          · exact ⟨h, List.mem_cons_self, hx⟩
          · exact ⟨n, List.mem_cons_of_mem _ List.mem_cons_self, hx⟩
        · exact ⟨b, List.mem_cons_of_mem _ (List.mem_cons_of_mem _ hb), hx⟩
  intro b hb x hx
  cases hp with
  | skip _ =>
      rcases List.mem_append.mp hb with hb | hb
      · exact ⟨b, List.mem_append_left _ hb, hx⟩
      · obtain ⟨c, hc, hxc⟩ := hn' b hb x hx
        exact ⟨c, List.mem_append_right _ hc, hxc⟩
  | @join p _ _ hadj =>
      rcases List.mem_append.mp hb with hb | hb
      · exact ⟨b, List.mem_append_left _ (List.mem_append_left _ hb), hx⟩
      · rcases List.mem_cons.mp hb with rfl | hb
        · rcases (mem_extent_join hadj).mp hx with hx | hx
          · exact ⟨p, List.mem_append_left _ (List.mem_append_right _ List.mem_cons_self), hx⟩
          · obtain ⟨c, hc, hxc⟩ := hn' h₁ List.mem_cons_self x hx
            exact ⟨c, List.mem_append_right _ hc, hxc⟩
        · obtain ⟨c, hc, hxc⟩ := hn' b (List.mem_cons_of_mem _ hb) x hx
          exact ⟨c, List.mem_append_right _ hc, hxc⟩

/-- A release keeps every used block but the released one. -/
theorem Released.used_of_mem (hr : Released xs h ys bs') {b : Block} (hb : b ∈ xs ++ h :: ys)
    (hu : b.free = false) (hne : b ≠ h) : b ∈ bs' := by
  obtain ⟨h₁, ys', xs', h', hn, hp, rfl⟩ := hr
  have hb' : b ∈ xs ∨ b ∈ ys := by
    rcases List.mem_append.mp hb with hb | hb
    · exact .inl hb
    · exact .inr ((List.mem_cons.mp hb).resolve_left hne)
  rcases hb' with hb' | hb'
  · refine List.mem_append_left _ ?_
    cases hp with
    | skip _ => exact hb'
    | @join p _ hf _ =>
        rcases List.mem_append.mp hb' with hb' | hb'
        · exact hb'
        · obtain rfl := List.mem_singleton.mp hb'
          rw [hf] at hu
          cases hu
  · refine List.mem_append_right _ (List.mem_cons_of_mem _ ?_)
    cases hn with
    | skip _ => exact hb'
    | join hf _ =>
        rcases List.mem_cons.mp hb' with rfl | hb'
        · rw [hf] at hu
          cases hu
        · exact hb'

/-- The released block has become part of a free one. -/
theorem Released.merged (hr : Released xs h ys bs') : ∃ f ∈ bs', f.free = true ∧ h.extent ⊆ f.extent := by
  obtain ⟨h₁, ys', xs', h', hn, hp, rfl⟩ := hr
  have hn' : h.extent ⊆ h₁.extent := by
    cases hn with
    | skip _ => exact fun x hx => hx
    | join _ hadj => exact fun x hx => (mem_extent_join hadj).mpr (.inl hx)
  refine ⟨h', by simp, ?_⟩
  cases hp with
  | skip _ => exact ⟨hn.free rfl, hn'⟩
  | join _ hadj => exact ⟨rfl, fun x hx => (mem_extent_join hadj).mpr (.inr (hn' hx))⟩

/-- A tiling stays a tiling of the same range. -/
theorem Released.tiles {a e : ℕ} (hr : Released xs h ys bs') (ht : Tiles a (xs ++ h :: ys) e) :
    Tiles a bs' e := by
  obtain ⟨h₁, ys', xs', h', hn, hp, rfl⟩ := hr
  obtain ⟨c, hxs, hc, hys⟩ := tiles_append.mp ht
  have hn' : Tiles c (h₁ :: ys') e := by
    cases hn with
    | skip _ => exact ⟨hc, hys⟩
    | @join n _ _ hadj =>
        obtain ⟨_, hys⟩ := hys
        refine ⟨hc, ?_⟩
        rwa [show (Block.join ⟨h.addr, h.size, true⟩ n).stop = n.stop by
          simp only [Block.join, Block.stop] at *
          omega]
  cases hp with
  | skip _ => exact tiles_append.mpr ⟨c, hxs, hn'⟩
  | @join p _ _ hadj =>
      obtain ⟨d, hxs', hd, hp'⟩ := tiles_append.mp hxs
      refine tiles_append.mpr ⟨d, hxs', hd, ?_⟩
      rw [show (p.join h₁).stop = h₁.stop by
        simp only [Block.join, Block.stop] at *
        omega]
      exact hn'.2

/-- After a release no two neighbours are free. -/
theorem Released.isolated (hr : Released xs h ys bs') (hi : Isolated (xs ++ h :: ys)) :
    Isolated bs' := by
  obtain ⟨h₁, ys', xs', h', hn, hp, rfl⟩ := hr
  unfold Isolated at *
  obtain ⟨hxs, hhys, _⟩ := List.isChain_append.mp hi
  have hys' : ys'.IsChain (fun a b => ¬ (a.free = true ∧ b.free = true)) ∧
      ∀ n ∈ ys'.head?, n.free = false := by
    cases hn with
    | skip hn => exact ⟨(List.isChain_cons.mp hhys).2, hn⟩
    | join hf _ =>
        obtain ⟨h1, h2⟩ := List.isChain_cons.mp (List.isChain_cons.mp hhys).2
        refine ⟨h2, fun n hn => ?_⟩
        have := h1 n hn
        simpa [hf] using this
  have hxs' : xs'.IsChain (fun a b => ¬ (a.free = true ∧ b.free = true)) ∧
      ∀ p ∈ xs'.getLast?, p.free = false := by
    cases hp with
    | skip hp => exact ⟨hxs, hp⟩
    | join hf _ =>
        obtain ⟨h1, _, h3⟩ := List.isChain_append.mp hxs
        refine ⟨h1, fun p hp => ?_⟩
        have := h3 p hp _ rfl
        simpa [hf] using this
  refine List.isChain_append.mpr ⟨hxs'.1, List.isChain_cons.mpr ⟨fun n hn => ?_, hys'.1⟩, fun p hp b hb => ?_⟩
  · simp [hys'.2 n hn]
  · simp [hxs'.2 p hp]

/-! ### What `kfree` does -/

/-- Every free list neighbour of the block at `h` is its neighbour in memory. -/
def NeighboursAdjacent (m : Mem) (h : ℕ) : Prop :=
  (m.hdrNext h ≠ 0 → m.hdrFree (m.hdrNext h) = true →
    m.hdrNext h = h + OVERHEAD + m.hdrSize h) ∧
  (m.hdrPrev h ≠ 0 → m.hdrFree (m.hdrPrev h) = true →
    h = m.hdrPrev h + OVERHEAD + m.hdrSize (m.hdrPrev h))

instance (m : Mem) (h : ℕ) : Decidable (NeighboursAdjacent m h) :=
  inferInstanceAs (Decidable (_ ∧ _))

/-- The same for a block between `xs` and `ys` in a block list. -/
def AdjacentIn (xs : List Block) (h : Block) (ys : List Block) : Prop :=
  (∀ n ∈ ys.head?, n.free = true → n.addr = h.stop) ∧
    (∀ p ∈ xs.getLast?, p.free = true → h.addr = p.stop)

theorem Tiles.adjacentIn {a e : ℕ} (ht : Tiles a (xs ++ h :: ys) e) : AdjacentIn xs h ys := by
  obtain ⟨c, hxs, hc, hys⟩ := tiles_append.mp ht
  constructor
  · intro n hn _
    cases ys with
    | nil => cases hn
    | cons n' ys =>
        obtain rfl := Option.some.inj hn
        exact hys.1
  · intro p hp _
    rcases List.eq_nil_or_concat xs with rfl | ⟨xs, p', rfl⟩
    · cases hp
    · rw [List.concat_eq_append] at *
      obtain rfl : p' = p := by simpa using hp
      obtain ⟨d, _, hd, hdc⟩ := tiles_append.mp hxs
      exact hc.trans hdc.symm

variable {m : Mem} {head : ℕ}

/-- Coalescing with the next block does nothing, or merges the two. -/
theorem HeapList.coalesceNext_cases (hl : HeapList m head (xs ++ h :: ys))
    (hadj : ∀ n ∈ ys.head?, n.free = true → n.addr = h.stop) :
    ((∀ n ∈ ys.head?, n.free = false) ∧ m.coalesceNext h.addr = m) ∨
      ∃ n ys', ys = n :: ys' ∧ n.free = true ∧ n.addr = h.stop ∧ m.coalesceNext h.addr = m.coalesce h.addr n.addr := by
  have hn := hl.links_at.2
  unfold Mem.coalesceNext
  cases ys with
  | nil => exact .inl ⟨by simp, if_neg (by simp [hn])⟩
  | cons n ys =>
      have hnm : n ∈ xs ++ h :: n :: ys := by simp
      rw [show m.hdrNext h.addr = n.addr from hn, (hl.blocks n hnm).flag]
      cases hfn : n.free with
      | false => exact .inl ⟨by simpa using hfn, if_neg (by simp)⟩
      | true => exact .inr ⟨n, ys, rfl, hfn, hadj n rfl hfn, if_pos ⟨hl.nonnull n hnm, rfl⟩⟩

/-- The same with the previous block. -/
theorem HeapList.coalescePrev_cases (hl : HeapList m head (xs ++ h :: ys))
    (hadj : ∀ p ∈ xs.getLast?, p.free = true → h.addr = p.stop) :
    ((∀ p ∈ xs.getLast?, p.free = false) ∧ m.coalescePrev h.addr = m) ∨
      ∃ p xs', xs = xs' ++ [p] ∧ p.free = true ∧ h.addr = p.stop ∧ m.coalescePrev h.addr = m.coalesce p.addr h.addr := by
  have hp := hl.links_at.1
  unfold Mem.coalescePrev
  rcases List.eq_nil_or_concat xs with rfl | ⟨xs, p, rfl⟩
  · exact .inl ⟨by simp, if_neg (by simp [hp])⟩
  · rw [List.concat_eq_append] at *
    have hpm : p ∈ (xs ++ [p]) ++ h :: ys := by simp
    rw [show m.hdrPrev h.addr = p.addr by simpa using hp, (hl.blocks p hpm).flag]
    cases hfp : p.free with
    | false => exact .inl ⟨by simpa using hfp, if_neg (by simp)⟩
    | true => exact .inr ⟨p, xs, rfl, hfp, hadj p (by simp) hfp, if_pos ⟨hl.nonnull p hpm, rfl⟩⟩

theorem HeapList.coalesceNext (hl : HeapList m head (xs ++ h :: ys)) (hf : h.free = true)
    (hadj : ∀ n ∈ ys.head?, n.free = true → n.addr = h.stop) :
    ∃ h' ys', AbsorbNext h ys h' ys' ∧ HeapList (m.coalesceNext h.addr) head (xs ++ h' :: ys') ∧
      ∀ x, (∀ c ∈ xs ++ h :: ys, x ∉ c.tags) → m.coalesceNext h.addr x = m x := by
  obtain ⟨hno, e⟩ | ⟨n, ys', rfl, hfn, ha, e⟩ := hl.coalesceNext_cases hadj
  · rw [e]
    exact ⟨h, ys, .skip hno, hl, fun x _ => rfl⟩
  · rw [e]
    exact ⟨h.join n, ys', .join hfn ha, hl.coalesce hf hfn ha⟩

theorem HeapList.coalescePrev (hl : HeapList m head (xs ++ h :: ys)) (hf : h.free = true)
    (hadj : ∀ p ∈ xs.getLast?, p.free = true → h.addr = p.stop) :
    ∃ xs' h', AbsorbPrev h xs xs' h' ∧ HeapList (m.coalescePrev h.addr) head (xs' ++ h' :: ys) ∧
      ∀ x, (∀ c ∈ xs ++ h :: ys, x ∉ c.tags) → m.coalescePrev h.addr x = m x := by
  obtain ⟨hno, e⟩ | ⟨p, xs', rfl, hfp, ha, e⟩ := hl.coalescePrev_cases hadj
  · rw [e]
    exact ⟨xs, h, .skip hno, hl, fun x _ => rfl⟩
  · rw [e]
    refine ⟨xs', p.join h, .join hfp ha, ?_⟩
    rw [List.append_assoc] at hl ⊢
    exact hl.coalesce hfp hf ha

/-- The adjacency condition, read off the list. -/
theorem HeapList.neighboursAdjacent_iff (hl : HeapList m head (xs ++ h :: ys)) :
    NeighboursAdjacent m h.addr ↔ AdjacentIn xs h ys := by
  obtain ⟨hp, hn⟩ := hl.links_at
  unfold NeighboursAdjacent AdjacentIn
  refine and_congr ?_ ?_
  · cases ys with
    | nil =>
        rw [show m.hdrNext h.addr = 0 from hn]
        simp
    | cons n ys =>
        have hnm : n ∈ xs ++ h :: n :: ys := by simp
        rw [show m.hdrNext h.addr = n.addr from hn, (hl.blocks n hnm).flag, (hl.blocks h (by simp)).size]
        simp only [List.head?_cons, Option.mem_some_iff, forall_eq', ne_eq, hl.nonnull n hnm,
          not_false_eq_true, forall_const]
        rfl
  · rcases List.eq_nil_or_concat xs with rfl | ⟨xs, p, rfl⟩
    · rw [show m.hdrPrev h.addr = 0 from hp]
      simp
    · rw [List.concat_eq_append] at *
      have hpm : p ∈ (xs ++ [p]) ++ h :: ys := by simp
      have e : m.hdrPrev h.addr = p.addr := by simpa using hp
      rw [e, (hl.blocks p hpm).flag, (hl.blocks p hpm).size]
      simp only [List.getLast?_concat, Option.mem_some_iff, forall_eq', ne_eq, hl.nonnull p hpm,
        not_false_eq_true, forall_const]
      rfl

/-- What `kfree` does to a used block of the list. -/
theorem HeapList.kfree_eq (hl : HeapList m head (xs ++ h :: ys)) (hu : h.free = false) : m.kfree (h.addr + 40) =
    ((m.writeBlock h.addr h.size true).coalesceNext h.addr).coalescePrev h.addr := by
  have hm : h ∈ xs ++ h :: ys := by simp
  have hb := hl.blocks h hm
  have hlt := hl.bound h hm
  unfold Block.stop at hlt
  have hw : wsub (h.addr + 40) HEADER_SIZE = h.addr := by
    unfold HEADER_SIZE
    rw [wsub_of_le (by omega) (by omega)]
    omega
  have hmag : m.hdrMagic h.addr = HEAP_MAGIC_USED := by
    rw [hb.magic, hu]
    rfl
  unfold Mem.kfree
  rw [if_neg (by omega)]
  simp only [hw]
  rw [if_neg (by simp [hmag]), hb.size]

/-- **Releasing a used block** whose free neighbours are adjacent: headers and footers are
written, no other byte. -/
theorem HeapList.kfree (hl : HeapList m head (xs ++ h :: ys)) (hu : h.free = false)
    (ha : AdjacentIn xs h ys) :
    ∃ bs', Released xs h ys bs' ∧ HeapList (m.kfree (h.addr + 40)) head bs' ∧
      ∀ x, (∀ c ∈ xs ++ h :: ys, x ∉ c.tags) → m.kfree (h.addr + 40) x = m x := by
  have hm : h ∈ xs ++ h :: ys := by simp
  have hlt := hl.bound h hm
  unfold Block.stop at hlt
  obtain ⟨hadjn, hadjp⟩ := ha
  obtain ⟨h₁, ys', hn, hl₂, hf₂⟩ := (hl.writeBlock true).coalesceNext rfl hadjn
  obtain ⟨xs', h', hp, hl₃, hf₃⟩ := hl₂.coalescePrev (hn.free rfl) (by rw [hn.addr]; exact hadjp)
  rw [show h₁.addr = h.addr from hn.addr] at hl₃ hf₃
  rw [hl.kfree_eq hu]
  refine ⟨_, ⟨h₁, ys', xs', h', hn, hp, rfl⟩, hl₃, fun x hx => ?_⟩
  have hxh : x ∉ h.tags := hx h hm
  have hx₁ : ∀ c ∈ xs ++ ⟨h.addr, h.size, true⟩ :: ys, x ∉ c.tags := by
    intro c hc
    rcases List.mem_append.mp hc with hc | hc
    · exact hx c (List.mem_append_left _ hc)
    · rcases List.mem_cons.mp hc with rfl | hc
      · exact hxh
      · exact hx c (List.mem_append_right _ (List.mem_cons_of_mem _ hc))
  have hx₂ : ∀ c ∈ xs ++ h₁ :: ys', x ∉ c.tags := by
    intro c hc hxc
    cases hn with
    | skip _ => exact hx₁ c hc hxc
    | @join n _ _ hadj =>
        rcases List.mem_append.mp hc with hc | hc
        · exact hx₁ c (List.mem_append_left _ hc) hxc
        · rcases List.mem_cons.mp hc with rfl | hc
          · rcases tags_join hadj hxc with hxc | hxc
            · exact hxh hxc
            · exact hx₁ n (by simp) hxc
          · exact hx₁ c (by simp [hc]) hxc
  rw [hf₃ x hx₂, hf₂ x hx₁]
  simp only [Block.tags, Block.footer, Block.stop, Set.mem_union, Set.mem_Ico] at hxh
  exact writeBlock_of_outside (by omega) (by omega) (by omega)

end HeroOS
