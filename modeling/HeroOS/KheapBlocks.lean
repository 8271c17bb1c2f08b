import HeroOS.Kheap

/-! # Heap blocks in memory

A `Block` is what a header and its footer say: address, payload size and free flag.
`BlockAt m b` says that both are in memory and agree.  The memory effects of `write_block`, of a
merge and of a split are computed here once, field by field: `blockAt_writeBlock`,
`coalesce_spec`, `takeBlock_split_spec` and `takeBlock_whole`. -/

namespace HeroOS

open Word

/-- A block of the heap. -/
structure Block where
  addr : ℕ
  size : ℕ
  free : Bool
deriving DecidableEq, Repr

namespace Block

/-- The address of the footer. -/
def footer (b : Block) : ℕ := b.addr + 40 + b.size

/-- The end of the block: header, payload and footer. -/
def stop (b : Block) : ℕ := b.addr + 56 + b.size

/-- The bytes of header, payload and footer. -/
def extent (b : Block) : Set ℕ := Set.Ico b.addr b.stop

/-- The bytes of header and footer. -/
def tags (b : Block) : Set ℕ := Set.Ico b.addr (b.addr + 40) ∪ Set.Ico b.footer b.stop

/-- The bytes of the payload. -/
def payload (b : Block) : Set ℕ := Set.Ico (b.addr + 40) (b.addr + 40 + b.size)

/-- The free block that a free block `a` and its neighbour `b` merge into. -/
def join (a b : Block) : Block := ⟨a.addr, a.size + 56 + b.size, true⟩

/-- What an allocation of `size` bytes makes of a free block. -/
def carve (c : Block) (size : ℕ) : List Block :=
  if size + 88 ≤ c.size then
    [⟨c.addr, size, false⟩, ⟨c.addr + 56 + size, c.size - size - 56, true⟩]
  else [⟨c.addr, c.size, false⟩]

/-- Two blocks share no byte. -/
def Apart (b c : Block) : Prop := b.stop ≤ c.addr ∨ c.stop ≤ b.addr

theorem Apart.symm {b c : Block} (h : Apart b c) : Apart c b := Or.symm h

instance : Std.Symm Apart := ⟨fun _ _ => Apart.symm⟩

instance (b c : Block) : Decidable (Apart b c) := inferInstanceAs (Decidable (_ ∨ _))

end Block

/-- Header and footer of `b` are in memory and agree. -/
structure BlockAt (m : Mem) (b : Block) : Prop where
  magic : m.hdrMagic b.addr = blockMagic b.free
  size : m.hdrSize b.addr = b.size
  flag : m.hdrFree b.addr = b.free
  footMagic : m.read64 b.footer = blockMagic b.free
  footHeader : m.read64 (b.footer + 8) = b.addr

theorem BlockAt.congr {m m' : Mem} {b : Block} (h : BlockAt m b)
    (hh : ∀ x, b.addr ≤ x → x < b.addr + 17 → m' x = m x)
    (hf : ∀ x, b.footer ≤ x → x < b.footer + 16 → m' x = m x) : BlockAt m' b := by
  refine ⟨?_, ?_, ?_, ?_, ?_⟩
  · rw [← h.magic]
    exact Mem.read64_congr (fun x hx => hh x hx.1 (by have := hx.2; omega))
  · rw [← h.size]
    exact Mem.read64_congr (fun x hx => hh x (by have := hx.1; omega) (by have := hx.2; omega))
  · rw [← h.flag]
    unfold Mem.hdrFree
    rw [hh _ (by omega) (by omega)]
  · rw [← h.footMagic]
    exact Mem.read64_congr (fun x hx => hf x hx.1 (by have := hx.2; omega))
  · rw [← h.footHeader]
    exact Mem.read64_congr (fun x hx => hf x (by have := hx.1; omega) (by have := hx.2; omega))

/-- The contents of a block do not depend on its links. -/
theorem BlockAt.congr_extent {m m' : Mem} {b : Block} (h : BlockAt m b)
    (hm : ∀ x, b.addr ≤ x → x < b.stop → x < b.addr + 24 ∨ b.addr + 40 ≤ x → m' x = m x) :
    BlockAt m' b := by
  refine h.congr (fun x h1 h2 => hm x h1 ?_ (by omega)) (fun x h1 h2 => hm x ?_ ?_ ?_)
  all_goals
    simp only [Block.footer, Block.stop] at *
    omega

theorem hdrNext_congr {m m' : Mem} {a : ℕ} (h : ∀ x, a + 32 ≤ x → x < a + 40 → m' x = m x) :
    m'.hdrNext a = m.hdrNext a :=
  Mem.read64_congr (fun x hx => h x hx.1 hx.2)

theorem hdrPrev_congr {m m' : Mem} {a : ℕ} (h : ∀ x, a + 24 ≤ x → x < a + 32 → m' x = m x) :
    m'.hdrPrev a = m.hdrPrev a :=
  Mem.read64_congr (fun x hx => h x hx.1 hx.2)

theorem blockMagic_lt (f : Bool) : blockMagic f < 2 ^ 64 := by cases f <;> decide

namespace Mem

variable {m : Mem} {h size x : ℕ} {free : Bool}

/-! ### `write_block` -/

/-- The footer address computed inside `write_block`. -/
theorem getFooter_header (hb : h + 40 + size < 2 ^ 64) (c : UInt8) (v : ℕ) :
    (((m.write64 h v).write64 (h + 8) size).write8 (h + 16) c).getFooter h = h + 40 + size := by
  have hs : (((m.write64 h v).write64 (h + 8) size).write8 (h + 16) c).hdrSize h = size := by
    unfold hdrSize
    rw [read64_write8_of_disjoint (by omega), read64_write64_same _ _ (by omega)]
  unfold getFooter HEADER_SIZE
  rw [hs, wadd_of_lt (a := h) (by omega), wadd_of_lt (by omega)]

theorem writeBlock_of_outside (hb : h + 40 + size < 2 ^ 64) (h1 : x < h ∨ h + 17 ≤ x)
    (h2 : x < h + 40 + size ∨ h + 56 + size ≤ x) : m.writeBlock h size free x = m x := by
  simp only [writeBlock]
  rw [getFooter_header hb, write64_of_outside (by omega), write64_of_outside (by omega),
    write8_of_ne (by omega), write64_of_outside (by omega), write64_of_outside (by omega)]

theorem read64_writeBlock {a : ℕ} (hb : h + 56 + size < 2 ^ 64) (h1 : a + 8 ≤ h ∨ h + 17 ≤ a)
    (h2 : a + 8 ≤ h + 40 + size ∨ h + 56 + size ≤ a) :
    (m.writeBlock h size free).read64 a = m.read64 a := by
  apply read64_congr
  intro y hy
  have := hy.1
  have := hy.2
  exact writeBlock_of_outside (by omega) (by omega) (by omega)

/-- `write_block` writes a header and a footer that agree. -/
theorem blockAt_writeBlock (hb : h + 56 + size < 2 ^ 64) :
    BlockAt (m.writeBlock h size free) ⟨h, size, free⟩ := by
  have hm := blockMagic_lt free
  simp only [writeBlock]
  rw [getFooter_header (by omega)]
  refine ⟨?_, ?_, ?_, ?_, ?_⟩
  · simp (disch := omega) only [hdrMagic, read64_write64_of_disjoint, read64_write8_of_disjoint,
      read64_write64_same]
  · simp (disch := omega) only [hdrSize, read64_write64_of_disjoint, read64_write8_of_disjoint,
      read64_write64_same]
  · show (_ != (0 : UInt8)) = free
    rw [write64_of_outside (x := h + 16) (by omega), write64_of_outside (by omega), write8_same]
    cases free <;> rfl
  · simp (disch := omega) only [Block.footer, read64_write64_of_disjoint, read64_write64_same]
  · simp (disch := omega) only [Block.footer, read64_write64_same]

/-! ### Merging -/

/-- What `coalesce` does to two adjacent blocks: the size and the forward link of `a`, the back
link of the block after `b` and the back-pointer in the last footer are written, nothing else. -/
structure CoalesceSpec (m m' : Mem) (a sa sb nx : ℕ) : Prop where
  size : m'.hdrSize a = sa + 56 + sb
  next : m'.hdrNext a = nx
  prev : nx ≠ 0 → m'.hdrPrev nx = a
  back : m'.read64 (a + 104 + sa + sb) = a
  frame : ∀ x, (x < a + 8 ∨ a + 16 ≤ x) → (x < a + 32 ∨ a + 40 ≤ x) →
    (nx ≠ 0 → x < nx + 24 ∨ nx + 32 ≤ x) →
    (x < a + 104 + sa + sb ∨ a + 112 + sa + sb ≤ x) → m' x = m x

theorem coalesce_spec {a b sa sb nx : ℕ} (ha : m.hdrSize a = sa) (hb : m.hdrSize b = sb)
    (hn : m.hdrNext b = nx) (hadj : b = a + 56 + sa) (hlt : b + 56 + sb < 2 ^ 64)
    (hnx : nx ≠ 0 → nx + 40 ≤ a ∨ b + 56 + sb ≤ nx) : CoalesceSpec m (m.coalesce a b) a sa sb nx := by
  have hnxlt : nx < 2 ^ 64 := hn ▸ read64_lt m (b + 32)
  obtain ⟨m₁, hm₁⟩ : ∃ m₁, m₁ = m.write64 (a + 8) (sa + 56 + sb) := ⟨_, rfl⟩
  obtain ⟨m₂, hm₂⟩ : ∃ m₂, m₂ = m₁.setNext a nx := ⟨_, rfl⟩
  obtain ⟨m₃, hm₃⟩ : ∃ m₃, m₃ = if nx ≠ 0 then m₂.setPrev nx a else m₂ := ⟨_, rfl⟩
  have hsum : wadd sa (wadd OVERHEAD sb) = sa + 56 + sb := by
    unfold OVERHEAD HEADER_SIZE FOOTER_SIZE
    rw [wadd_of_lt (a := 40 + 16) (by omega), wadd_of_lt (by omega)]
    omega
  have hn₁ : m₁.hdrNext b = nx := by
    rw [hm₁, hdrNext, read64_write64_of_disjoint (by omega)]
    exact hn
  have hn₂ : m₂.hdrNext b = nx := by
    rw [hm₂, setNext, hdrNext, read64_write64_of_disjoint (by omega)]
    exact hn₁
  have hs₃ : m₃.hdrSize a = sa + 56 + sb := by
    have hs₂ : m₂.hdrSize a = sa + 56 + sb := by
      rw [hm₂, setNext, hdrSize, read64_write64_of_disjoint (by omega), hm₁,
        read64_write64_same _ _ (by omega)]
    rw [hm₃]
    split_ifs with h0
    · have := hnx h0
      rw [setPrev, hdrSize, read64_write64_of_disjoint (by omega)]
      exact hs₂
    · exact hs₂
  have hf : m₃.getFooter a + 8 = a + 104 + sa + sb := by
    unfold getFooter HEADER_SIZE
    rw [hs₃, wadd_of_lt (a := a) (by omega), wadd_of_lt (by omega)]
    omega
  have e : m.coalesce a b = m₃.write64 (a + 104 + sa + sb) a := by
    unfold coalesce
    rw [ha, hb, hsum, ← hm₁]
    simp only [hn₁]
    rw [← hm₂]
    simp only [hn₂]
    rw [← hm₃, hf]
  rw [e]
  refine ⟨?_, ?_, ?_, ?_, ?_⟩
  · rw [hdrSize, read64_write64_of_disjoint (by omega)]
    exact hs₃
  · rw [hdrNext, read64_write64_of_disjoint (by omega), hm₃]
    split_ifs with h0
    · have := hnx h0
      rw [setPrev, read64_write64_of_disjoint (by omega), hm₂, setNext,
        read64_write64_same _ _ hnxlt]
    · rw [hm₂, setNext, read64_write64_same _ _ hnxlt]
  · intro h0
    have := hnx h0
    rw [hdrPrev, read64_write64_of_disjoint (by omega), hm₃, if_pos h0, setPrev,
      read64_write64_same _ _ (by omega)]
  · rw [read64_write64_same _ _ (by omega)]
  · intro x h1 h2 h3 h4
    rw [write64_of_outside (by omega), hm₃]
    have hm₂x : m₂ x = m x := by
      rw [hm₂, setNext, write64_of_outside (by omega), hm₁, write64_of_outside (by omega)]
    split_ifs with h0
    · have := h3 h0
      rw [setPrev, write64_of_outside (by omega)]
      exact hm₂x
    · exact hm₂x

/-- Two adjacent free blocks have become one. -/
theorem CoalesceSpec.blockAt {m' : Mem} {a b : Block} {nx : ℕ} (hs : CoalesceSpec m m' a.addr a.size b.size nx)
    (hba : BlockAt m a) (hbb : BlockAt m b) (ha : a.free = true) (hb : b.free = true) (hadj : b.addr = a.stop)
    (hnx : nx ≠ 0 → nx + 40 ≤ a.addr ∨ b.stop ≤ nx) : BlockAt m' (a.join b) := by
  have hadj : b.addr = a.addr + 56 + a.size := hadj
  have hstop : b.stop = b.addr + 56 + b.size := rfl
  -- the bytes of the joined block that stay
  have hframe : ∀ x, a.addr ≤ x → x < b.stop → (x < a.addr + 8 ∨ a.addr + 16 ≤ x) →
      (x < a.addr + 32 ∨ a.addr + 40 ≤ x) → x < b.footer + 8 → m' x = m x := by
    intro x h1 h2 h3 h4 h5
    unfold Block.footer at h5
    refine hs.frame x h3 h4 (fun h0 => ?_) (.inl (by omega))
    have := hnx h0
    omega
  have hfoot : a.addr + 40 + (a.size + 56 + b.size) = b.footer := by
    unfold Block.footer
    omega
  have hfooter : b.footer = b.addr + 40 + b.size := rfl
  refine ⟨?_, hs.size, ?_, ?_, ?_⟩
  · have hmag := hba.magic
    rw [ha] at hmag
    refine (read64_congr fun x hx => hframe x ?_ ?_ ?_ ?_ ?_).trans hmag
    all_goals
      rw [Set.mem_Ico] at hx
      dsimp only [Block.join] at hx
      omega
  · have hflag := hba.flag
    rw [ha] at hflag
    refine Eq.trans ?_ hflag
    unfold hdrFree
    dsimp only [Block.join]
    rw [hframe (a.addr + 16) (by omega) (by omega) (by omega) (by omega) (by omega)]
  · have hmag := hbb.footMagic
    rw [hb] at hmag
    show m'.read64 (a.addr + 40 + (a.size + 56 + b.size)) = blockMagic true
    rw [hfoot]
    refine (read64_congr fun x hx => hframe x ?_ ?_ ?_ ?_ ?_).trans hmag
    all_goals
      rw [Set.mem_Ico] at hx
      omega
  · show m'.read64 (a.addr + 40 + (a.size + 56 + b.size) + 8) = a.addr
    rw [show a.addr + 40 + (a.size + 56 + b.size) + 8 = a.addr + 104 + a.size + b.size by omega]
    exact hs.back

/-! ### Linking -/

/-- The links that put the header at `nb` between the ones at `c` and `nx`. -/
def linkBetween (m : Mem) (c nb nx : ℕ) : Mem :=
  let m := (m.setPrev nb c).setNext nb nx
  let m := if nx ≠ 0 then m.setPrev nx nb else m
  m.setNext c nb

/-- What they are afterwards. -/
structure LinksBetween (m m' : Mem) (c nb nx : ℕ) : Prop where
  next : m'.hdrNext c = nb
  newPrev : m'.hdrPrev nb = c
  newNext : m'.hdrNext nb = nx
  prev : nx ≠ 0 → m'.hdrPrev nx = nb
  frame : ∀ x, (x < c + 32 ∨ c + 40 ≤ x) → (nx ≠ 0 → x < nx + 24 ∨ nx + 32 ≤ x) → (x < nb + 24 ∨ nb + 40 ≤ x) → m' x = m x

theorem linkBetween_spec {c nb nx : ℕ} (hap : c + 40 ≤ nb) (hlt : nb + 40 < 2 ^ 64) (hnxlt : nx < 2 ^ 64)
    (hnx : nx ≠ 0 → nx + 40 ≤ c ∨ nb + 40 ≤ nx) : LinksBetween m (m.linkBetween c nb nx) c nb nx := by
  obtain ⟨m₁, hm₁⟩ : ∃ m₁, m₁ = (m.setPrev nb c).setNext nb nx := ⟨_, rfl⟩
  obtain ⟨m₂, hm₂⟩ : ∃ m₂, m₂ = if nx ≠ 0 then m₁.setPrev nx nb else m₁ := ⟨_, rfl⟩
  have e : m.linkBetween c nb nx = m₂.setNext c nb := by
    rw [hm₂, hm₁]
    rfl
  have hm₂x : ∀ x, (nx ≠ 0 → x < nx + 24 ∨ nx + 32 ≤ x) → m₂ x = m₁ x := by
    intro x hx
    rw [hm₂]
    split
    · rename_i h0
      have hout := hx h0
      exact write64_of_outside (by omega)
    · rfl
  -- the links of the new header lie outside the one that follows
  have hnew : ∀ a, nb + 24 ≤ a → a + 8 ≤ nb + 40 → m₂.read64 a = m₁.read64 a := by
    intro a h1 h2
    apply read64_congr
    intro x hx
    have hle := hx.1
    have hx' := hx.2
    apply hm₂x
    intro h0
    have hapart := hnx h0
    omega
  rw [e]
  constructor
  · exact read64_write64_same _ _ (by omega)
  · rw [setNext, hdrPrev, read64_write64_of_disjoint (by omega), hnew _ le_rfl (by omega), hm₁, setNext,
      read64_write64_of_disjoint (by omega), setPrev, read64_write64_same _ _ (by omega)]
  · rw [setNext, hdrNext, read64_write64_of_disjoint (by omega), hnew _ (by omega) (by omega), hm₁, setNext,
      read64_write64_same _ _ hnxlt]
  · intro h0
    have hapart := hnx h0
    rw [setNext, hdrPrev, read64_write64_of_disjoint (by omega), hm₂, if_pos h0, setPrev,
      read64_write64_same _ _ (by omega)]
  · intro x h1 h2 h3
    rw [setNext, write64_of_outside (by omega), hm₂x x h2, hm₁, setNext, write64_of_outside (by omega), setPrev,
      write64_of_outside (by omega)]

/-! ### Splitting -/

/-- What splitting the block at `c`, of size `old`, does: a used block of `size` bytes and a free
block behind it, linked between the old neighbours. -/
structure SplitSpec (m m' : Mem) (c size old nx : ℕ) : Prop where
  used : BlockAt m' ⟨c, size, false⟩
  rest : BlockAt m' ⟨c + 56 + size, old - size - 56, true⟩
  usedPrev : m'.hdrPrev c = m.hdrPrev c
  usedNext : m'.hdrNext c = c + 56 + size
  restPrev : m'.hdrPrev (c + 56 + size) = c
  restNext : m'.hdrNext (c + 56 + size) = nx
  prev : nx ≠ 0 → m'.hdrPrev nx = c + 56 + size
  frame : ∀ x, (x < c ∨ c + 56 + old ≤ x) → (nx ≠ 0 → x < nx + 24 ∨ nx + 32 ≤ x) → m' x = m x

/-- A block that is split: two blocks are written, and the second is linked behind the first. -/
theorem takeBlock_split {c old nx : ℕ} (hold : m.hdrSize c = old) (hn : m.hdrNext c = nx) (hfit : size + 88 ≤ old)
    (hlt : c + 56 + old < 2 ^ 64) : m.takeBlock c size =
    ((m.writeBlock c size false).writeBlock (c + 56 + size) (old - size - 56) true).linkBetween c (c + 56 + size) nx := by
  obtain ⟨nb, hnb⟩ : ∃ nb, nb = c + 56 + size := ⟨_, rfl⟩
  obtain ⟨rs, hrs⟩ : ∃ rs, rs = old - size - 56 := ⟨_, rfl⟩
  have hthreshold : wadd (wadd size OVERHEAD) 32 = size + 88 := by
    unfold OVERHEAD HEADER_SIZE FOOTER_SIZE
    rw [wadd_of_lt (a := size) (by omega), wadd_of_lt (by omega)]
  have hnb' : wadd (wadd (wadd c HEADER_SIZE) size) FOOTER_SIZE = nb := by
    unfold HEADER_SIZE FOOTER_SIZE
    rw [wadd_of_lt (a := c) (by omega), wadd_of_lt (a := c + 40) (by omega), wadd_of_lt (by omega)]
    omega
  have hrs' : wsub (wsub old size) OVERHEAD = rs := by
    unfold OVERHEAD HEADER_SIZE FOOTER_SIZE
    rw [wsub_of_le (a := old) (by omega) (by omega), wsub_of_le (by omega) (by omega), hrs]
  obtain ⟨m₁, hm₁⟩ : ∃ m₁, m₁ = (m.writeBlock c size false).writeBlock nb rs true := ⟨_, rfl⟩
  -- the forward link of `c` is read again after each step
  have hc₁ : m₁.hdrNext c = nx := by
    rw [← hn, hm₁, hdrNext, read64_writeBlock (by omega) (by omega) (by omega),
      read64_writeBlock (by omega) (by omega) (by omega)]
    rfl
  have hc₂ : (m₁.setPrev nb c).hdrNext c = nx := by
    rw [setPrev, hdrNext, read64_write64_of_disjoint (by omega)]
    exact hc₁
  have hc₃ : ((m₁.setPrev nb c).setNext nb nx).hdrNext c = nx := by
    rw [setNext, hdrNext, read64_write64_of_disjoint (by omega)]
    exact hc₂
  unfold takeBlock
  rw [if_pos (by omega), ← hnb, ← hrs, ← hm₁]
  simp only [hold, hnb', hrs', ← hm₁, hc₂, hc₃]
  rfl

theorem takeBlock_split_spec {c old nx : ℕ} (hold : m.hdrSize c = old) (hn : m.hdrNext c = nx)
    (hfit : size + 88 ≤ old) (hlt : c + 56 + old < 2 ^ 64)
    (hnx : nx ≠ 0 → nx + 40 ≤ c ∨ c + 56 + old ≤ nx) :
    SplitSpec m (m.takeBlock c size) c size old nx := by
  have hnxlt : nx < 2 ^ 64 := hn ▸ read64_lt m (c + 32)
  rw [takeBlock_split hold hn hfit hlt]
  obtain ⟨nb, hnb⟩ : ∃ nb, nb = c + 56 + size := ⟨_, rfl⟩
  obtain ⟨rs, hrs⟩ : ∃ rs, rs = old - size - 56 := ⟨_, rfl⟩
  obtain ⟨m₁, hm₁⟩ : ∃ m₁, m₁ = m.writeBlock c size false := ⟨_, rfl⟩
  obtain ⟨m₂, hm₂⟩ : ∃ m₂, m₂ = m₁.writeBlock nb rs true := ⟨_, rfl⟩
  rw [← hnb, ← hrs, ← hm₁, ← hm₂]
  have hlinks : LinksBetween m₂ (m₂.linkBetween c nb nx) c nb nx :=
    linkBetween_spec (by omega) (by omega) hnxlt (fun h0 => (hnx h0).imp_right (by omega))
  have hm₂x : ∀ x, (x < c ∨ c + 17 ≤ x) → (x < c + 40 + size ∨ c + 56 + old ≤ x) → m₂ x = m x := by
    intro x h1 h2
    rw [hm₂, writeBlock_of_outside (by omega) (by omega) (by omega), hm₁,
      writeBlock_of_outside (by omega) (by omega) (by omega)]
  -- every byte of the two blocks but the forward link of `c` and the links of the new block
  have hx : ∀ x, c ≤ x → x < c + 56 + old → (x < c + 32 ∨ c + 40 ≤ x) → (x < nb + 24 ∨ nb + 40 ≤ x) →
      m₂.linkBetween c nb nx x = m₂ x := by
    intro x h1 h2 h3 h4
    apply hlinks.frame x h3 _ h4
    intro h0
    have hapart := hnx h0
    omega
  constructor
  · have hb : BlockAt m₁ ⟨c, size, false⟩ := hm₁ ▸ blockAt_writeBlock (by omega)
    refine hb.congr (fun x h1 h2 => ?_) (fun x h1 h2 => ?_)
    all_goals
      simp only [Block.footer] at h1 h2
      rw [hx x (by omega) (by omega) (by omega) (by omega), hm₂,
        writeBlock_of_outside (by omega) (by omega) (by omega)]
  · rw [← hnb, ← hrs]
    have hb : BlockAt m₂ ⟨nb, rs, true⟩ := hm₂ ▸ blockAt_writeBlock (by omega)
    refine hb.congr (fun x h1 h2 => ?_) (fun x h1 h2 => ?_)
    all_goals
      simp only [Block.footer] at h1 h2
      exact hx x (by omega) (by omega) (by omega) (by omega)
  · apply hdrPrev_congr
    intro x h1 h2
    rw [hx x (by omega) (by omega) (by omega) (by omega), hm₂x x (by omega) (by omega)]
  · rw [hlinks.next, hnb]
  · rw [← hnb, hlinks.newPrev]
  · rw [← hnb, hlinks.newNext]
  · intro h0
    rw [hlinks.prev h0, hnb]
  · intro x h1 h2
    rw [hlinks.frame x (by omega) h2 (by omega), hm₂x x (by omega) (by omega)]

/-- A block that is too small to be split is used whole. -/
theorem takeBlock_whole {c old : ℕ} (hold : m.hdrSize c = old) (hfit : size + 56 ≤ old)
    (hsmall : old < size + 88) (hlt : c + 56 + old < 2 ^ 64) :
    m.takeBlock c size = m.writeBlock c old false := by
  have ht : wadd (wadd size OVERHEAD) 32 = size + 88 := by
    unfold OVERHEAD HEADER_SIZE FOOTER_SIZE
    rw [wadd_of_lt (a := size) (by omega), wadd_of_lt (by omega)]
  unfold takeBlock
  rw [if_neg (by omega), hold]

end Mem
end HeroOS
