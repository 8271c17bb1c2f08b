import HeroOS.Memory
import HeroOS.Word

/-! # The Multiboot2 information block

The structures of `kernel/mm/pmm.h`, in which the boot loader describes the machine: a header with the
total size, and tags of a type and a size, each padded to eight bytes, the last of type 0.

`InfoAt m info tags` says that the memory `m` holds a well-formed block with the tags `tags` at
`info`.  A memory-map tag lists ranges of physical addresses; its own field `entry_size` gives the
distance from one entry to the next. -/

namespace HeroOS

open Word

/-- `MB2_TAG_TYPE_MMAP` -/
def MB2_TAG_TYPE_MMAP : ℕ := 6
/-- `MB2_MMAP_TYPE_AVAILABLE` -/
def MB2_MMAP_TYPE_AVAILABLE : ℕ := 1
/-- `sizeof(mb2_mmap_entry_t)` -/
def MMAP_ENTRY_SIZE : ℕ := 24

/-- `mb2_mmap_entry_t`, without the reserved field. -/
structure MmapEntry where
  baseAddr : ℕ
  length : ℕ
  type : ℕ
deriving DecidableEq, Repr

namespace MmapEntry

/-- The firmware offers the range. -/
def Available (e : MmapEntry) : Prop := e.type = MB2_MMAP_TYPE_AVAILABLE

instance (e : MmapEntry) : Decidable e.Available := inferInstanceAs (Decidable (_ = _))

/-- The addresses of the range. -/
def bytes (e : MmapEntry) : Set ℕ := Set.Ico e.baseAddr (e.baseAddr + e.length)

theorem mem_bytes {e : MmapEntry} {a : ℕ} : a ∈ e.bytes ↔ e.baseAddr ≤ a ∧ a < e.baseAddr + e.length := Iff.rfl

end MmapEntry

/-- The entry at address `e`. -/
def Mem.mmapEntry (m : Mem) (e : ℕ) : MmapEntry where
  baseAddr := m.read64 e
  length := m.read64 (e + 8)
  type := m.read32 (e + 16)

/-- A tag: a memory map, or a tag that the kernel does not look into here. -/
inductive Tag where
  | mmap (entrySize : ℕ) (entries : List MmapEntry)
  | other (type size : ℕ)
deriving DecidableEq, Repr

namespace Tag

/-- The `size` field of a tag. -/
def size : Tag → ℕ
  | mmap entrySize entries => 16 + entrySize * entries.length
  | other _ size => size

/-- The entries of a memory map. -/
def entries : Tag → List MmapEntry
  | mmap _ entries => entries
  | other _ _ => []

/-- The tag is at address `p`. -/
def StoredAt (m : Mem) (p : ℕ) : Tag → Prop
  | mmap entrySize entries =>
      m.read32 p = MB2_TAG_TYPE_MMAP ∧ m.read32 (p + 8) = entrySize ∧
        ∀ i (hi : i < entries.length), m.mmapEntry (p + 16 + entrySize * i) = entries[i]
  | other type size => type ≠ 0 ∧ type ≠ MB2_TAG_TYPE_MMAP ∧ 8 ≤ size ∧ m.read32 p = type

/-- The entries of a memory map lie next to each other, as in an array of `mb2_mmap_entry_t`. -/
def Packed : Tag → Prop
  | mmap entrySize _ => entrySize = MMAP_ENTRY_SIZE
  | other _ _ => True

/-- The entries of a memory map have a size. -/
def Strided : Tag → Prop
  | mmap entrySize _ => 0 < entrySize
  | other _ _ => True

theorem Packed.strided {tag : Tag} (h : tag.Packed) : tag.Strided := by
  cases tag with
  | mmap entrySize es =>
      have h : entrySize = MMAP_ENTRY_SIZE := h
      rw [h]
      exact Nat.succ_pos 23
  | other type size => trivial

end Tag

/-- The tags `tags` follow each other from `p` on, and the tag of type 0 ends them before `e`. -/
def TagsAt (m : Mem) (e : ℕ) : ℕ → List Tag → Prop
  | p, [] => m.read32 p = 0 ∧ p + 8 ≤ e
  | p, tag :: tags => tag.StoredAt m p ∧ m.read32 (p + 4) = tag.size ∧ TagsAt m e (p + (tag.size + 7) / 8 * 8) tags

/-- A well-formed block at `info`. -/
structure InfoAt (m : Mem) (info : ℕ) (tags : List Tag) : Prop where
  nonnull : info ≠ 0
  inMemory : info + m.read32 info < 2 ^ 64
  tags : TagsAt m (info + m.read32 info) (info + 8) tags

variable {m : Mem} {e p : ℕ} {tag : Tag} {tags : List Tag}

theorem TagsAt.le (h : TagsAt m e p tags) : p + 8 ≤ e := by
  induction tags generalizing p with
  | nil => exact h.2
  | cons tag tags ih =>
      have := ih h.2.2
      omega

/-- A tag that the walk visits is not the last one. -/
theorem Tag.StoredAt.type_ne_zero (h : tag.StoredAt m p) : m.read32 p ≠ 0 := by
  cases tag with
  | mmap entrySize entries =>
      rw [h.1]
      decide
  | other type size =>
      rw [h.2.2.2]
      exact h.1

end HeroOS
