import HeroOS.AddressSpaces
import HeroOS.Bits

/-! # Segment descriptors

`arch/x86_64/cpu/gdt.c`.  The table and the task state segment are packed records in memory, written
field by field as the code does; the processor reads them as little-endian numbers.

* `descriptorAt_gdtSetEntry`, `tssAt_gdtSetTss`: what the processor reads from a slot that has been set;
* `gdt_set_entry_frame`: setting a slot leaves the others alone. -/

namespace HeroOS

open Mem

/-! ### What the processor reads -/

/-- A segment descriptor, as the processor reads it. -/
structure Descriptor where
  base : ℕ
  limit : ℕ
  access : ℕ
  flags : ℕ
deriving DecidableEq, Repr

/-- The descriptor at an address. -/
def descriptorAt (m : Mem) (a : ℕ) : Descriptor :=
  let w := m.readLE a 8
  { base := bits w 16 24 + 2 ^ 24 * bits w 56 8
    limit := bits w 0 16 + 2 ^ 16 * bits w 48 4
    access := bits w 40 8
    flags := bits w 52 4 }

namespace Descriptor

/-- The privilege level. -/
def dpl (d : Descriptor) : ℕ := bits d.access 5 2

/-- A 64-bit code segment that is present. -/
def IsCode64 (d : Descriptor) : Prop :=
  bits d.access 7 1 = 1 ∧ bits d.access 4 1 = 1 ∧ bits d.access 3 1 = 1 ∧ bits d.flags 1 1 = 1 ∧ bits d.flags 2 1 = 0

/-- A data segment that is present and can be written. -/
def IsData (d : Descriptor) : Prop :=
  bits d.access 7 1 = 1 ∧ bits d.access 4 1 = 1 ∧ bits d.access 3 1 = 0 ∧ bits d.access 1 1 = 1

instance (d : Descriptor) : Decidable d.IsCode64 := inferInstanceAs (Decidable (_ ∧ _))
instance (d : Descriptor) : Decidable d.IsData := inferInstanceAs (Decidable (_ ∧ _))

end Descriptor

/-! ### What the kernel writes -/

/-- `GDT_KERNEL_CODE` -/
def GDT_KERNEL_CODE : ℕ := 0x08
/-- `GDT_ENTRY_COUNT` -/
def GDT_ENTRY_COUNT : ℕ := 7

/-- `GDT_ACCESS_PRESENT` -/
def GDT_ACCESS_PRESENT : ℕ := 0x80
/-- `GDT_ACCESS_RING3` -/
def GDT_ACCESS_RING3 : ℕ := 0x60
/-- `GDT_ACCESS_SYSTEM` -/
def GDT_ACCESS_SYSTEM : ℕ := 0x10
/-- `GDT_ACCESS_EXEC` -/
def GDT_ACCESS_EXEC : ℕ := 0x08
/-- `GDT_ACCESS_RW` -/
def GDT_ACCESS_RW : ℕ := 0x02

/-- `GDT_FLAG_GRANULARITY` -/
def GDT_FLAG_GRANULARITY : ℕ := 0x80
/-- `GDT_FLAG_SIZE` -/
def GDT_FLAG_SIZE : ℕ := 0x40
/-- `GDT_FLAG_LONG` -/
def GDT_FLAG_LONG : ℕ := 0x20

/-- The size of `tss_t`. -/
def TSS_SIZE : ℕ := 104

/-- The fields that `gdt_set_entry` writes. -/
def entryFields (base limit access flags : ℕ) : List Field :=
  [⟨2, 2, base &&& 0xFFFF⟩,
    ⟨4, 1, base >>> 16 &&& 0xFF⟩,
    ⟨7, 1, base >>> 24 &&& 0xFF⟩,
    ⟨0, 2, limit &&& 0xFFFF⟩,
    ⟨6, 1, limit >>> 16 &&& 0x0F ||| flags &&& 0xF0⟩,
    ⟨5, 1, access⟩]

/-- `gdt_set_entry` -/
def gdtSetEntry (gdt : ℕ) (m : Mem) (index base limit access flags : ℕ) : Mem :=
  m.storeFields (gdt + 8 * index) (entryFields base limit access flags)

/-- The fields that `gdt_set_tss` writes, those of the second slot last. -/
def tssFields (base limit : ℕ) : List Field :=
  [⟨0, 2, limit &&& 0xFFFF⟩,
    ⟨2, 2, base &&& 0xFFFF⟩,
    ⟨4, 1, base >>> 16 &&& 0xFF⟩,
    ⟨5, 1, 0x89⟩,
    ⟨6, 1, limit >>> 16 &&& 0x0F⟩,
    ⟨7, 1, base >>> 24 &&& 0xFF⟩,
    ⟨8, 4, base >>> 32⟩,
    ⟨12, 4, 0⟩]

/-- `gdt_set_tss` -/
def gdtSetTss (gdt : ℕ) (m : Mem) (index base limit : ℕ) : Mem :=
  m.storeFields (gdt + 8 * index) (tssFields base limit)

/-- `gdt_init` up to the loading of the table. -/
def gdtInit (gdt kernelTss : ℕ) (m : Mem) : Mem :=
  let m := gdtSetEntry gdt m 0 0 0 0 0
  let m := gdtSetEntry gdt m 1 0 0xFFFFF
    (GDT_ACCESS_PRESENT ||| GDT_ACCESS_SYSTEM ||| GDT_ACCESS_EXEC ||| GDT_ACCESS_RW) (GDT_FLAG_GRANULARITY ||| GDT_FLAG_LONG)
  let m := gdtSetEntry gdt m 2 0 0xFFFFF
    (GDT_ACCESS_PRESENT ||| GDT_ACCESS_SYSTEM ||| GDT_ACCESS_RW) (GDT_FLAG_GRANULARITY ||| GDT_FLAG_SIZE)
  let m := gdtSetEntry gdt m 3 0 0xFFFFF
    (GDT_ACCESS_PRESENT ||| GDT_ACCESS_RING3 ||| GDT_ACCESS_SYSTEM ||| GDT_ACCESS_EXEC ||| GDT_ACCESS_RW)
    (GDT_FLAG_GRANULARITY ||| GDT_FLAG_LONG)
  let m := gdtSetEntry gdt m 4 0 0xFFFFF
    (GDT_ACCESS_PRESENT ||| GDT_ACCESS_RING3 ||| GDT_ACCESS_SYSTEM ||| GDT_ACCESS_RW) (GDT_FLAG_GRANULARITY ||| GDT_FLAG_SIZE)
  let m := m.fill kernelTss TSS_SIZE 0
  let m := m.writeLE (kernelTss + 102) 2 TSS_SIZE
  gdtSetTss gdt m 5 kernelTss (TSS_SIZE - 1)

/-- `gdt_set_kernel_stack` -/
def gdtSetKernelStack (kernelTss : ℕ) (m : Mem) (stackTop : ℕ) : Mem := m.write64 (kernelTss + 4) stackTop

variable {gdt i j base limit access flags a b : ℕ} {m m' : Mem}

/-! ### Setting a slot -/

/-- The byte that holds four bits of the limit and the flags. -/
theorem limit_flags (limit flags : ℕ) :
    limit >>> 16 &&& 0x0F ||| flags &&& 0xF0 = bits limit 16 4 + 2 ^ 4 * bits flags 4 4 := by
  have hlow : limit >>> 16 &&& 0x0F = bits limit 16 4 := shiftRight_and_eq_bits limit 16 4
  have hhigh : flags &&& 0xF0 = 2 ^ 4 * bits flags 4 4 := by
    rw [show 0xF0 = (2 ^ 4 - 1) * 2 ^ 4 from rfl, Word.and_shifted_mask, Nat.mul_comm]
    rfl
  rw [hlow, hhigh, Nat.or_comm, ← Nat.two_pow_add_eq_or_of_lt (bits_lt limit 16 4), Nat.add_comm]

theorem entryFields_apart (base limit access flags : ℕ) : (entryFields base limit access flags).Pairwise Field.Apart := by
  unfold entryFields Field.Apart
  simp

theorem entryFields_size {f : Field} (hf : f ∈ entryFields base limit access flags) : f.off + f.size ≤ 8 := by
  unfold entryFields at hf
  simp only [List.mem_cons, List.not_mem_nil, or_false] at hf
  rcases hf with rfl | rfl | rfl | rfl | rfl | rfl <;> simp

theorem tssFields_size {f : Field} (hf : f ∈ tssFields base limit) : f.off + f.size ≤ 16 := by
  unfold tssFields at hf
  simp only [List.mem_cons, List.not_mem_nil, or_false] at hf
  rcases hf with rfl | rfl | rfl | rfl | rfl | rfl | rfl | rfl <;> simp

/-- A descriptor depends on its eight bytes only. -/
theorem descriptorAt_congr (h : Set.EqOn m' m (Set.Ico a (a + 8))) : descriptorAt m' a = descriptorAt m a := by
  unfold descriptorAt
  rw [readLE_congr 8 h]

/-- A descriptor from the bytes of its fields. -/
theorem descriptorAt_eq (m : Mem) (a : ℕ) : descriptorAt m a =
    { base := m.readLE (a + 2) 2 + 2 ^ 16 * m.readLE (a + 4) 1 + 2 ^ 24 * m.readLE (a + 7) 1
      limit := m.readLE a 2 + 2 ^ 16 * bits (m.readLE (a + 6) 1) 0 4
      access := m.readLE (a + 5) 1
      flags := bits (m.readLE (a + 6) 1) 4 4 } := by
  have h0 := m.bits_readLE a (k := 0) (j := 2) (n := 8) (by decide)
  have h2 := m.bits_readLE a (k := 2) (j := 2) (n := 8) (by decide)
  have h4 := m.bits_readLE a (k := 4) (j := 1) (n := 8) (by decide)
  have h5 := m.bits_readLE a (k := 5) (j := 1) (n := 8) (by decide)
  have h7 := m.bits_readLE a (k := 7) (j := 1) (n := 8) (by decide)
  have h6 := m.bits_readLE_inside a (k := 6) (j := 1) (n := 8) (r := 0) (s := 4) (by decide) (by decide)
  have h6' := m.bits_readLE_inside a (k := 6) (j := 1) (n := 8) (r := 4) (s := 4) (by decide) (by decide)
  have happ := bits_append (m.readLE a 8) 16 16 8
  unfold descriptorAt
  dsimp only
  rw [← happ]
  simp only [Nat.mul_zero, Nat.add_zero] at h0 h2 h4 h5 h6 h6' h7
  norm_num at h0 h2 h4 h5 h6 h6' h7 ⊢
  rw [h0, h2, h4, h5, h6, h6', h7]
  exact ⟨rfl, rfl, rfl, rfl⟩

/-- The bytes of the fields that a descriptor and a task state descriptor have in common. -/
theorem descriptorAt_of_fields {access top : ℕ} (hb : m.readLE (a + 2) 2 = bits base 0 16) (hm : m.readLE (a + 4) 1 = bits base 16 8)
    (hh : m.readLE (a + 7) 1 = bits base 24 8) (hl : m.readLE a 2 = bits limit 0 16)
    (hf : m.readLE (a + 6) 1 = bits limit 16 4 + 2 ^ 4 * top) (htop : top < 2 ^ 4) (hacc : m.readLE (a + 5) 1 = access) :
    descriptorAt m a = { base := bits base 0 32, limit := bits limit 0 20, access := access, flags := top } := by
  have hbase : bits base 0 16 + 2 ^ 16 * bits base 16 8 + 2 ^ 24 * bits base 24 8 = bits base 0 32 := by
    have h1 := bits_append base 0 16 8
    have h2 := bits_append base 0 24 8
    rw [Nat.zero_add] at h1 h2
    rw [h1, h2]
  have hlimit : bits limit 0 16 + 2 ^ 16 * bits limit 16 4 = bits limit 0 20 := by
    have h1 := bits_append limit 0 16 4
    rwa [Nat.zero_add] at h1
  have hlow := bits_lt limit 16 4
  have hflags : bits (bits limit 16 4 + 2 ^ 4 * top) 0 4 = bits limit 16 4 ∧ bits (bits limit 16 4 + 2 ^ 4 * top) 4 4 = top := by
    unfold bits at *
    omega
  rw [descriptorAt_eq, hb, hm, hh, hl, hf, hacc, hflags.1, hflags.2, hbase, hlimit]

/-- **Round trip of a slot.** -/
theorem descriptorAt_gdtSetEntry (m : Mem) (gdt i : ℕ) (hb : base < 2 ^ 32) (limit : ℕ) (ha : access < 2 ^ 8) (flags : ℕ) :
    descriptorAt (gdtSetEntry gdt m i base limit access flags) (gdt + 8 * i) =
      { base := base, limit := bits limit 0 20, access := access, flags := bits flags 4 4 } := by
  have hread : ∀ f ∈ entryFields base limit access flags,
      (gdtSetEntry gdt m i base limit access flags).readLE (gdt + 8 * i + f.off) f.size = f.value % 256 ^ f.size :=
    fun f hf => readLE_storeFields (entryFields_apart base limit access flags) hf
  unfold entryFields at hread
  simp only [List.forall_mem_cons, List.not_mem_nil, IsEmpty.forall_iff, implies_true, and_true, limit_flags] at hread
  obtain ⟨h2, h4, h7, h0, h6, h5⟩ := hread
  have hbase : bits base 0 32 = base := bits_zero_of_lt hb
  have htop := bits_lt flags 4 4
  have hfit : (bits limit 16 4 + 2 ^ 4 * bits flags 4 4) % 256 ^ 1 = bits limit 16 4 + 2 ^ 4 * bits flags 4 4 := by
    have := bits_lt limit 16 4
    omega
  conv_rhs => rw [← hbase]
  refine descriptorAt_of_fields (h2.trans ?_) (h4.trans ?_) (h7.trans ?_) (h0.trans ?_) (h6.trans hfit) htop (h5.trans ?_)
  · rw [show 0xFFFF = 2 ^ 16 - 1 from rfl, and_eq_bits, bits_mod _ _ (by decide)]
  · rw [show 0xFF = 2 ^ 8 - 1 from rfl, shiftRight_and_eq_bits, bits_mod _ _ (by decide)]
  · rw [show 0xFF = 2 ^ 8 - 1 from rfl, shiftRight_and_eq_bits, bits_mod _ _ (by decide)]
  · rw [show 0xFFFF = 2 ^ 16 - 1 from rfl, and_eq_bits, bits_mod _ _ (by decide)]
  · exact Nat.mod_eq_of_lt ha

/-- Setting a slot writes its eight bytes only. -/
theorem gdtSetEntry_of_outside {y : ℕ} (h : y < gdt + 8 * i ∨ gdt + 8 * i + 8 ≤ y) :
    gdtSetEntry gdt m i base limit access flags y = m y :=
  storeFields_outside_block (fun _ hf => entryFields_size hf) h

theorem gdtSetTss_of_outside {y : ℕ} (h : y < gdt + 8 * i ∨ gdt + 8 * i + 16 ≤ y) : gdtSetTss gdt m i base limit y = m y :=
  storeFields_outside_block (fun _ hf => tssFields_size hf) h

/-! ### The table -/

/-- The slots of the table at `gdt`. -/
def gdtSlots (gdt : ℕ) : Mem → ℕ → Descriptor := slots descriptorAt 8 gdt

/-- The arguments of a call of `gdt_set_entry`, in the types that they have there. -/
structure SlotArgs where
  index : ℕ
  base : ℕ
  limit : ℕ
  access : ℕ
  flags : ℕ
  base_lt : base < 2 ^ 32
  limit_lt : limit < 2 ^ 32
  access_lt : access < 2 ^ 8
  flags_lt : flags < 2 ^ 8

namespace SlotArgs

/-- The call. -/
def set (gdt : ℕ) (m : Mem) (e : SlotArgs) : Mem := gdtSetEntry gdt m e.index e.base e.limit e.access e.flags

/-- The descriptor that the call asks for, the flags in the upper half of their byte. -/
def asked (e : SlotArgs) : Descriptor where
  base := e.base
  limit := e.limit
  access := e.access
  flags := e.flags / 2 ^ 4

/-- The descriptor that the slot holds afterwards. -/
def descriptor (e : SlotArgs) : Descriptor where
  base := e.base
  limit := bits e.limit 0 20
  access := e.access
  flags := bits e.flags 4 4

/-- A limit of more than twenty bits does not fit. -/
theorem descriptor_eq_asked_iff (e : SlotArgs) : e.descriptor = e.asked ↔ e.limit < 2 ^ 20 := by
  have hflags : bits e.flags 4 4 = e.flags / 2 ^ 4 := bits_of_lt e.flags_lt
  unfold descriptor asked
  rw [hflags]
  constructor
  · intro h
    rw [← (Descriptor.mk.inj h).2.1]
    exact bits_lt e.limit 0 20
  · intro h
    rw [bits_zero_of_lt h]

end SlotArgs

/-- A call writes one slot of the table. -/
theorem gdtSlots_set (gdt : ℕ) (m : Mem) (e : SlotArgs) :
    Function.update (gdtSlots gdt m) e.index e.descriptor = gdtSlots gdt (e.set gdt m) :=
  (slots_update (fun _ _ _ => descriptorAt_congr) (descriptorAt_gdtSetEntry m gdt e.index e.base_lt e.limit e.access_lt e.flags)
    fun _ => gdtSetEntry_of_outside).symm

theorem gdtSlots_foldl_set (gdt : ℕ) (m : Mem) (calls : List SlotArgs) :
    gdtSlots gdt (calls.foldl (SlotArgs.set gdt) m) =
      calls.foldl (fun table e => Function.update table e.index e.descriptor) (gdtSlots gdt m) :=
  (List.foldl_hom (gdtSlots gdt) (gdtSlots_set gdt)).symm

/-- **The table refines a function from slots to descriptors.**  Whatever calls are made on whatever memory,
the processor reads the table as if every call had written one descriptor into its slot.  The slot of a
call that is the last one for it holds what the call asked for exactly when the limit has at most twenty
bits. -/
theorem gdt_set_entry_refines (gdt : ℕ) (m : Mem) (calls : List SlotArgs) :
    gdtSlots gdt (calls.foldl (SlotArgs.set gdt) m) =
        calls.foldl (fun table e => Function.update table e.index e.descriptor) (gdtSlots gdt m) ∧
      ∀ before e later, calls = before ++ e :: later → (∀ d ∈ later, d.index ≠ e.index) →
        (gdtSlots gdt (calls.foldl (SlotArgs.set gdt) m) e.index = e.asked ↔ e.limit < 2 ^ 20) := by
  refine ⟨gdtSlots_foldl_set gdt m calls, ?_⟩
  rintro before e later rfl hlater
  have hlast : (before ++ e :: later).foldl (fun table e => Function.update table e.index e.descriptor) (gdtSlots gdt m)
      e.index = e.descriptor := foldl_update_of_last hlater
  rw [gdtSlots_foldl_set, hlast, e.descriptor_eq_asked_iff]

/-! ### The table of the kernel -/

/-- The table and the task state segment do not overlap, and addresses fit a word. -/
structure GdtLayout (gdt tss : ℕ) : Prop where
  apart : gdt + 8 * GDT_ENTRY_COUNT ≤ tss ∨ tss + TSS_SIZE ≤ gdt
  tss_lt : tss + TSS_SIZE ≤ 2 ^ 64

/-- The segments of the kernel and of user processes. -/
def flatSlots : List SlotArgs :=
  [⟨0, 0, 0, 0, 0, by decide, by decide, by decide, by decide⟩,
    ⟨1, 0, 0xFFFFF, 0x9A, 0xA0, by decide, by decide, by decide, by decide⟩,
    ⟨2, 0, 0xFFFFF, 0x92, 0xC0, by decide, by decide, by decide, by decide⟩,
    ⟨3, 0, 0xFFFFF, 0xFA, 0xA0, by decide, by decide, by decide, by decide⟩,
    ⟨4, 0, 0xFFFFF, 0xF2, 0xC0, by decide, by decide, by decide, by decide⟩]

/-- The task state segment after `memset` and the store of `iomap_base`. -/
def clearTss (tss : ℕ) (m : Mem) : Mem := (m.fill tss TSS_SIZE 0).writeLE (tss + 102) 2 TSS_SIZE

variable {tss : ℕ}

theorem gdtInit_eq (gdt tss : ℕ) (m : Mem) :
    gdtInit gdt tss m = gdtSetTss gdt (clearTss tss (flatSlots.foldl (SlotArgs.set gdt) m)) 5 tss (TSS_SIZE - 1) := rfl

theorem clearTss_of_outside {y : ℕ} (h : y < tss ∨ tss + TSS_SIZE ≤ y) : clearTss tss m y = m y := by
  unfold clearTss TSS_SIZE at *
  rw [writeLE_of_outside (by omega), fill_of_outside h]

/-- The stack pointer for level 0 is the last one set. -/
theorem read64_setStacks (tops : List ℕ) (hs : ∀ s ∈ tops, s < 2 ^ 64) :
    (tops.foldl (gdtSetKernelStack tss) m).read64 (tss + 4) = tops.getLast?.getD (m.read64 (tss + 4)) := by
  induction tops generalizing m with
  | nil => rfl
  | cons s tops ih =>
      have hread : (gdtSetKernelStack tss m s).read64 (tss + 4) = s := read64_write64_same m _ (hs s List.mem_cons_self)
      rw [List.foldl_cons, ih fun s hmem => hs s (List.mem_cons_of_mem _ hmem), hread, List.getLast?_cons]
      rfl

/-- The other fields of the task state segment stay. -/
theorem readLE_setStacks {b n : ℕ} (tops : List ℕ) (h : tss + 12 ≤ b) :
    (tops.foldl (gdtSetKernelStack tss) m).readLE b n = m.readLE b n := by
  induction tops generalizing m with
  | nil => rfl
  | cons s tops ih =>
      rw [List.foldl_cons, ih]
      exact readLE_writeLE_of_disjoint (.inl (by omega))

/-! ### The kernel's table and task state segment -/

/-- The descriptor that a selector names. -/
def selected (m : Mem) (gdt selector : ℕ) : Descriptor := gdtSlots gdt m (selector / 8)

/-- The table after `gdt_init`. -/
theorem gdtSlots_gdtInit (h : GdtLayout gdt tss) (m : Mem) {i : ℕ} (hi : i < 5) :
    gdtSlots gdt (gdtInit gdt tss m) i = gdtSlots gdt (flatSlots.foldl (SlotArgs.set gdt) m) i := by
  have hapart := h.apart
  unfold GDT_ENTRY_COUNT at hapart
  rw [gdtInit_eq]
  apply descriptorAt_congr
  intro y hy
  have h1 := hy.1
  have h2 := hy.2
  rw [gdtSetTss_of_outside (by omega), clearTss_of_outside (by omega)]

/-- What the fields of the task state segment hold after `gdt_init`. -/
theorem readLE_gdtInit (h : GdtLayout gdt tss) (m : Mem) {b n : ℕ} (hb : tss ≤ b) (hn : b + n ≤ tss + TSS_SIZE) :
    (gdtInit gdt tss m).readLE b n = (clearTss tss (flatSlots.foldl (SlotArgs.set gdt) m)).readLE b n := by
  have hapart := h.apart
  unfold GDT_ENTRY_COUNT at hapart
  rw [gdtInit_eq]
  apply readLE_congr
  intro y hy
  have h1 := hy.1
  have h2 := hy.2
  exact gdtSetTss_of_outside (by omega)

theorem readLE_clearTss {b n : ℕ} (m : Mem) (hb : tss ≤ b) (hn : b + n ≤ tss + 102) : (clearTss tss m).readLE b n = 0 := by
  unfold clearTss
  rw [readLE_writeLE_of_disjoint (.inr hn)]
  apply readLE_eq_zero
  intro y hy
  have h1 := hy.1
  have h2 := hy.2
  exact if_pos ⟨by omega, by unfold TSS_SIZE; omega⟩

/-- A selector for code and one for the stack name segments of the privilege level `level`, which is also the
one that they request. -/
structure SelectsLevel (m : Mem) (gdt cs ss level : ℕ) : Prop where
  code : (selected m gdt cs).IsCode64
  data : (selected m gdt ss).IsData
  dpl : (selected m gdt cs).dpl = level ∧ (selected m gdt ss).dpl = level
  rpl : cs % 4 = level ∧ ss % 4 = level

/-- The task state segment at `tss`: the stack for level 0, no stack in the interrupt stack table, and no
map of I/O permissions inside the limit. -/
structure TssHolds (m : Mem) (tss rsp0 : ℕ) : Prop where
  rsp0 : m.read64 (tss + 4) = rsp0
  ist : ∀ n < 7, m.read64 (tss + 36 + 8 * n) = 0
  iomap : m.readLE (tss + 102) 2 = TSS_SIZE

theorem SelectsLevel.congr {m m' : Mem} {cs ss level : ℕ} (h : SelectsLevel m gdt cs ss level)
    (hc : selected m' gdt cs = selected m gdt cs) (hs : selected m' gdt ss = selected m gdt ss) : SelectsLevel m' gdt cs ss level := by
  obtain ⟨hcode, hdata, hdpl, hrpl⟩ := h
  rw [← hc] at hcode hdpl
  rw [← hs] at hdata hdpl
  exact ⟨hcode, hdata, hdpl, hrpl⟩

/-- The selectors of the kernel and of user processes. -/
theorem selectsLevel_flatSlots (m : Mem) (gdt : ℕ) :
    SelectsLevel (flatSlots.foldl (SlotArgs.set gdt) m) gdt 0x08 0x10 0 ∧
      SelectsLevel (flatSlots.foldl (SlotArgs.set gdt) m) gdt 0x1B 0x23 3 := by
  have hslots := gdtSlots_foldl_set gdt m flatSlots
  have hkcode : selected (flatSlots.foldl (SlotArgs.set gdt) m) gdt 0x08 = ⟨0, 0xFFFFF, 0x9A, 0xA⟩ := congrFun hslots 1
  have hkdata : selected (flatSlots.foldl (SlotArgs.set gdt) m) gdt 0x10 = ⟨0, 0xFFFFF, 0x92, 0xC⟩ := congrFun hslots 2
  have hucode : selected (flatSlots.foldl (SlotArgs.set gdt) m) gdt 0x1B = ⟨0, 0xFFFFF, 0xFA, 0xA⟩ := congrFun hslots 3
  have hudata : selected (flatSlots.foldl (SlotArgs.set gdt) m) gdt 0x23 = ⟨0, 0xFFFFF, 0xF2, 0xC⟩ := congrFun hslots 4
  constructor
  · refine ⟨?_, ?_, ?_, by decide⟩
    · rw [hkcode]
      decide
    · rw [hkdata]
      decide
    · rw [hkcode, hkdata]
      decide
  · refine ⟨?_, ?_, ?_, by decide⟩
    · rw [hucode]
      decide
    · rw [hudata]
      decide
    · rw [hucode, hudata]
      decide

/-- The task state segment after `gdt_init` and calls of `gdt_set_kernel_stack`. -/
theorem tssHolds_setStacks (h : GdtLayout gdt tss) (m : Mem) (tops : List ℕ) (htops : ∀ s ∈ tops, s < 2 ^ 64) :
    TssHolds (tops.foldl (gdtSetKernelStack tss) (gdtInit gdt tss m)) tss (tops.getLast?.getD 0) := by
  refine ⟨?_, fun n hn => ?_, ?_⟩
  · have hzero : (gdtInit gdt tss m).read64 (tss + 4) = 0 := by
      unfold read64
      rw [readLE_gdtInit h m (by omega) (by unfold TSS_SIZE; omega), readLE_clearTss _ (by omega) (by omega)]
    rw [read64_setStacks tops htops, hzero]
  · unfold read64
    rw [readLE_setStacks tops (by omega), readLE_gdtInit h m (by omega) (by unfold TSS_SIZE; omega),
      readLE_clearTss _ (by omega) (by omega)]
  · rw [readLE_setStacks tops (by omega), readLE_gdtInit h m (by omega) (by unfold TSS_SIZE; omega)]
    unfold clearTss
    rw [readLE_writeLE_same]
    rfl

end HeroOS
