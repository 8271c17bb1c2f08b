import HeroOS.Instr
import HeroOS.Run

/-! # The context switch

`context_switch` of `switch.asm`, instruction by instruction.  Both halves are a block of moves
(`stores`, `loads`) and a tail that works through `rax` or the stack:

* `Caller.save`: after the first half the context holds the registers, the return address, the flags
  and the stack pointer of the caller;
* `Resumes.restore`: the second half loads all of them from a context;
* `Caller.writes_save`, `Resumes.writes_restore`: the addresses that they write. -/

namespace HeroOS

/-- The offsets of the registers in `cpu_context_t`. -/
def fieldOffset : Reg → ℕ
  | .r15 => 0
  | .r14 => 8
  | .r13 => 16
  | .r12 => 24
  | .r11 => 32
  | .r10 => 40
  | .r9 => 48
  | .r8 => 56
  | .rbp => 64
  | .rdi => 72
  | .rsi => 80
  | .rdx => 88
  | .rcx => 96
  | .rbx => 104
  | .rax => 112
  | .rsp => 136

/-- The size of `cpu_context_t`. -/
def CONTEXT_SIZE : ℕ := 160

/-- `context_switch`: save the current context. -/
def saveContext : List Instr :=
  [.store .rdi 0 .r15,
    .store .rdi 8 .r14,
    .store .rdi 16 .r13,
    .store .rdi 24 .r12,
    .store .rdi 32 .r11,
    .store .rdi 40 .r10,
    .store .rdi 48 .r9,
    .store .rdi 56 .r8,
    .store .rdi 64 .rbp,
    .store .rdi 72 .rdi,
    .store .rdi 80 .rsi,
    .store .rdi 88 .rdx,
    .store .rdi 96 .rcx,
    .store .rdi 104 .rbx,
    .store .rdi 112 .rax,
    .load .rax .rsp 0,
    .store .rdi 120 .rax,
    .pushfq,
    .pop .rax,
    .store .rdi 128 .rax,
    .lea .rax .rsp 8,
    .store .rdi 136 .rax]

/-- `context_switch`: restore the new context. -/
def restoreContext : List Instr :=
  [.load .r15 .rsi 0,
    .load .r14 .rsi 8,
    .load .r13 .rsi 16,
    .load .r12 .rsi 24,
    .load .r11 .rsi 32,
    .load .r10 .rsi 40,
    .load .r9 .rsi 48,
    .load .r8 .rsi 56,
    .load .rbp .rsi 64,
    .load .rdx .rsi 88,
    .load .rcx .rsi 96,
    .load .rbx .rsi 104,
    .load .rax .rsi 112,
    .load .rsp .rsi 136,
    .push .rsi 128,
    .popfq,
    .push .rsi 120,
    .load .rdi .rsi 72,
    .load .rsi .rsi 80,
    .ret]

/-- `context_switch` -/
def contextSwitch : List Instr := saveContext ++ restoreContext

open Cpu

variable {c : Cpu} {a b : ℕ}

/-! ### Saving -/

/-- The registers that are stored as they are. -/
def savedRegs : List Reg :=
  [.r15, .r14, .r13, .r12, .r11, .r10, .r9, .r8, .rbp, .rdi, .rsi, .rdx, .rcx, .rbx, .rax]

/-- Return address, flags and stack pointer are saved through `rax`. -/
def saveThroughRax : List Instr :=
  [.load .rax .rsp 0, .store .rdi 120 .rax, .pushfq, .pop .rax, .store .rdi 128 .rax, .lea .rax .rsp 8, .store .rdi 136 .rax]

theorem saveContext_eq : saveContext = stores .rdi fieldOffset savedRegs ++ saveThroughRax := rfl

theorem run_saveThroughRax (c : Cpu) :
    (∀ r, r ≠ .rax → (c.run saveThroughRax).regs r = c.regs r) ∧ (c.run saveThroughRax).rflags = c.rflags ∧
      (c.run saveThroughRax).mem = (((c.mem.write64 (c.addr .rdi 120) (c.mem.read64 c.sp)).write64 c.below c.rflags.val).write64
        (c.addr .rdi 128) c.rflags.val).write64 (c.addr .rdi 136) (c.regs .rsp + 8).toNat := by
  have hflags : c.rflags.val % 2 ^ 64 = c.rflags.val := Nat.mod_eq_of_lt c.rflags.val_lt
  have hret : c.mem.read64 (c.regs .rsp).toNat % 2 ^ 64 = c.mem.read64 (c.regs .rsp).toNat :=
    Nat.mod_eq_of_lt (Mem.read64_lt _ _)
  unfold saveThroughRax
  simp only [run, exec, pushWord, Cpu.set, word, addr, below, sp]
  refine ⟨fun r hr => ?_, trivial, ?_⟩
  · by_cases hsp : r = .rsp
    · subst hsp
      simp
    · simp [hr, hsp]
  · simp only [Function.update_self, ne_eq, reduceCtorEq, not_false_eq_true, Function.update_of_ne, BitVec.toNat_ofNat,
      BitVec.ofNat_eq_ofNat, BitVec.add_zero, hflags, hret, Mem.read64_write64_same _ _ c.rflags.val_lt, BitVec.sub_add_cancel]

theorem writes_saveThroughRax (c : Cpu) :
    c.writes saveThroughRax = Set.Ico (c.addr .rdi 120) (c.addr .rdi 120 + 8) ∪ (Set.Ico c.below (c.below + 8) ∪
      (Set.Ico (c.addr .rdi 128) (c.addr .rdi 128 + 8) ∪ Set.Ico (c.addr .rdi 136) (c.addr .rdi 136 + 8))) := by
  unfold saveThroughRax
  simp only [writes, written, exec, pushWord, Cpu.set, word, addr, below, sp, Set.empty_union, Set.union_empty]
  simp only [Function.update_self, ne_eq, reduceCtorEq, not_false_eq_true, Function.update_of_ne]

/-! ### Restoring -/

/-- The registers that are loaded as they are. -/
def loadedRegs : List Reg := [.r15, .r14, .r13, .r12, .r11, .r10, .r9, .r8, .rbp, .rdx, .rcx, .rbx, .rax, .rsp]

/-- Flags and instruction pointer are loaded through the new stack, `rdi` and `rsi` last. -/
def restoreThroughStack : List Instr :=
  [.push .rsi 128, .popfq, .push .rsi 120, .load .rdi .rsi 72, .load .rsi .rsi 80, .ret]

theorem restoreContext_eq : restoreContext = loads .rsi fieldOffset loadedRegs ++ restoreThroughStack := rfl

/-- Memory after the two pushes. -/
def pushedTwice (c : Cpu) : Mem :=
  (c.mem.write64 c.below (c.mem.read64 (c.addr .rsi 128))).write64 c.below
    ((c.mem.write64 c.below (c.mem.read64 (c.addr .rsi 128))).read64 (c.addr .rsi 120))

theorem run_restoreThroughStack (c : Cpu) :
    (∀ r, r ≠ .rdi → r ≠ .rsi → (c.run restoreThroughStack).regs r = c.regs r) ∧
      (c.run restoreThroughStack).regs .rdi = BitVec.ofNat 64 ((pushedTwice c).read64 (c.addr .rsi 72)) ∧
      (c.run restoreThroughStack).regs .rsi = BitVec.ofNat 64 ((pushedTwice c).read64 (c.addr .rsi 80)) ∧
      (c.run restoreThroughStack).rflags = .ofWord (c.mem.read64 (c.addr .rsi 128)) ∧
      (c.run restoreThroughStack).rip = BitVec.ofNat 64 ((pushedTwice c).read64 c.below) ∧
      (c.run restoreThroughStack).mem = pushedTwice c := by
  have hword : ∀ (m : Mem) a, m.read64 a % 2 ^ 64 = m.read64 a := fun m a => Nat.mod_eq_of_lt (Mem.read64_lt m a)
  unfold restoreThroughStack pushedTwice
  simp only [run, exec, pushWord, Cpu.set, word, addr, below, sp]
  simp only [Function.update_self, ne_eq, reduceCtorEq, not_false_eq_true, Function.update_of_ne, BitVec.toNat_ofNat, hword,
    BitVec.sub_add_cancel, Mem.read64_write64_same _ _ (Mem.read64_lt _ _)]
  refine ⟨fun r hdi hsi => ?_, ?_⟩
  · by_cases hsp : r = .rsp
    · subst hsp
      simp
    · simp [hdi, hsi, hsp]
  · simp

theorem writes_restoreThroughStack (c : Cpu) : c.writes restoreThroughStack = Set.Ico c.below (c.below + 8) := by
  unfold restoreThroughStack
  simp only [writes, written, exec, pushWord, Cpu.set, word, addr, below, sp, Set.empty_union, Set.union_empty,
    Function.update_self, BitVec.sub_add_cancel, Set.union_self]

/-! ### What the two halves do -/

/-- The words that the switch saves of its caller, which was about to execute it in `c`. -/
structure SavedAt (m : Mem) (a : ℕ) (c : Cpu) : Prop where
  regs : ∀ r, r ≠ .rsp → m.read64 (a + fieldOffset r) = (c.regs r).toNat
  rip : m.read64 (a + 120) = c.mem.read64 c.sp
  rflags : m.read64 (a + 128) = c.rflags.val
  rsp : m.read64 (a + 136) = c.sp + 8

theorem fieldOffset_le {r : Reg} (h : r ≠ .rsp) : fieldOffset r ≤ 112 := by
  cases r <;> first | decide | exact absurd rfl h

theorem mem_savedRegs {r : Reg} : r ∈ savedRegs ↔ r ≠ .rsp := by
  cases r <;> decide

/-- The caller of a switch, its context at `a` and its stack. -/
structure Caller (c : Cpu) (a : ℕ) : Prop where
  rdi : (c.regs .rdi).toNat = a
  bound : a + CONTEXT_SIZE ≤ 2 ^ 64
  low : 8 ≤ c.sp
  high : c.sp + 8 < 2 ^ 64
  apart : a + CONTEXT_SIZE ≤ c.sp - 8 ∨ c.sp + 8 ≤ a

theorem Caller.addr_rdi (h : Caller c a) {off : ℕ} (ho : off < CONTEXT_SIZE) : c.addr .rdi off = a + off := by
  have hb := h.bound
  rw [addr_eq, h.rdi]
  rw [h.rdi]
  omega

/-- The words of the first fifteen stores do not overlap. -/
theorem Caller.storedWords_eq (h : Caller c a) :
    c.storedWords .rdi fieldOffset savedRegs = savedRegs.map fun r => (a + fieldOffset r, (c.regs r).toNat) := by
  refine List.map_congr_left fun r hr => ?_
  have hle := fieldOffset_le (mem_savedRegs.mp hr)
  rw [h.addr_rdi (by unfold CONTEXT_SIZE; omega)]

/-- **Saving.** -/
theorem Caller.save (h : Caller c a) : SavedAt (c.run saveContext).mem a c ∧
    (∀ r, r ≠ .rax → (c.run saveContext).regs r = c.regs r) ∧ (c.run saveContext).rflags = c.rflags := by
  have hlow := h.low
  have hhigh := h.high
  have hapart := h.apart
  have hbound := h.bound
  unfold CONTEXT_SIZE at hapart hbound
  obtain ⟨m₁, hm₁⟩ : ∃ m₁, m₁ = c.mem.writeWords (c.storedWords .rdi fieldOffset savedRegs) := ⟨_, rfl⟩
  have hstores : c.run (stores .rdi fieldOffset savedRegs) = { c with mem := m₁ } := by
    rw [run_stores, hm₁]
  have hret : m₁.read64 c.sp = c.mem.read64 c.sp := by
    rw [hm₁, h.storedWords_eq]
    refine Mem.read64_writeWords_of_disjoint fun p hp => ?_
    obtain ⟨r, hr, rfl⟩ := List.mem_map.mp hp
    have hle := fieldOffset_le (mem_savedRegs.mp hr)
    dsimp only
    omega
  have hregs : ∀ r, r ≠ .rsp → m₁.read64 (a + fieldOffset r) = (c.regs r).toNat := by
    intro r hr
    rw [hm₁, h.storedWords_eq]
    refine Mem.read64_writeWords ?_ (c.regs r).isLt (List.mem_map.mpr ⟨r, mem_savedRegs.mpr hr, rfl⟩)
    have hsep : savedRegs.Pairwise (fun r r' => fieldOffset r + 8 ≤ fieldOffset r' ∨ fieldOffset r' + 8 ≤ fieldOffset r) := by
      decide
    refine List.pairwise_map.mpr (hsep.imp fun {r r'} hd => ?_)
    dsimp only
    omega
  rw [saveContext_eq, run_append, hstores]
  obtain ⟨hkeep, hflags, hmem⟩ := run_saveThroughRax { c with mem := m₁ }
  have h120 : Cpu.addr { c with mem := m₁ } .rdi 120 = a + 120 := h.addr_rdi (by decide)
  have h128 : Cpu.addr { c with mem := m₁ } .rdi 128 = a + 128 := h.addr_rdi (by decide)
  have h136 : Cpu.addr { c with mem := m₁ } .rdi 136 = a + 136 := h.addr_rdi (by decide)
  have hbelow : Cpu.below { c with mem := m₁ } = c.sp - 8 := below_eq hlow
  rw [h120, h128, h136, hbelow] at hmem
  refine ⟨?_, hkeep, hflags⟩
  rw [hmem]
  have hsp : (c.regs .rsp + 8).toNat = c.sp + 8 := by
    rw [BitVec.toNat_add]
    exact Nat.mod_eq_of_lt hhigh
  refine ⟨fun r hr => ?_, ?_, ?_, ?_⟩
  · have hle := fieldOffset_le hr
    rw [Mem.read64_write64_of_disjoint (by omega), Mem.read64_write64_of_disjoint (by omega),
      Mem.read64_write64_of_disjoint (by omega), Mem.read64_write64_of_disjoint (by omega), hregs r hr]
  · rw [Mem.read64_write64_of_disjoint (by omega), Mem.read64_write64_of_disjoint (by omega),
      Mem.read64_write64_of_disjoint (by omega), Mem.read64_write64_same _ _ (Mem.read64_lt _ _)]
    exact hret
  · rw [Mem.read64_write64_of_disjoint (by omega), Mem.read64_write64_same _ _ c.rflags.val_lt]
  · dsimp only
    rw [hsp, Mem.read64_write64_same _ _ hhigh]

/-- The addresses that saving writes. -/
theorem Caller.writes_save (h : Caller c a) : c.writes saveContext ⊆ Set.Ico a (a + 144) ∪ Set.Ico (c.sp - 8) c.sp := by
  have hlow := h.low
  rw [saveContext_eq, writes_append, run_stores, writes_stores, writes_saveThroughRax]
  have haddr : ∀ m off, off < CONTEXT_SIZE → Cpu.addr { c with mem := m } .rdi off = a + off := fun m off => h.addr_rdi
  have hbelow : ∀ m, Cpu.below { c with mem := m } = c.sp - 8 := fun m => below_eq hlow
  rw [haddr _ 120 (by decide), haddr _ 128 (by decide), haddr _ 136 (by decide), hbelow]
  rintro x (⟨r, hr, hx⟩ | hx)
  · have hle := fieldOffset_le (mem_savedRegs.mp hr)
    rw [h.addr_rdi (by unfold CONTEXT_SIZE; omega), Set.mem_Ico] at hx
    left
    rw [Set.mem_Ico]
    omega
  · simp only [Set.mem_union, Set.mem_Ico] at hx ⊢
    omega

/-- The state that a switch resumes from a context at `b`, and the stack there. -/
structure Resumes (c : Cpu) (b : ℕ) : Prop where
  rsi : (c.regs .rsi).toNat = b
  bound : b + CONTEXT_SIZE ≤ 2 ^ 64
  low : 8 ≤ c.mem.read64 (b + 136)
  apart : b + CONTEXT_SIZE ≤ c.mem.read64 (b + 136) - 8 ∨ c.mem.read64 (b + 136) ≤ b

theorem Resumes.addr_rsi (h : Resumes c b) {off : ℕ} (ho : off < CONTEXT_SIZE) : c.addr .rsi off = b + off := by
  have hb := h.bound
  rw [addr_eq, h.rsi]
  rw [h.rsi]
  omega

/-- Registers after the loads. -/
def loadedFrom (c : Cpu) (r : Reg) : BitVec 64 := if r ∈ loadedRegs then c.word (c.addr .rsi (fieldOffset r)) else c.regs r

theorem run_loadedRegs (c : Cpu) : c.run (loads .rsi fieldOffset loadedRegs) = { c with regs := loadedFrom c } :=
  run_loads c fieldOffset (by decide)

theorem Resumes.sp_loaded (h : Resumes c b) : Cpu.sp { c with regs := loadedFrom c } = c.mem.read64 (b + 136) := by
  show (c.word (c.addr .rsi 136)).toNat = c.mem.read64 (b + 136)
  rw [h.addr_rsi (by decide)]
  exact Nat.mod_eq_of_lt (Mem.read64_lt _ _)

theorem Resumes.below_loaded (h : Resumes c b) :
    Cpu.below { c with regs := loadedFrom c } = c.mem.read64 (b + 136) - 8 := by
  rw [below_eq (by rw [h.sp_loaded]; exact h.low), h.sp_loaded]

/-- The pushes do not touch the context. -/
theorem Resumes.read64_push (h : Resumes c b) (m : Mem) (v : ℕ) {off : ℕ} (ho : off + 8 ≤ CONTEXT_SIZE) :
    (m.write64 (Cpu.below { c with regs := loadedFrom c }) v).read64 (b + off) = m.read64 (b + off) := by
  have hlow := h.low
  have hapart := h.apart
  rw [h.below_loaded]
  exact Mem.read64_write64_of_disjoint (by omega)

/-- **Restoring.** -/
theorem Resumes.restore (h : Resumes c b) :
    (∀ r, (c.run restoreContext).regs r = BitVec.ofNat 64 (c.mem.read64 (b + fieldOffset r))) ∧
      (c.run restoreContext).rflags = .ofWord (c.mem.read64 (b + 128)) ∧
      (c.run restoreContext).rip = BitVec.ofNat 64 (c.mem.read64 (b + 120)) := by
  rw [restoreContext_eq, run_append, run_loadedRegs]
  obtain ⟨hregs, hdi, hsi, hflags, hrip, _⟩ := run_restoreThroughStack { c with regs := loadedFrom c }
  have haddr : ∀ off, off < CONTEXT_SIZE → Cpu.addr { c with regs := loadedFrom c } .rsi off = b + off := fun off => h.addr_rsi
  unfold pushedTwice at hdi hsi hrip
  rw [haddr 72 (by decide), h.read64_push _ _ (by decide), h.read64_push _ _ (by decide)] at hdi
  rw [haddr 80 (by decide), h.read64_push _ _ (by decide), h.read64_push _ _ (by decide)] at hsi
  rw [haddr 128 (by decide)] at hflags
  rw [haddr 120 (by decide), Mem.read64_write64_same _ _ (Mem.read64_lt _ _), h.read64_push _ _ (by decide)] at hrip
  refine ⟨fun r => ?_, hflags, hrip⟩
  by_cases hr : r = .rdi
  · rw [hr]
    exact hdi
  · by_cases hr' : r = .rsi
    · rw [hr']
      exact hsi
    · have hload : r ∈ loadedRegs := by
        cases r <;> first | decide | exact absurd rfl hr | exact absurd rfl hr'
      have hoff : fieldOffset r < CONTEXT_SIZE := by
        cases r <;> decide
      rw [hregs r hr hr']
      show loadedFrom c r = _
      unfold loadedFrom
      rw [if_pos hload, h.addr_rsi hoff]
      rfl

/-- The addresses that restoring writes. -/
theorem Resumes.writes_restore (h : Resumes c b) :
    c.writes restoreContext = Set.Ico (c.mem.read64 (b + 136) - 8) (c.mem.read64 (b + 136)) := by
  have hlow := h.low
  rw [restoreContext_eq, writes_append, writes_loads, run_loadedRegs, writes_restoreThroughStack, h.below_loaded,
    Set.empty_union, Nat.sub_add_cancel hlow]

end HeroOS
