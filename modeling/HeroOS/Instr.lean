import HeroOS.Memory

/-! # Straight-line machine code

A fragment of 64-bit x86 code at privilege level 0: moves between registers and memory, pushes and
pops, and the return.  `Cpu.run` executes a list of instructions in order and `Cpu.writes` collects
the addresses that they write; memory elsewhere stays (`Cpu.run_mem_of_not_mem`).

Code that saves or restores many registers is a block of stores or of loads through one base
register.  `Cpu.run_stores` and `Cpu.run_loads` say what such blocks do, whatever their order. -/

namespace HeroOS

/-- The general registers. -/
inductive Reg where
  | rax | rbx | rcx | rdx | rsi | rdi | rbp | rsp
  | r8 | r9 | r10 | r11 | r12 | r13 | r14 | r15
deriving DecidableEq, Repr

/-- The flags that `popfq` loads at privilege level 0. -/
def FLAGS_MASK : ℕ := 0x247FD5

/-- The flags register.  Bit 1 is set.  The resume flag is clear while an instruction executes, the
flags of the virtual-8086 modes are not used, and all others are clear. -/
structure Rflags where
  val : ℕ
  valid : val &&& FLAGS_MASK ||| 2 = val

namespace Rflags

theorem eq_of_val {f g : Rflags} (h : f.val = g.val) : f = g := by
  cases f
  cases g
  cases h
  rfl

/-- The flags that `popfq` loads from a word. -/
def ofWord (x : ℕ) : Rflags where
  val := x &&& FLAGS_MASK ||| 2
  valid := by
    rw [Nat.and_or_distrib_right, Nat.and_assoc, Nat.and_self, show 2 &&& FLAGS_MASK = 0 from rfl, Nat.or_zero]

theorem ofWord_val (f : Rflags) : ofWord f.val = f := eq_of_val f.valid

theorem val_lt (f : Rflags) : f.val < 2 ^ 64 := by
  rw [← f.valid]
  exact Nat.or_lt_two_pow (Nat.and_lt_two_pow _ (by decide)) (by decide)

end Rflags

/-- Registers and memory. -/
structure Cpu where
  regs : Reg → BitVec 64
  rip : BitVec 64
  rflags : Rflags
  mem : Mem

/-- Instructions; a memory operand is a register and an offset. -/
inductive Instr where
  /-- `mov [base + off], src` -/
  | store (base : Reg) (off : ℕ) (src : Reg)
  /-- `mov dst, [base + off]` -/
  | load (dst base : Reg) (off : ℕ)
  /-- `lea dst, [base + off]` -/
  | lea (dst base : Reg) (off : ℕ)
  /-- `push qword [base + off]` -/
  | push (base : Reg) (off : ℕ)
  | pop (dst : Reg)
  | pushfq
  | popfq
  | ret

namespace Cpu

/-- The address of a memory operand. -/
def addr (c : Cpu) (base : Reg) (off : ℕ) : ℕ := (c.regs base + BitVec.ofNat 64 off).toNat

/-- The word at an address. -/
def word (c : Cpu) (a : ℕ) : BitVec 64 := BitVec.ofNat 64 (c.mem.read64 a)

/-- Load a register. -/
def set (c : Cpu) (r : Reg) (v : BitVec 64) : Cpu := { c with regs := Function.update c.regs r v }

/-- The address of the top of the stack. -/
def sp (c : Cpu) : ℕ := (c.regs .rsp).toNat

/-- The address at which a word is pushed. -/
def below (c : Cpu) : ℕ := (c.regs .rsp - 8).toNat

/-- Push a word. -/
def pushWord (c : Cpu) (v : BitVec 64) : Cpu :=
  { c.set .rsp (c.regs .rsp - 8) with mem := c.mem.write64 c.below v.toNat }

/-- One instruction. -/
def exec (c : Cpu) : Instr → Cpu
  | .store base off src => { c with mem := c.mem.write64 (c.addr base off) (c.regs src).toNat }
  | .load dst base off => c.set dst (c.word (c.addr base off))
  | .lea dst base off => c.set dst (c.regs base + BitVec.ofNat 64 off)
  | .push base off => c.pushWord (c.word (c.addr base off))
  | .pop dst => (c.set .rsp (c.regs .rsp + 8)).set dst (c.word c.sp)
  | .pushfq => c.pushWord (BitVec.ofNat 64 c.rflags.val)
  | .popfq => { c.set .rsp (c.regs .rsp + 8) with rflags := .ofWord (c.mem.read64 c.sp) }
  | .ret => { c.set .rsp (c.regs .rsp + 8) with rip := c.word c.sp }

/-- The addresses that an instruction writes. -/
def written (c : Cpu) : Instr → Set ℕ
  | .store base off _ => Set.Ico (c.addr base off) (c.addr base off + 8)
  | .push _ _ | .pushfq => Set.Ico c.below (c.below + 8)
  | .load _ _ _ | .lea _ _ _ | .pop _ | .popfq | .ret => ∅

/-- Instructions in order. -/
def run (c : Cpu) : List Instr → Cpu
  | [] => c
  | i :: is => (c.exec i).run is

/-- The addresses that they write. -/
def writes (c : Cpu) : List Instr → Set ℕ
  | [] => ∅
  | i :: is => c.written i ∪ (c.exec i).writes is

variable {c : Cpu} {base r : Reg} {off x : ℕ} {v : BitVec 64} {is : List Instr}

theorem run_append (c : Cpu) (is js : List Instr) : c.run (is ++ js) = (c.run is).run js := by
  induction is generalizing c with
  | nil => rfl
  | cons i is ih => exact ih (c.exec i)

theorem writes_append (c : Cpu) (is js : List Instr) : c.writes (is ++ js) = c.writes is ∪ (c.run is).writes js := by
  induction is generalizing c with
  | nil => exact (Set.empty_union _).symm
  | cons i is ih =>
      rw [List.cons_append, writes, writes, run, ih, Set.union_assoc]

/-! ### Registers -/

@[simp] theorem set_same (c : Cpu) (r : Reg) (v : BitVec 64) : (c.set r v).regs r = v := Function.update_self _ _ _

theorem set_of_ne {r' : Reg} (h : r' ≠ r) : (c.set r v).regs r' = c.regs r' := Function.update_of_ne h _ _

@[simp] theorem set_mem (c : Cpu) (r : Reg) (v : BitVec 64) : (c.set r v).mem = c.mem := rfl

@[simp] theorem set_rflags (c : Cpu) (r : Reg) (v : BitVec 64) : (c.set r v).rflags = c.rflags := rfl

theorem addr_eq (h : (c.regs base).toNat + off < 2 ^ 64) : c.addr base off = (c.regs base).toNat + off := by
  unfold addr
  rw [BitVec.toNat_add, BitVec.toNat_ofNat, Nat.add_mod_mod, Nat.mod_eq_of_lt h]

theorem below_eq (h : 8 ≤ c.sp) : c.below = c.sp - 8 := by
  unfold below sp at *
  rw [BitVec.toNat_sub_of_le (by rw [BitVec.le_def]; exact h)]
  rfl

/-! ### Frames -/

theorem exec_mem_of_not_mem {i : Instr} (h : x ∉ c.written i) : (c.exec i).mem x = c.mem x := by
  have hout : ∀ {a : ℕ}, x ∉ Set.Ico a (a + 8) → x < a ∨ a + 8 ≤ x := by
    intro a ha
    rw [Set.mem_Ico] at ha
    omega
  cases i with
  | store base off src => exact Mem.write64_of_outside (hout h)
  | push base off => exact Mem.write64_of_outside (hout h)
  | pushfq => exact Mem.write64_of_outside (hout h)
  | load dst base off => rfl
  | lea dst base off => rfl
  | pop dst => rfl
  | popfq => rfl
  | ret => rfl

/-- **Frame**: memory outside the addresses written stays. -/
theorem run_mem_of_not_mem (h : x ∉ c.writes is) : (c.run is).mem x = c.mem x := by
  induction is generalizing c with
  | nil => rfl
  | cons i is ih =>
      rw [writes, Set.mem_union, not_or] at h
      rw [run, ih h.2, exec_mem_of_not_mem h.1]

/-! ### Blocks of stores and of loads -/

/-- Store the registers `rs` at their offsets from `base`. -/
def stores (base : Reg) (off : Reg → ℕ) (rs : List Reg) : List Instr := rs.map fun r => .store base (off r) r

/-- Load the registers `rs` from their offsets from `base`. -/
def loads (base : Reg) (off : Reg → ℕ) (rs : List Reg) : List Instr := rs.map fun r => .load r base (off r)

variable {f : Reg → ℕ} {rs : List Reg}

/-- The words that a block of stores writes. -/
def storedWords (c : Cpu) (base : Reg) (f : Reg → ℕ) (rs : List Reg) : List (ℕ × ℕ) :=
  rs.map fun r => (c.addr base (f r), (c.regs r).toNat)

/-- **A block of stores.** -/
theorem run_stores (c : Cpu) (base : Reg) (f : Reg → ℕ) (rs : List Reg) :
    c.run (stores base f rs) = { c with mem := c.mem.writeWords (c.storedWords base f rs) } := by
  induction rs generalizing c with
  | nil => rfl
  | cons r rs ih => exact ih (c.exec (.store base (f r) r))

theorem writes_stores (c : Cpu) (base : Reg) (f : Reg → ℕ) (rs : List Reg) :
    c.writes (stores base f rs) = {x | ∃ r ∈ rs, x ∈ Set.Ico (c.addr base (f r)) (c.addr base (f r) + 8)} := by
  induction rs generalizing c with
  | nil =>
      ext x
      simp [stores, writes]
  | cons r rs ih =>
      have hrest := ih (c.exec (.store base (f r) r))
      unfold stores at hrest
      ext x
      rw [stores, List.map_cons, writes, hrest, Set.mem_union, Set.mem_ofPred_eq, Set.mem_ofPred_eq]
      simp only [List.mem_cons, exists_eq_or_imp]
      rfl

/-- **A block of loads.** -/
theorem run_loads (c : Cpu) (f : Reg → ℕ) (hbase : base ∉ rs) :
    c.run (loads base f rs) =
      { c with regs := fun r => if r ∈ rs then c.word (c.addr base (f r)) else c.regs r } := by
  induction rs generalizing c with
  | nil => simp [loads, run]
  | cons r rs ih =>
      rw [List.mem_cons, not_or] at hbase
      have haddr : ∀ n, (c.exec (.load r base (f r))).addr base n = c.addr base n := by
        intro n
        unfold addr exec
        rw [set_of_ne hbase.1]
      have hrest := ih (c.exec (.load r base (f r))) hbase.2
      unfold loads at hrest
      rw [loads, List.map_cons, run, hrest]
      have hregs : ∀ r', (if r' ∈ rs then (c.exec (.load r base (f r))).word ((c.exec (.load r base (f r))).addr base (f r'))
          else (c.exec (.load r base (f r))).regs r') = if r' ∈ r :: rs then c.word (c.addr base (f r')) else c.regs r' := by
        intro r'
        by_cases hr' : r' ∈ rs
        · rw [if_pos hr', if_pos (List.mem_cons_of_mem r hr'), haddr]
          rfl
        · rw [if_neg hr']
          by_cases he : r' = r
          · subst he
            rw [if_pos List.mem_cons_self]
            exact set_same _ _ _
          · rw [if_neg fun h => (List.mem_cons.mp h).elim he hr']
            exact set_of_ne he
      rw [funext hregs]
      rfl

theorem writes_loads (c : Cpu) (base : Reg) (f : Reg → ℕ) (rs : List Reg) : c.writes (loads base f rs) = ∅ := by
  induction rs generalizing c with
  | nil => rfl
  | cons r rs ih =>
      have hrest := ih (c.exec (.load r base (f r)))
      unfold loads at hrest
      rw [loads, List.map_cons, writes, hrest]
      exact Set.empty_union _

end Cpu
end HeroOS
