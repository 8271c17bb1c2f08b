import HeroOS.Instr

/-! # Blocks of pushes and pops

Code that saves registers on the stack pushes a list of words and pops them again.  `Cpu.pushes` and
`Cpu.pops` are such blocks; as long as the stack pointer does not wrap,

* `Cpu.read64_pushes`: the `i`-th word pushed stands `i + 1` words below the old stack pointer, and
  `Cpu.pushes_of_outside`: nothing else is written;
* `Cpu.pops_regs`: the `i`-th register popped gets the `i`-th word of the stack, and
  `Cpu.pops_regs_of_notMem`: no other register changes. -/

namespace HeroOS
namespace Cpu

/-- Push words, the first one first. -/
def pushes (c : Cpu) : List (BitVec 64) → Cpu
  | [] => c
  | v :: vs => (c.pushWord v).pushes vs

/-- Pop registers, the first one first. -/
def pops (c : Cpu) : List Reg → Cpu
  | [] => c
  | r :: rs => (c.exec (.pop r)).pops rs

variable {c : Cpu} {r : Reg} {v : BitVec 64} {vs ws : List (BitVec 64)} {rs : List Reg} {i x : ℕ}

/-! ### Pushes -/

theorem pushes_append (c : Cpu) (vs ws : List (BitVec 64)) : c.pushes (vs ++ ws) = (c.pushes vs).pushes ws := by
  induction vs generalizing c with
  | nil => rfl
  | cons v vs ih => exact ih (c.pushWord v)

@[simp] theorem pushWord_rsp (c : Cpu) (v : BitVec 64) : (c.pushWord v).regs .rsp = c.regs .rsp - 8 :=
  set_same c .rsp (c.regs .rsp - 8)

theorem pushWord_regs (h : r ≠ .rsp) : (c.pushWord v).regs r = c.regs r := set_of_ne h

theorem pushes_regs (h : r ≠ .rsp) (vs : List (BitVec 64)) : (c.pushes vs).regs r = c.regs r := by
  induction vs generalizing c with
  | nil => rfl
  | cons v vs ih => rw [pushes, ih, pushWord_regs h]

@[simp] theorem pushes_rip (c : Cpu) (vs : List (BitVec 64)) : (c.pushes vs).rip = c.rip := by
  induction vs generalizing c with
  | nil => rfl
  | cons v vs ih => exact ih (c.pushWord v)

@[simp] theorem pushes_rflags (c : Cpu) (vs : List (BitVec 64)) : (c.pushes vs).rflags = c.rflags := by
  induction vs generalizing c with
  | nil => rfl
  | cons v vs ih => exact ih (c.pushWord v)

theorem pushWord_sp (h : 8 ≤ c.sp) : (c.pushWord v).sp = c.sp - 8 := by
  have hb := below_eq h
  unfold below at hb
  unfold sp at *
  rw [pushWord_rsp]
  exact hb

theorem pushes_sp (h : 8 * vs.length ≤ c.sp) : (c.pushes vs).sp = c.sp - 8 * vs.length := by
  induction vs generalizing c with
  | nil => rfl
  | cons v vs ih =>
      rw [List.length_cons] at h
      have hsp : (c.pushWord v).sp = c.sp - 8 := pushWord_sp (by omega)
      rw [pushes, ih (by omega), hsp, List.length_cons]
      omega

/-- What lies outside the words pushed stays. -/
theorem pushes_of_outside (h : 8 * vs.length ≤ c.sp) (hx : x < c.sp - 8 * vs.length ∨ c.sp ≤ x) :
    (c.pushes vs).mem x = c.mem x := by
  induction vs generalizing c with
  | nil => rfl
  | cons v vs ih =>
      rw [List.length_cons] at h hx
      have hsp : (c.pushWord v).sp = c.sp - 8 := pushWord_sp (by omega)
      have hb : c.below = c.sp - 8 := below_eq (by omega)
      have hword : (c.pushWord v).mem x = c.mem x := Mem.write64_of_outside (by omega)
      rw [pushes, ih (by omega) (by omega), hword]

/-- **The words pushed.** -/
theorem read64_pushes (h : 8 * vs.length ≤ c.sp) (hi : i < vs.length) :
    (c.pushes vs).mem.read64 (c.sp - 8 * (i + 1)) = vs[i].toNat := by
  induction vs generalizing c i with
  | nil => cases hi
  | cons v vs ih =>
      rw [List.length_cons] at h hi
      have hsp : (c.pushWord v).sp = c.sp - 8 := pushWord_sp (by omega)
      cases i with
      | zero =>
          have hb : c.below = c.sp - 8 := below_eq (by omega)
          have hkeep : (c.pushes (v :: vs)).mem.read64 (c.sp - 8) = (c.pushWord v).mem.read64 (c.sp - 8) := by
            apply Mem.read64_congr
            intro y hy
            have h1 := hy.1
            show ((c.pushWord v).pushes vs).mem y = (c.pushWord v).mem y
            exact pushes_of_outside (by omega) (.inr (by omega))
          show (c.pushes (v :: vs)).mem.read64 (c.sp - 8) = v.toNat
          rw [hkeep, ← hb]
          exact Mem.read64_write64_same c.mem c.below v.isLt
      | succ i =>
          have hnext := ih (c := c.pushWord v) (i := i) (by omega) (by omega)
          have haddr : c.sp - 8 - 8 * (i + 1) = c.sp - 8 * (i + 1 + 1) := by omega
          rw [hsp, haddr] at hnext
          rw [pushes, hnext]
          rfl

/-! ### Pops -/

theorem exec_pop_sp (hr : r ≠ .rsp) (h : c.sp + 8 < 2 ^ 64) : (c.exec (.pop r)).sp = c.sp + 8 := by
  have hset : (c.exec (.pop r)).regs .rsp = c.regs .rsp + 8 := by
    unfold exec
    rw [set_of_ne hr.symm, set_same]
  unfold sp at *
  rw [hset, BitVec.toNat_add]
  exact Nat.mod_eq_of_lt h

theorem exec_pop_of_ne {r' : Reg} (h : r' ≠ r) (hsp : r' ≠ .rsp) : (c.exec (.pop r)).regs r' = c.regs r' := by
  unfold exec
  rw [set_of_ne h, set_of_ne hsp]

@[simp] theorem pops_mem (c : Cpu) (rs : List Reg) : (c.pops rs).mem = c.mem := by
  induction rs generalizing c with
  | nil => rfl
  | cons r rs ih => exact ih (c.exec (.pop r))

@[simp] theorem pops_rflags (c : Cpu) (rs : List Reg) : (c.pops rs).rflags = c.rflags := by
  induction rs generalizing c with
  | nil => rfl
  | cons r rs ih => exact ih (c.exec (.pop r))

theorem pops_sp (hrs : Reg.rsp ∉ rs) (h : c.sp + 8 * rs.length < 2 ^ 64) : (c.pops rs).sp = c.sp + 8 * rs.length := by
  induction rs generalizing c with
  | nil => rfl
  | cons r rs ih =>
      rw [List.mem_cons, not_or] at hrs
      rw [List.length_cons] at h
      have hsp : (c.exec (.pop r)).sp = c.sp + 8 := exec_pop_sp (Ne.symm hrs.1) (by omega)
      rw [pops, ih hrs.2 (by omega), hsp, List.length_cons]
      omega

/-- A register that is not popped stays. -/
theorem pops_regs_of_notMem (hr : r ∉ rs) (hsp : r ≠ .rsp) : (c.pops rs).regs r = c.regs r := by
  induction rs generalizing c with
  | nil => rfl
  | cons r' rs ih =>
      rw [List.mem_cons, not_or] at hr
      rw [pops, ih hr.2, exec_pop_of_ne hr.1 hsp]

/-- **The registers popped.** -/
theorem pops_regs (hnodup : rs.Nodup) (hrs : Reg.rsp ∉ rs) (h : c.sp + 8 * rs.length < 2 ^ 64) (hi : i < rs.length) :
    (c.pops rs).regs rs[i] = c.word (c.sp + 8 * i) := by
  induction rs generalizing c i with
  | nil => cases hi
  | cons r rs ih =>
      rw [List.mem_cons, not_or] at hrs
      rw [List.nodup_cons] at hnodup
      rw [List.length_cons] at h hi
      have hsp : (c.exec (.pop r)).sp = c.sp + 8 := exec_pop_sp (Ne.symm hrs.1) (by omega)
      cases i with
      | zero =>
          show ((c.exec (.pop r)).pops rs).regs r = c.word c.sp
          rw [pops_regs_of_notMem hnodup.1 (Ne.symm hrs.1)]
          exact set_same _ _ _
      | succ i =>
          have hnext := ih (c := c.exec (.pop r)) (i := i) hnodup.2 hrs.2 (by omega) (by omega)
          have haddr : c.sp + 8 + 8 * i = c.sp + 8 * (i + 1) := by omega
          rw [hsp, haddr] at hnext
          exact hnext

end Cpu
end HeroOS
