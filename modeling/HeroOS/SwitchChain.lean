import HeroOS.ContextSwitch
import HeroOS.Process

/-! # Chains of context switches

Processes with their saved contexts and their stacks, and runs in which they switch to each other.

* `Switches.saved`, `Switches.restored`: what one switch saves and what it resumes;
* `Switches.refines`: the instructions do what the scheduler's model says of a switch;
* `switch_round_trip`: a process that has left through `context_switch` finds its registers and flags
  as they were when another one switches back to it, whatever happened in between, as long as nobody
  has written its saved context. -/

namespace HeroOS

open Cpu

/-- Where the processes have their `cpu_context_t` and their stacks.  None of these overlap. -/
structure Layout (ι : Type) where
  ctx : ι → ℕ
  stack : ι → Set ℕ
  bound : ∀ i, ctx i + CONTEXT_SIZE ≤ 2 ^ 64
  ctx_ctx : ∀ i j, i ≠ j → Disjoint (Set.Ico (ctx i) (ctx i + CONTEXT_SIZE)) (Set.Ico (ctx j) (ctx j + CONTEXT_SIZE))
  ctx_stack : ∀ i j, Disjoint (Set.Ico (ctx i) (ctx i + CONTEXT_SIZE)) (stack j)
  stack_stack : ∀ i j, i ≠ j → Disjoint (stack i) (stack j)

/-- The bytes of the saved context of a process. -/
def Layout.context {ι : Type} (L : Layout ι) (i : ι) : Set ℕ := Set.Ico (L.ctx i) (L.ctx i + CONTEXT_SIZE)

variable {ι : Type} {L : Layout ι} {c c' : Cpu} {i j p : ι}

/-- Process `i` is about to execute `context_switch(ctx i, ctx j)` on its own stack, and the saved
stack pointer of process `j` lies on the stack of `j`. -/
structure Switches (L : Layout ι) (i j : ι) (c : Cpu) : Prop where
  rdi : (c.regs .rdi).toNat = L.ctx i
  rsi : (c.regs .rsi).toNat = L.ctx j
  other : i ≠ j
  low : 8 ≤ c.sp
  high : c.sp + 8 < 2 ^ 64
  oldStack : Set.Ico (c.sp - 8) (c.sp + 8) ⊆ L.stack i
  newLow : 8 ≤ c.mem.read64 (L.ctx j + 136)
  newStack : Set.Ico (c.mem.read64 (L.ctx j + 136) - 8) (c.mem.read64 (L.ctx j + 136)) ⊆ L.stack j

/-! ### One switch -/

theorem Switches.caller (h : Switches L i j c) : Caller c (L.ctx i) := by
  have hlow := h.low
  refine ⟨h.rdi, L.bound i, h.low, h.high, ?_⟩
  have hd := (L.ctx_stack i i).mono_right h.oldStack
  rw [Set.Ico_disjoint_Ico] at hd
  unfold CONTEXT_SIZE at hd ⊢
  omega

/-- Saving leaves the context of the new process alone. -/
theorem Switches.save_context (h : Switches L i j c) : Set.EqOn (c.run saveContext).mem c.mem (L.context j) := by
  intro x hx
  refine run_mem_of_not_mem fun hw => ?_
  rcases h.caller.writes_save hw with hw | hw
  · have hw' : x ∈ Set.Ico (L.ctx i) (L.ctx i + CONTEXT_SIZE) := Set.Ico_subset_Ico_right (by unfold CONTEXT_SIZE; omega) hw
    exact Set.disjoint_left.mp (L.ctx_ctx i j h.other) hw' hx
  · have hw' : x ∈ L.stack i := h.oldStack (Set.Ico_subset_Ico_right (by omega) hw)
    exact Set.disjoint_left.mp (L.ctx_stack j i) hx hw'

/-- A word of a saved context. -/
theorem read64_context {m m' : Mem} (h : Set.EqOn m' m (L.context p)) {off : ℕ} (ho : off + 8 ≤ CONTEXT_SIZE) :
    m'.read64 (L.ctx p + off) = m.read64 (L.ctx p + off) :=
  Mem.read64_congr (h.mono (Set.Ico_subset_Ico (by omega) (by omega)))

theorem SavedAt.congr {m m' : Mem} (h : SavedAt m (L.ctx p) c) (he : Set.EqOn m' m (L.context p)) : SavedAt m' (L.ctx p) c := by
  refine ⟨fun r hr => ?_, ?_, ?_, ?_⟩
  · rw [read64_context he (by cases r <;> decide), h.regs r hr]
  · rw [read64_context he (by decide), h.rip]
  · rw [read64_context he (by decide), h.rflags]
  · rw [read64_context he (by decide), h.rsp]

theorem Switches.resumes (h : Switches L i j c) : Resumes (c.run saveContext) (L.ctx j) := by
  have hread : (c.run saveContext).mem.read64 (L.ctx j + 136) = c.mem.read64 (L.ctx j + 136) :=
    read64_context h.save_context (by decide)
  have hlow := h.newLow
  refine ⟨?_, L.bound j, by rw [hread]; exact h.newLow, ?_⟩
  · rw [h.caller.save.2.1 .rsi (by decide)]
    exact h.rsi
  · rw [hread]
    have hd := (L.ctx_stack j j).mono_right h.newStack
    rw [Set.Ico_disjoint_Ico] at hd
    unfold CONTEXT_SIZE at hd ⊢
    omega

/-- The addresses that a switch writes: in the saved context of the old process, up to the selectors,
and one word on each stack. -/
theorem Switches.writes (h : Switches L i j c) : c.writes contextSwitch ⊆
    Set.Ico (L.ctx i) (L.ctx i + 144) ∪ Set.Ico (c.sp - 8) c.sp ∪
      Set.Ico (c.mem.read64 (L.ctx j + 136) - 8) (c.mem.read64 (L.ctx j + 136)) := by
  have hread : (c.run saveContext).mem.read64 (L.ctx j + 136) = c.mem.read64 (L.ctx j + 136) :=
    read64_context h.save_context (by decide)
  unfold contextSwitch
  rw [writes_append, h.resumes.writes_restore, hread]
  exact Set.union_subset_union_left _ h.caller.writes_save

/-- **A switch saves the old process.** -/
theorem Switches.saved (h : Switches L i j c) : SavedAt (c.run contextSwitch).mem (L.ctx i) c := by
  unfold contextSwitch
  rw [run_append]
  refine h.caller.save.1.congr fun x hx => run_mem_of_not_mem fun hw => ?_
  have hread : (c.run saveContext).mem.read64 (L.ctx j + 136) = c.mem.read64 (L.ctx j + 136) :=
    read64_context h.save_context (by decide)
  rw [h.resumes.writes_restore, hread] at hw
  exact Set.disjoint_left.mp (L.ctx_stack i j) hx (h.newStack hw)

/-- **A switch resumes the new process** from its saved context. -/
theorem Switches.restored (h : Switches L i j c) :
    (∀ r, (c.run contextSwitch).regs r = BitVec.ofNat 64 (c.mem.read64 (L.ctx j + fieldOffset r))) ∧
      (c.run contextSwitch).rflags = .ofWord (c.mem.read64 (L.ctx j + 128)) ∧
      (c.run contextSwitch).rip = BitVec.ofNat 64 (c.mem.read64 (L.ctx j + 120)) := by
  have hread : ∀ {off}, off + 8 ≤ CONTEXT_SIZE →
      (c.run saveContext).mem.read64 (L.ctx j + off) = c.mem.read64 (L.ctx j + off) := read64_context h.save_context
  obtain ⟨hregs, hflags, hrip⟩ := h.resumes.restore
  unfold contextSwitch
  rw [run_append]
  refine ⟨fun r => ?_, ?_, ?_⟩
  · rw [hregs r, hread (by cases r <;> decide)]
  · rw [hflags, hread (by decide)]
  · rw [hrip, hread (by decide)]

/-! ### The view of the scheduler -/

/-- The context saved at `a`; `site` tells code addresses apart. -/
def contextAt (site : ℕ → CodeAddr) (m : Mem) (a : ℕ) : CpuContext where
  r15 := m.read64 (a + fieldOffset .r15)
  r14 := m.read64 (a + fieldOffset .r14)
  r13 := m.read64 (a + fieldOffset .r13)
  r12 := m.read64 (a + fieldOffset .r12)
  r11 := m.read64 (a + fieldOffset .r11)
  r10 := m.read64 (a + fieldOffset .r10)
  r9 := m.read64 (a + fieldOffset .r9)
  r8 := m.read64 (a + fieldOffset .r8)
  rbp := m.read64 (a + fieldOffset .rbp)
  rdi := m.read64 (a + fieldOffset .rdi)
  rsi := m.read64 (a + fieldOffset .rsi)
  rdx := m.read64 (a + fieldOffset .rdx)
  rcx := m.read64 (a + fieldOffset .rcx)
  rbx := m.read64 (a + fieldOffset .rbx)
  rax := m.read64 (a + fieldOffset .rax)
  rip := site (m.read64 (a + 120))
  rflags := m.read64 (a + 128)
  rsp := m.read64 (a + fieldOffset .rsp)
  cs := m.read64 (a + 144)
  ss := m.read64 (a + 152)

/-- The registers, where execution goes on at `rip` with the stack pointer `rsp`. -/
def Cpu.view (c : Cpu) (rip : CodeAddr) (rsp cs ss : ℕ) : CpuContext where
  r15 := (c.regs .r15).toNat
  r14 := (c.regs .r14).toNat
  r13 := (c.regs .r13).toNat
  r12 := (c.regs .r12).toNat
  r11 := (c.regs .r11).toNat
  r10 := (c.regs .r10).toNat
  r9 := (c.regs .r9).toNat
  r8 := (c.regs .r8).toNat
  rbp := (c.regs .rbp).toNat
  rdi := (c.regs .rdi).toNat
  rsi := (c.regs .rsi).toNat
  rdx := (c.regs .rdx).toNat
  rcx := (c.regs .rcx).toNat
  rbx := (c.regs .rbx).toNat
  rax := (c.regs .rax).toNat
  rip := rip
  rflags := c.rflags.val
  rsp := rsp
  cs := cs
  ss := ss

/-- The selectors of the old context are not written. -/
theorem Switches.selectors (h : Switches L i j c) (off : ℕ) (hlow : 144 ≤ off) (hhigh : off + 8 ≤ CONTEXT_SIZE) :
    (c.run contextSwitch).mem.read64 (L.ctx i + off) = c.mem.read64 (L.ctx i + off) := by
  refine Mem.read64_congr fun x hx => run_mem_of_not_mem fun hw => ?_
  have hctx : x ∈ L.context i := Set.Ico_subset_Ico (by omega) (by omega) hx
  rcases h.writes hw with (hw | hw) | hw
  · have h1 := hx.1
    have h2 := hw.2
    omega
  · exact Set.disjoint_left.mp (L.ctx_stack i i) hctx (h.oldStack (Set.Ico_subset_Ico_right (by omega) hw))
  · exact Set.disjoint_left.mp (L.ctx_stack i j) hctx (h.newStack hw)

/-- **The instructions refine** the switch of the scheduler's model, for saved flags that `popfq` can
load. -/
theorem Switches.refines (h : Switches L i j c) (site : ℕ → CodeAddr) (cs ss : ℕ)
    (hflags : c.mem.read64 (L.ctx j + 128) &&& FLAGS_MASK ||| 2 = c.mem.read64 (L.ctx j + 128)) :
    contextAt site (c.run contextSwitch).mem (L.ctx i) =
      (c.view (site (c.mem.read64 c.sp)) (c.sp + 8) cs ss).save (contextAt site c.mem (L.ctx i)) (site (c.mem.read64 c.sp)) ∧
    (c.run contextSwitch).view (site (c.run contextSwitch).rip.toNat) (c.run contextSwitch).sp cs ss =
      (c.view (site (c.mem.read64 c.sp)) (c.sp + 8) cs ss).restore (contextAt site c.mem (L.ctx j)) := by
  obtain ⟨hregs, hrflags, hrip⟩ := h.restored
  have hsaved := h.saved
  have htoNat : ∀ a, (BitVec.ofNat 64 (c.mem.read64 a)).toNat = c.mem.read64 a := fun a =>
    Nat.mod_eq_of_lt (Mem.read64_lt c.mem a)
  have hrsp : (c.run contextSwitch).mem.read64 (L.ctx i + fieldOffset .rsp) = c.sp + 8 := hsaved.rsp
  have hword : (Rflags.ofWord (c.mem.read64 (L.ctx j + 128))).val = c.mem.read64 (L.ctx j + 128) := hflags
  constructor
  · unfold contextAt CpuContext.save Cpu.view
    simp only [hsaved.rip, hsaved.rflags, hrsp, h.selectors 144 (by decide) (by decide),
      h.selectors 152 (by decide) (by decide), hsaved.regs, ne_eq, reduceCtorEq, not_false_eq_true]
  · unfold contextAt CpuContext.restore Cpu.view Cpu.sp
    simp only [hregs, hrflags, hrip, htoNat, hword]

/-! ### Chains -/

/-- A switch, or code of a process. -/
inductive ChainOp (ι : Type) where
  | switch (i j : ι)
  | code

/-- A step, with the addresses that switches have written so far.  The code of a process does what it
likes to registers and memory. -/
inductive ChainStep (L : Layout ι) : Cpu × Set ℕ → ChainOp ι → Cpu × Set ℕ → Prop
  | switch {c : Cpu} {W : Set ℕ} {i j : ι} (h : Switches L i j c) :
      ChainStep L (c, W) (.switch i j) (c.run contextSwitch, W ∪ c.writes contextSwitch)
  | code {c c' : Cpu} {W : Set ℕ} : ChainStep L (c, W) .code (c', W)

/-- A step of the processes other than `p` that does not write the saved context of `p`. -/
def OtherStep (L : Layout ι) (p : ι) (s : Cpu × Set ℕ) (op : ChainOp ι) (s' : Cpu × Set ℕ) : Prop :=
  ChainStep L s op s' ∧ Set.EqOn s'.1.mem s.1.mem (L.context p) ∧ ∀ i j, op = .switch i j → i ≠ p ∧ j ≠ p

/-- No switch has written to the stack of `p` at or above `top`. -/
def StackKept (L : Layout ι) (p : ι) (top : ℕ) (W : Set ℕ) : Prop := ∀ x ∈ L.stack p, top ≤ x → x ∉ W

theorem StackKept.union {W W' : Set ℕ} {top : ℕ} (h : StackKept L p top W) (h' : StackKept L p top W') :
    StackKept L p top (W ∪ W') := by
  rintro x hx htop (hw | hw)
  · exact h x hx htop hw
  · exact h' x hx htop hw

/-- What a switch writes to a stack lies below the stack pointer of that process. -/
theorem Switches.stackKept (h : Switches L i j c) {top : ℕ} (hi : i = p → c.sp ≤ top)
    (hj : j = p → c.mem.read64 (L.ctx j + 136) ≤ top) : StackKept L p top (c.writes contextSwitch) := by
  intro x hx htop hw
  rcases h.writes hw with (hw | hw) | hw
  · exact Set.disjoint_left.mp (L.ctx_stack i p) (Set.Ico_subset_Ico_right (by unfold CONTEXT_SIZE; omega) hw) hx
  · by_cases he : i = p
    · have hle := hi he
      have hlt := hw.2
      omega
    · exact Set.disjoint_left.mp (L.stack_stack i p he) (h.oldStack (Set.Ico_subset_Ico_right (by omega) hw)) hx
  · by_cases he : j = p
    · have hle := hj he
      have hlt := hw.2
      omega
    · exact Set.disjoint_left.mp (L.stack_stack j p he) (h.newStack hw) hx

/-- What holds while `p`, which called `context_switch` in `c`, is suspended. -/
structure Suspended (L : Layout ι) (p : ι) (c : Cpu) (s : Cpu × Set ℕ) : Prop where
  saved : SavedAt s.1.mem (L.ctx p) c
  kept : StackKept L p (c.sp + 8) s.2

theorem Suspended.step {s s' : Cpu × Set ℕ} {op : ChainOp ι} (h : Suspended L p c s) (hs : OtherStep L p s op s') :
    Suspended L p c s' := by
  obtain ⟨hs, hmem, hother⟩ := hs
  refine ⟨h.saved.congr hmem, ?_⟩
  cases hs with
  | @switch c₁ W i j hsw =>
      obtain ⟨hi, hj⟩ := hother i j rfl
      exact h.kept.union (hsw.stackKept (fun he => absurd he hi) (fun he => absurd he hj))
  | code => exact h.kept

/-- **Round trip.**  Process `p` calls `context_switch`, other processes run and switch among each
other, none of which writes the saved context of `p`, and one of them switches back.  Then `p` goes
on behind its call with all registers and flags as they were, with the stack pointer just above the
return address, and no switch has written to its stack at or above it. -/
theorem switch_round_trip {q z : ι} {s₁ s₂ s₃ : Cpu × Set ℕ} {ops : List (ChainOp ι)}
    (hfirst : ChainStep L (c, ∅) (.switch p q) s₁) (hbetween : Run (OtherStep L p) s₁ ops s₂)
    (hlast : ChainStep L s₂ (.switch z p) s₃) :
    s₃.1.rip.toNat = c.mem.read64 c.sp ∧ (∀ r, r ≠ .rsp → s₃.1.regs r = c.regs r) ∧ s₃.1.rflags = c.rflags ∧
      s₃.1.sp = c.sp + 8 ∧ ∀ x ∈ L.stack p, s₃.1.sp ≤ x → x ∉ s₃.2 := by
  have h₁ : Suspended L p c s₁ := by
    cases hfirst with
    | switch h =>
        refine ⟨h.saved, ?_⟩
        rw [Set.empty_union]
        exact h.stackKept (fun _ => Nat.le_add_right _ _) (fun he => absurd he.symm h.other)
  have h₂ : Suspended L p c s₂ := hbetween.invariant (fun _ _ _ h hs => h.step hs) h₁
  cases hlast with
  | @switch c₂ W _ _ h =>
      obtain ⟨hregs, hflags, hrip⟩ := h.restored
      have hrsp : c₂.mem.read64 (L.ctx p + 136) = c.sp + 8 := h₂.saved.rsp
      have hsp : (c₂.run contextSwitch).sp = c.sp + 8 := by
        unfold Cpu.sp
        rw [hregs .rsp]
        show (BitVec.ofNat 64 (c₂.mem.read64 (L.ctx p + 136))).toNat = _
        rw [BitVec.toNat_ofNat, Nat.mod_eq_of_lt (Mem.read64_lt _ _), hrsp]
        rfl
      refine ⟨?_, fun r hr => ?_, ?_, hsp, ?_⟩
      · rw [hrip, BitVec.toNat_ofNat, Nat.mod_eq_of_lt (Mem.read64_lt _ _)]
        exact h₂.saved.rip
      · rw [hregs r, h₂.saved.regs r hr, BitVec.ofNat_toNat, BitVec.setWidth_eq]
      · rw [hflags, h₂.saved.rflags, Rflags.ofWord_val]
      · rw [hsp]
        exact h₂.kept.union (h.stackKept (fun he => absurd he h.other) (fun _ => hrsp.le))

/-- Two processes with a page of stack each. -/
def twoStacks : Layout Bool where
  ctx b := if b then 0x2000 else 0x1000
  stack b := if b then Set.Ico 0x20000 0x21000 else Set.Ico 0x10000 0x11000
  bound b := by cases b <;> decide
  ctx_ctx b b' h := by
    cases b <;> cases b' <;> first | exact absurd rfl h | (rw [Set.Ico_disjoint_Ico]; decide)
  ctx_stack b b' := by
    cases b <;> cases b' <;> exact Set.Ico_disjoint_Ico.mpr (by decide)
  stack_stack b b' h := by
    cases b <;> cases b' <;> first | exact absurd rfl h | exact Set.Ico_disjoint_Ico.mpr (by decide)

/-- The first of them calls `context_switch` from 0x401234. -/
def callerState : Cpu where
  regs
    | .rdi => 0x1000
    | .rsi => 0x2000
    | .rsp => 0x10800
    | _ => 7
  rip := 0
  rflags := ⟨0x202, by decide⟩
  mem := (Mem.write64 (fun _ => 0) 0x2088 0x20800).write64 0x10800 0x401234

/-- The second one clears its registers and switches back. -/
def answerRegs : Reg → BitVec 64
  | .rdi => 0x2000
  | .rsi => 0x1000
  | .rsp => 0x20700
  | _ => 0

theorem switch_round_trip_two_processes : ∃ s₁ s₂ s₃ : Cpu × Set ℕ,
    ChainStep twoStacks (callerState, ∅) (.switch false true) s₁ ∧ s₂.1.regs = answerRegs ∧
      Run (OtherStep twoStacks false) s₁ [.code] s₂ ∧ ChainStep twoStacks s₂ (.switch true false) s₃ ∧
      s₃.1.rip.toNat = 0x401234 ∧ s₃.1.regs .rbx = 7 ∧ s₃.1.sp = 0x10808 := by
  have hread : callerState.mem.read64 (twoStacks.ctx true + 136) = 0x20800 := by decide +kernel
  have hsp : callerState.sp = 0x10800 := rfl
  have h₁ : Switches twoStacks false true callerState := by
    refine ⟨rfl, rfl, by decide, by rw [hsp]; decide, by rw [hsp]; decide, ?_, by rw [hread]; decide, ?_⟩
    · rw [hsp]
      exact Set.Ico_subset_Ico (by decide) (by decide)
    · rw [hread]
      exact Set.Ico_subset_Ico (by decide) (by decide)
  have hsaved : (callerState.run contextSwitch).mem.read64 (twoStacks.ctx false + 136) = 0x10808 := h₁.saved.rsp
  have h₂ : Switches twoStacks true false { callerState.run contextSwitch with regs := answerRegs } := by
    refine ⟨rfl, rfl, by decide, by decide, by decide, ?_, by rw [hsaved]; decide, ?_⟩
    · exact Set.Ico_subset_Ico (by decide) (by decide)
    · rw [hsaved]
      exact Set.Ico_subset_Ico (by decide) (by decide)
  have hcode : OtherStep twoStacks false (callerState.run contextSwitch, ∅ ∪ callerState.writes contextSwitch) .code
      ({ callerState.run contextSwitch with regs := answerRegs }, ∅ ∪ callerState.writes contextSwitch) :=
    ⟨.code, fun _ _ => rfl, fun _ _ he => nomatch he⟩
  obtain ⟨hrip, hregs, _, hsp', _⟩ := switch_round_trip (.switch h₁) (.single hcode) (.switch h₂)
  refine ⟨_, _, _, .switch h₁, rfl, .single hcode, .switch h₂, ?_, hregs .rbx (by decide), hsp'⟩
  rw [hrip]
  decide +kernel

end HeroOS
