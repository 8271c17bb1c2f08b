import HeroOS.InterruptReturn
import HeroOS.SwitchChain

/-! # Preemption

A timer interrupt takes the processor from a process: below its frame `irq_common_handler` calls
`pit_irq_handler`, which calls `sched_tick`, which calls `context_switch`.  Other processes run, and one
of them switches back; then these calls return, and `iretq` ends the interrupt.

* `preemption_invisible`: the process goes on in the state in which it was interrupted. -/

namespace HeroOS

open HeroOS.Core

variable {ι : Type} {L : Layout ι} {p q z : ι} {c d r : Core} {k : Cpu}

/-- A step of the other processes that writes neither the saved context of `p` nor its stack from `lo` on. -/
def AloneStep (L : Layout ι) (p : ι) (lo : ℕ) (s : Cpu × Set ℕ) (op : ChainOp ι) (s' : Cpu × Set ℕ) : Prop :=
  OtherStep L p s op s' ∧ (op = .code → ∀ x ∈ L.stack p, lo ≤ x → s'.1.mem x = s.1.mem x)

/-- A switch between other processes writes nothing to the stack of `p`. -/
theorem Switches.other_stack {i j : ι} {c : Cpu} (h : Switches L i j c) (hi : i ≠ p) (hj : j ≠ p) {x : ℕ} (hx : x ∈ L.stack p) :
    (c.run contextSwitch).mem x = c.mem x := by
  refine Cpu.run_mem_of_not_mem fun hw => ?_
  rcases h.writes hw with (hw | hw) | hw
  · have hctx : x ∈ Set.Ico (L.ctx i) (L.ctx i + CONTEXT_SIZE) := Set.Ico_subset_Ico_right (by unfold CONTEXT_SIZE; omega) hw
    exact Set.disjoint_left.mp (L.ctx_stack i p) hctx hx
  · have hstack : x ∈ L.stack i := h.oldStack (Set.Ico_subset_Ico_right (by omega) hw)
    exact Set.disjoint_left.mp (L.stack_stack i p hi) hstack hx
  · exact Set.disjoint_left.mp (L.stack_stack j p hj) (h.newStack hw) hx

/-- A switch writes to the stack that it leaves only below the stack pointer, and to the one that it enters only
below the stack pointer saved there. -/
theorem Switches.own_stack {i j : ι} {c : Cpu} (h : Switches L i j c) {lo x : ℕ} (hi : i = p → c.sp ≤ lo)
    (hj : j = p → c.mem.read64 (L.ctx j + 136) ≤ lo) (hx : x ∈ L.stack p) (hlo : lo ≤ x) :
    (c.run contextSwitch).mem x = c.mem x :=
  Cpu.run_mem_of_not_mem (h.stackKept hi hj x hx hlo)

/-- What holds while the process is away. -/
structure Away (L : Layout ι) (p : ι) (k : Cpu) (s : Cpu × Set ℕ) : Prop where
  saved : SavedAt s.1.mem (L.ctx p) k
  stack : ∀ x ∈ L.stack p, k.sp + 8 ≤ x → s.1.mem x = k.mem x

theorem Away.step {s s' : Cpu × Set ℕ} {op : ChainOp ι} (h : Away L p k s) (hs : AloneStep L p (k.sp + 8) s op s') :
    Away L p k s' := by
  obtain ⟨⟨hs, hctx, hother⟩, hcode⟩ := hs
  refine ⟨h.saved.congr hctx, fun x hx hlo => ?_⟩
  rw [← h.stack x hx hlo]
  cases hs with
  | @switch c₁ W i j hsw =>
      obtain ⟨hi, hj⟩ := hother i j rfl
      exact hsw.other_stack hi hj hx
  | code => exact hcode rfl x hx hlo

/-- The state in which `context_switch` has returned to `p`, which called it in `k`: behind the call, with its own
registers and its own stack. -/
structure BackFrom (L : Layout ι) (p : ι) (k : Cpu) (r : Cpu) : Prop where
  rip : r.rip.toNat = k.mem.read64 k.sp
  sp : r.sp = k.sp + 8
  regs : ∀ i, i ≠ .rsp → r.regs i = k.regs i
  rflags : r.rflags = k.rflags
  stack : ∀ x ∈ L.stack p, k.sp + 8 ≤ x → r.mem x = k.mem x

/-- **Away and back.** -/
theorem backFrom_of_away {s₀ s : Cpu × Set ℕ} {ops : List (ChainOp ι)} (hout : Switches L p q k)
    (hs₀ : s₀.1 = k.run contextSwitch) (hrun : Run (AloneStep L p (k.sp + 8)) s₀ ops s) (hback : Switches L z p s.1) :
    BackFrom L p k (s.1.run contextSwitch) := by
  have h₀ : Away L p k s₀ := by
    refine ⟨?_, fun x hx hlo => ?_⟩
    · rw [hs₀]
      exact hout.saved
    · rw [hs₀]
      exact hout.own_stack (fun _ => Nat.le_add_right _ _) (fun he => absurd he.symm hout.other) hx hlo
  have h := hrun.invariant (fun _ _ _ h hs => h.step hs) h₀
  obtain ⟨hregs, hflags, hrip⟩ := hback.restored
  have hrsp : s.1.mem.read64 (L.ctx p + 136) = k.sp + 8 := h.saved.rsp
  refine ⟨?_, ?_, fun i hi => ?_, ?_, fun x hx hlo => ?_⟩
  · rw [hrip, BitVec.toNat_ofNat, Nat.mod_eq_of_lt (Mem.read64_lt _ _)]
    exact h.saved.rip
  · unfold Cpu.sp
    rw [hregs .rsp]
    show (BitVec.ofNat 64 (s.1.mem.read64 (L.ctx p + 136))).toNat = _
    rw [BitVec.toNat_ofNat, Nat.mod_eq_of_lt (Mem.read64_lt _ _), hrsp]
    rfl
  · rw [hregs i, h.saved.regs i hi, BitVec.ofNat_toNat, BitVec.setWidth_eq]
  · rw [hflags, h.saved.rflags, Rflags.ofWord_val]
  · rw [hback.own_stack (fun he => absurd he hback.other) (fun _ => hrsp.le) hx hlo]
    exact h.stack x hx hlo

/-- The calls from the stub, in `d`, down to `context_switch`, in `k`, and back: they keep the stack of the process
from the frame on, and when `context_switch` returns, `unwind` returns to the stub. -/
structure Handler (L : Layout ι) (p q : ι) (d : Core) (k : Cpu) (unwind : Cpu → Core) : Prop where
  switches : Switches L p q k
  below : k.sp + 8 ≤ d.sp
  down : ∀ x ∈ L.stack p, d.sp ≤ x → k.mem x = d.mem x
  returns : ∀ r, BackFrom L p k r → (unwind r).sp = d.sp ∧ ∀ x ∈ L.stack p, d.sp ≤ x → (unwind r).mem x = r.mem x

/-- The frame is kept from the call of the handler to its return. -/
theorem Handler.kept {unwind : Cpu → Core} (h : Handler L p q d k unwind) {r : Cpu} (hr : BackFrom L p k r) {x : ℕ}
    (hx : x ∈ L.stack p) (hlo : d.sp ≤ x) : (unwind r).mem x = d.mem x := by
  have hbelow := h.below
  rw [(h.returns r hr).2 x hx hlo, hr.stack x hx (by omega), h.down x hx hlo]

/-- **Preemption is invisible.**  A process in the kernel is interrupted, the handler leaves through
`context_switch`, other processes run and switch among each other for as long as they like, without writing to the
saved context of the process or to its stack, and one of them switches back.  When the handler has returned and the
stub has ended, all registers, the flags, the selectors and the instruction pointer are as they were, and so is the
stack of the process. -/
theorem preemption_invisible (img : Image) (t : SysTables) (c : Core) (rsp0 n : ℕ) (hT : KernelTables img t c.mem rsp0)
    (hn : n < IRQ_COUNT) (hlevel : c.level = 0) (hroom : FRAME_SIZE ≤ c.stackTop rsp0)
    (hstack : Set.Ico (c.stackTop rsp0 - FRAME_SIZE) (c.stackTop rsp0) ⊆ L.stack p) (handlers : CHandler → Core → Core)
    (unwind : Cpu → Core) (k : Core → Cpu)
    (hhandler : ∀ d, HandlerCall c .hardware (IRQ_BASE + n) (c.stackTop rsp0) d → Handler L p q d (k d) unwind ∧
      ∃ s₀ s : Cpu × Set ℕ, ∃ ops, s₀.1 = (k d).run contextSwitch ∧ Run (AloneStep L p ((k d).sp + 8)) s₀ ops s ∧
        Switches L z p s.1 ∧ handlers .irqCommonHandler d = unwind (s.1.run contextSwitch)) :
    ∃ m', c.interrupt img t handlers .hardware (IRQ_BASE + n) = some { c with toCpu := { c.toCpu with mem := m' } } ∧
      ∀ x ∈ L.stack p, c.sp ≤ x → m' x = c.mem x := by
  have hvector : vectorHandler (IRQ_BASE + n) = .irqCommonHandler := if_pos ⟨by omega, by omega⟩
  have hv : IRQ_BASE + n < IDT_ENTRY_COUNT := by
    unfold IRQ_COUNT at hn
    unfold IRQ_BASE IDT_ENTRY_COUNT
    omega
  have h8 : IRQ_BASE + n ≠ 8 := by
    unfold IRQ_BASE
    omega
  have hkept : ∀ d, HandlerCall c .hardware (IRQ_BASE + n) (c.stackTop rsp0) d →
      (handlers .irqCommonHandler d).sp = d.sp ∧ ∀ x ∈ L.stack p, d.sp ≤ x → (handlers .irqCommonHandler d).mem x = d.mem x := by
    intro d hd
    obtain ⟨hH, s₀, s, ops, hs₀, hrun, hback, he⟩ := hhandler d hd
    have hr := backFrom_of_away hH.switches hs₀ hrun hback
    rw [he]
    exact ⟨(hH.returns _ hr).1, fun x hx hlo => hH.kept hr hx hlo⟩
  have hret : ∀ d, HandlerCall c .hardware (IRQ_BASE + n) (c.stackTop rsp0) d →
      ReturnsTo [] d (handlers (vectorHandler (IRQ_BASE + n)) d) := by
    intro d hd
    have hsp := hd.sp
    rw [hvector]
    refine ⟨(hkept d hd).1, fun x h1 h2 _ => (hkept d hd).2 x (hstack ⟨by omega, by omega⟩) h1⟩
  obtain ⟨d, d', hd, rfl, hint⟩ := interrupt_returns hT hv h8 (fits_irq hn) hroom (not_refused_irq hn c) hret
  rw [returned_nil, hvector] at hint
  refine ⟨_, hint, fun x hx hlo => ?_⟩
  have hsp := hd.sp
  have htop : c.stackTop rsp0 ≤ c.sp := by
    unfold stackTop
    rw [hlevel, if_neg (by decide)]
    omega
  rw [(hkept d hd).2 x hx (by omega)]
  exact hd.outside x (.inr (by omega))

/-! ### Two processes -/

/-- The first process has the stack of the sample state. -/
def preemptLayout : Layout Bool where
  ctx b := if b then 0x601000 else 0x600000
  stack b := if b then Set.Ico 0x700000 0x701000 else Set.Ico 0x4FF000 0x501000
  bound b := by cases b <;> decide
  ctx_ctx b b' h := by
    cases b <;> cases b' <;> first | exact absurd rfl h | (rw [Set.Ico_disjoint_Ico]; decide)
  ctx_stack b b' := by
    cases b <;> cases b' <;> exact Set.Ico_disjoint_Ico.mpr (by decide)
  stack_stack b b' h := by
    cases b <;> cases b' <;> first | exact absurd rfl h | exact Set.Ico_disjoint_Ico.mpr (by decide)

/-- The first process, while the second one is suspended with its stack pointer at 0x700800. -/
def preemptedCore : Core :=
  { sampleCore with toCpu := { sampleCore.toCpu with mem := sampleCore.mem.write64 0x601088 0x700800 } }

theorem preemptedCore_tables : KernelTables sampleImage sampleTables preemptedCore.mem 0 := by
  refine sampleCore_tables.congr fun x hx => Mem.write64_of_outside ?_
  have h1 : sampleTables.idt + 16 * IDT_ENTRY_COUNT ≤ 0x601088 := by decide
  have h2 : sampleTables.gdt + 8 * GDT_ENTRY_COUNT ≤ 0x601088 := by decide
  have h3 : sampleTables.tss + TSS_SIZE ≤ 0x601088 := by decide
  unfold InTables at hx
  omega

/-- The first process calls `context_switch`, 64 bytes below its frame. -/
def leaving (d : Core) : Cpu :=
  { d.toCpu with regs := fun r => if r = .rdi then 0x600000 else if r = .rsi then 0x601000 else if r = .rsp then 0x4FFF10 else 5 }

/-- The second one clears its registers and switches back. -/
def answering (k : Cpu) : Cpu :=
  { k with regs := fun r => if r = .rdi then 0x601000 else if r = .rsi then 0x600000 else if r = .rsp then 0x700700 else 0 }

theorem answering_mem (k : Cpu) : (answering k).mem = k.mem := rfl

theorem aloneStep_answering (k : Cpu) (lo : ℕ) : AloneStep preemptLayout false lo (k, ∅) .code (answering k, ∅) :=
  ⟨⟨.code, fun _ _ => rfl, fun _ _ he => nomatch he⟩, fun _ _ _ _ => rfl⟩

theorem switches_answering {k : Cpu} (h : k.mem.read64 (preemptLayout.ctx false + 136) = 0x4FFF18) :
    Switches preemptLayout true false (answering k) := by
  have hsp : (answering k).sp = 0x700700 := rfl
  refine ⟨rfl, rfl, by decide, by rw [hsp]; decide, by rw [hsp]; decide, ?_, by rw [answering_mem, h]; decide, ?_⟩
  · rw [hsp]
    exact Set.Ico_subset_Ico (by decide) (by decide)
  · rw [answering_mem, h]
    exact Set.Ico_subset_Ico (by decide) (by decide)

/-- The calls return to the stub. -/
def unwinding (r : Cpu) : Core := { toCpu := r.set .rsp (r.regs .rsp + 56), cs := 8, ss := 16 }

/-- The handler, with the whole detour. -/
def detour : CHandler → Core → Core :=
  fun _ d => unwinding ((answering ((leaving d).run contextSwitch)).run contextSwitch)

theorem preemption_invisible_detour :
    ∃ m', preemptedCore.interrupt sampleImage sampleTables detour .hardware 0x20 =
      some { preemptedCore with toCpu := { preemptedCore.toCpu with mem := m' } } ∧
      ∀ x ∈ preemptLayout.stack false, preemptedCore.sp ≤ x → m' x = preemptedCore.mem x := by
  refine preemption_invisible (p := false) (q := true) (z := true) sampleImage sampleTables preemptedCore 0 0 preemptedCore_tables
    (by decide) rfl (by decide) ?_ detour unwinding leaving fun d hd => ?_
  · exact Set.Ico_subset_Ico (by decide) (by decide)
  have htop : preemptedCore.stackTop 0 = 0x500000 := rfl
  have hsp : d.sp = 0x4FFF50 := by
    have hsp := hd.sp
    rw [htop] at hsp
    unfold FRAME_SIZE at hsp
    omega
  have hread : (leaving d).mem.read64 (preemptLayout.ctx true + 136) = 0x700800 := by
    have hout : d.mem.read64 0x601088 = preemptedCore.mem.read64 0x601088 := by
      apply Mem.read64_congr
      intro x hx
      have h1 := hx.1
      exact hd.outside x (.inr (by rw [htop]; omega))
    exact hout.trans (Mem.read64_write64_same _ _ (by decide))
  have hleave : (leaving d).sp = 0x4FFF10 := rfl
  have hout : Switches preemptLayout false true (leaving d) := by
    refine ⟨rfl, rfl, by decide, by rw [hleave]; decide, by rw [hleave]; decide, ?_, by rw [hread]; decide, ?_⟩
    · rw [hleave]
      exact Set.Ico_subset_Ico (by decide) (by decide)
    · rw [hread]
      exact Set.Ico_subset_Ico (by decide) (by decide)
  have hsaved : ((leaving d).run contextSwitch).mem.read64 (preemptLayout.ctx false + 136) = 0x4FFF18 := by
    rw [hout.saved.rsp, hleave]
  refine ⟨⟨hout, by rw [hleave, hsp]; decide, fun _ _ _ => rfl, fun r hr => ⟨?_, fun _ _ _ => rfl⟩⟩,
    _, _, _, rfl, .single (aloneStep_answering _ _), switches_answering hsaved, rfl⟩
  have hrsp := hr.sp
  rw [hleave] at hrsp
  unfold Cpu.sp at hrsp
  show ((r.set .rsp (r.regs .rsp + 56)).regs .rsp).toNat = d.sp
  rw [Cpu.set_same, BitVec.toNat_add, hrsp, hsp]
  rfl

end HeroOS
