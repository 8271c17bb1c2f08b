import HeroOS.SchedRuns

/-! # Timer interrupts and their acknowledgement

`irq_common_handler` of `idt.c`, `pit_irq_handler` of `pit.c` and the interrupt controller.  IRQ 0 is
in service from its delivery until `pic_send_eoi`, and meanwhile no further timer interrupt is
delivered.  `irq_common_handler` acknowledges after its handler returns; but the handler may leave
through `context_switch`, and then what happens next is decided by the place where the process
that is switched to was suspended:

* inside `sched_tick`: it returns to its own `irq_common_handler`, which acknowledges;
* inside `sched_yield`, or before its first instruction: it executes at once.

`timer_acknowledged_iff`: in a run, every switch made by a timer interrupt is acknowledged before
the new process executes exactly when each of them leads to a process suspended in `sched_tick`.

A step lasts until a process executes again. -/

namespace HeroOS

open Word Sched

/-- The scheduler, the tick counter of the timer and the state of IRQ 0 in the interrupt
controller. -/
structure Machine where
  sched : Sched
  pitTicks : ℕ
  inService : Bool

namespace Machine

/-- `pic_send_eoi(0)` -/
def picSendEoi (m : Machine) : Machine := { m with inService := false }

/-- `pit_irq_handler` -/
def pitIrqHandler (fuel : ℕ) (m : Machine) : Except Halt Machine := do
  let m := { m with pitTicks := wadd m.pitTicks 1 }
  let s ← m.sched.schedTick fuel
  .ok { m with sched := s }

/-- What happens after a context switch until the new process executes: one that was suspended in
`sched_tick` returns through the `irq_common_handler` of its own interrupt. -/
def resume (m : Machine) : Machine :=
  match m.sched.cpu.rip with
  | .schedTick => m.picSendEoi
  | .schedYield => m
  | .entry _ => m

/-- `irq_common_handler` for IRQ 0, with `pit_irq_handler` registered. -/
def irqCommonHandler (fuel : ℕ) (m : Machine) : Except Halt Machine := do
  let m' ← m.pitIrqHandler fuel
  .ok (if m'.sched.current ≠ m.sched.current then m'.resume else m'.picSendEoi)

/-- The delivery of a timer interrupt. -/
def timerInterrupt (fuel : ℕ) (m : Machine) : Except Halt Machine :=
  { m with inService := true }.irqCommonHandler fuel

/-- A call made by the running process. -/
def call (fuel : ℕ) (m : Machine) (op : SchedOp) : Except Halt Machine := do
  let s ← m.sched.exec fuel op
  let m' := { m with sched := s }
  .ok (if s.current ≠ m.sched.current then m'.resume else m')

end Machine

/-- What can happen: a timer interrupt, or a call of the running process. -/
inductive MachineOp where
  | timer
  | call (op : SchedOp)
deriving DecidableEq, Repr

open Machine

/-- A timer interrupt is delivered only when none is in service; `sched_tick` is called by the
timer interrupt only. -/
inductive MachineStep (m : Machine) : MachineOp → Machine → Prop
  | timer {fuel : ℕ} {m' : Machine} (hidle : m.inService = false) (h : m.timerInterrupt fuel = .ok m') :
      MachineStep m .timer m'
  | call {fuel : ℕ} {op : SchedOp} {m' : Machine} (hop : op ≠ .tick) (h : m.call fuel op = .ok m') :
      MachineStep m (.call op) m'

/-- A step after which, if it is a timer interrupt that switched to another process, that process
executes with IRQ 0 acknowledged. -/
def AckedStep (m : Machine) (op : MachineOp) (m' : Machine) : Prop :=
  MachineStep m op m' ∧ (op = .timer → m'.sched.current ≠ m.sched.current → m'.inService = false)

/-- If a timer tick in `s` chooses another process, it is one suspended in `sched_tick`. -/
def ResumesInTick (s : Sched) : Prop :=
  ∀ fuel s₀ addr next, s.prepare fuel .tick = .ok (s₀, some addr) → s₀.pickNext fuel = .ok next →
    next ≠ 0 → next ≠ s.current → (s.procs next).context.rip = .schedTick

/-- A step that, if it is a timer interrupt, resumes only processes suspended in `sched_tick`. -/
def ResumingStep (m : Machine) (op : MachineOp) (m' : Machine) : Prop :=
  MachineStep m op m' ∧ (op = .timer → ResumesInTick m.sched)

variable {s s' s₀ : Sched} {m m' : Machine} {op : MachineOp} {fuel : ℕ}

/-! ### Where the chosen process was suspended -/

@[simp]
theorem setState_context (s : Sched) (p q : ℕ) (st : ProcState) :
    ((s.setState p st).procs q).context = (s.procs q).context :=
  Unwritten.context.setState s q p st

/-- The first half of a call writes no saved context, except that of a new process. -/
theorem prepare_context {op : SchedOp} {site : Option CodeAddr} (h : s.prepare fuel op = .ok (s₀, site)) (p : ℕ) :
    (s₀.procs p).context = (s.procs p).context ∨ ∃ a, op = .create a ∧ (s₀.procs p).context.rip = .entry a.entry := by
  obtain hsame | ⟨a, rfl, _, hnew⟩ := Unwritten.context.prepare h p
  · exact .inl hsame
  · rw [hnew]
    exact .inr ⟨a, rfl, rfl⟩

/-- After a switch the CPU continues where the new process was suspended. -/
theorem switchTo_rip {addr : CodeAddr} {next : ℕ} (hne : next ≠ s.current) :
    (s.switchTo addr next).cpu.rip = (s.procs next).context.rip := by
  unfold switchTo Sched.contextSwitch
  simp [CpuContext.restore, setState, hne]

/-- A call that changes the current process has chosen it, and the CPU continues where that process
was suspended. -/
theorem exec_switch {op : SchedOp} (h : s.exec fuel op = .ok s') (hne : s'.current ≠ s.current) :
    ∃ s₀ addr, s.prepare fuel op = .ok (s₀, some addr) ∧ s₀.pickNext fuel = .ok s'.current ∧
      s'.current ≠ 0 ∧ s' = s₀.switchTo addr s'.current ∧
      s'.cpu.rip = (s.procs s'.current).context.rip := by
  obtain ⟨s₀, site, hp, rfl | ⟨addr, next, rfl, hn, h0, hnext, rfl⟩⟩ := exec_outcome h
  · exact absurd (prepare_frame hp).current hne
  · refine ⟨s₀, addr, hp, hn, h0, rfl, ?_⟩
    rw [switchTo_rip hnext, switchTo_current]
    obtain hctx | ⟨a, rfl, _⟩ := prepare_context hp next
    · rw [hctx]
    · cases hp

/-! ### Timer interrupts -/

theorem resume_sched (m : Machine) : m.resume.sched = m.sched := by
  unfold resume
  split <;> rfl

theorem resume_inService (m : Machine) :
    m.resume.inService = if m.sched.cpu.rip = .schedTick then false else m.inService := by
  unfold resume
  split
  · rename_i h
    rw [if_pos h]
    rfl
  · rename_i h
    rw [if_neg (by rw [h]; simp)]
  · rename_i h
    rw [if_neg (by rw [h]; simp)]

/-- A timer interrupt is one tick of the scheduler, and leaves IRQ 0 in service exactly when it
switches to a process that was not suspended in `sched_tick`. -/
theorem timerInterrupt_spec (h : m.timerInterrupt fuel = .ok m') :
    m.sched.exec fuel .tick = .ok m'.sched ∧
      (m'.inService = true ↔ m'.sched.current ≠ m.sched.current ∧ m'.sched.cpu.rip ≠ .schedTick) := by
  obtain ⟨m₁, hm, h⟩ := bind_eq_ok.mp h
  obtain ⟨s, hs, hm⟩ := bind_eq_ok.mp hm
  cases hm
  dsimp only at h
  split at h
  · rename_i hne
    cases h
    rw [resume_sched, resume_inService]
    refine ⟨hs, ?_⟩
    split
    · rename_i hr
      have hr : s.cpu.rip = .schedTick := hr
      simp [hr]
    · rename_i hr
      have hr : s.cpu.rip ≠ .schedTick := hr
      simp [hr, hne]
  · rename_i heq
    cases h
    exact ⟨hs, by simpa [picSendEoi] using fun h => absurd h heq⟩

/-- One timer interrupt: the switch is acknowledged in time exactly when the chosen process was
suspended in `sched_tick`. -/
theorem timer_step_iff (h : m.timerInterrupt fuel = .ok m') :
    (m'.sched.current ≠ m.sched.current → m'.inService = false) ↔ ResumesInTick m.sched := by
  obtain ⟨hexec, hserv⟩ := timerInterrupt_spec h
  constructor
  · intro hack f s₀ addr next hp hn h0 hne
    have hc : s₀.current = m.sched.current := (prepare_frame hp).current
    have hstep : SchedStep m.sched .tick (s₀.switchTo addr next) := by
      refine ⟨f, ?_⟩
      rw [exec_eq]
      refine bind_eq_ok.mpr ⟨_, hp, bind_eq_ok.mpr ⟨next, hn, ?_⟩⟩
      rw [if_pos ⟨h0, hc ▸ hne⟩]
    have heq : m'.sched = s₀.switchTo addr next := SchedStep.unique ⟨fuel, hexec⟩ hstep
    have hcur : m'.sched.current = next := by
      rw [heq]
      rfl
    obtain ⟨_, _, _, _, _, _, hrip⟩ := exec_switch hexec (hcur ▸ hne)
    by_contra hr
    have hin := hserv.mpr ⟨hcur ▸ hne, by rwa [hrip, hcur]⟩
    rw [hack (hcur ▸ hne)] at hin
    cases hin
  · intro hres hne
    obtain ⟨s₀, addr, hp, hn, h0, _, hrip⟩ := exec_switch hexec hne
    have hr := hres fuel s₀ addr _ hp hn h0 hne
    by_contra hin
    rw [Bool.not_eq_false] at hin
    exact (hserv.mp hin).2 (hrip.trans hr)

/-! ### From the start of the kernel -/

/-- No waiting process other than `a` is suspended in `sched_tick`. -/
def SuspendedOnly (s : Sched) (a : ℕ) : Prop :=
  ∀ p, p ≠ s.current → (s.procs p).context.rip = .schedTick → p = a

/-- A process is suspended in `sched_tick` only while the interrupt that suspended it is still in
service. -/
structure ServiceInv (m : Machine) : Prop where
  idle : m.inService = false → ∀ p, p ≠ m.sched.current → (m.sched.procs p).context.rip ≠ .schedTick
  busy : m.inService = true → ∃ a, SuspendedOnly m.sched a

theorem switchTo_rip_saved {addr : CodeAddr} {next p : ℕ}
    (h : ((s.switchTo addr next).procs p).context.rip = .schedTick) :
    p = s.current ∧ addr = .schedTick ∨ p ≠ s.current ∧ (s.procs p).context.rip = .schedTick := by
  unfold switchTo Sched.contextSwitch at h
  dsimp only at h
  by_cases hp : p = s.current
  · subst hp
    simp [CpuContext.save] at h
    exact .inl ⟨rfl, h⟩
  · rw [update_procs, Function.update_of_ne hp, setState_context] at h
    exact .inr ⟨hp, h⟩

theorem prepare_rip {op : SchedOp} {site : Option CodeAddr} (h : s.prepare fuel op = .ok (s₀, site)) {p : ℕ}
    (hr : (s₀.procs p).context.rip = .schedTick) : (s.procs p).context.rip = .schedTick := by
  obtain hctx | ⟨a, _, hnew⟩ := prepare_context h p
  · rwa [hctx] at hr
  · rw [hnew] at hr
    cases hr

/-- Only `sched_tick` suspends a process in `sched_tick`. -/
theorem prepare_site {op : SchedOp} {addr : CodeAddr} (hop : op ≠ .tick)
    (h : s.prepare fuel op = .ok (s₀, some addr)) : addr = .schedYield := by
  have hyield : ∀ s : Sched, s.yieldPoint = (s₀, some addr) → addr = .schedYield := by
    intro s h
    unfold Sched.yieldPoint at h
    split at h <;> cases h
    rfl
  have hexit : ∀ p code, s.exitPoint p code = (s₀, some addr) → addr = .schedYield := by
    intro p code h
    unfold Sched.exitPoint at h
    split at h
    · cases h
    · exact hyield _ h
  cases op with
  | tick => exact absurd rfl hop
  | yield => exact hyield _ (Except.ok.inj h)
  | sleep ms =>
      have h := Except.ok.inj h
      split at h
      · cases h
      · exact hyield _ h
  | exit proc exitCode => exact hexit _ _ (Except.ok.inj h)
  | kill pid sig => exact hexit _ _ (Except.ok.inj h)
  | signal pid signo =>
      have h := Except.ok.inj h
      split at h
      · cases h
      · split at h
        · exact hexit _ _ h
        · split at h
          · cases h
          · split at h <;> cases h
  | create a => cases h
  | add proc => cases h
  | remove proc => cases h
  | wake proc => cases h
  | compute regs => cases h

/-- A call that keeps the current process suspends nobody. -/
theorem exec_same_rip {op : SchedOp} (h : s.exec fuel op = .ok s') (heq : s'.current = s.current) {p : ℕ}
    (hr : (s'.procs p).context.rip = .schedTick) : (s.procs p).context.rip = .schedTick := by
  obtain ⟨s₀, site, hp, rfl | ⟨addr, next, _, _, _, hnext, rfl⟩⟩ := exec_outcome h
  · exact prepare_rip hp hr
  · exact absurd (heq.trans (prepare_frame hp).current.symm) hnext

/-- A call that switches adds at most the process that it suspends. -/
theorem exec_switch_rip {op : SchedOp} (h : s.exec fuel op = .ok s') (hne : s'.current ≠ s.current) {p : ℕ}
    (hr : (s'.procs p).context.rip = .schedTick) :
    p = s.current ∧ op = .tick ∨ p ≠ s.current ∧ (s.procs p).context.rip = .schedTick := by
  obtain ⟨s₀, addr, hp, _, _, hs, _⟩ := exec_switch h hne
  have hc : s₀.current = s.current := (prepare_frame hp).current
  rw [hs] at hr
  obtain ⟨hpc, rfl⟩ | ⟨hpc, hr⟩ := switchTo_rip_saved hr
  · refine .inl ⟨hpc.trans hc, ?_⟩
    by_contra hop
    cases prepare_site hop hp
  · exact .inr ⟨hc ▸ hpc, prepare_rip hp hr⟩

theorem ServiceInv.timer (hI : ServiceInv m) (hidle : m.inService = false) (h : m.timerInterrupt fuel = .ok m') :
    ServiceInv m' ∧ (m'.sched.current ≠ m.sched.current → m'.inService = true) := by
  obtain ⟨hexec, hserv⟩ := timerInterrupt_spec h
  have hnone := hI.idle hidle
  by_cases hne : m'.sched.current = m.sched.current
  · refine ⟨⟨?_, ?_⟩, fun h => absurd hne h⟩
    · intro _ p hp hr
      exact hnone p (hne ▸ hp) (exec_same_rip hexec hne hr)
    · intro hin
      exact absurd hne (hserv.mp hin).1
  · have hin : m'.inService = true := by
      obtain ⟨_, _, _, _, _, _, hrip⟩ := exec_switch hexec hne
      exact hserv.mpr ⟨hne, fun hr => hnone _ hne (hrip ▸ hr)⟩
    have hnot : m'.inService ≠ false := by
      rw [hin]
      decide
    refine ⟨⟨fun h => absurd h hnot, fun _ => ⟨m.sched.current, ?_⟩⟩, fun _ => hin⟩
    intro p _ hr
    obtain ⟨hp, _⟩ | ⟨hp, hr⟩ := exec_switch_rip hexec hne hr
    · exact hp
    · exact absurd hr (hnone p hp)

theorem ServiceInv.call {op : SchedOp} (hI : ServiceInv m) (hop : op ≠ .tick) (h : m.call fuel op = .ok m') :
    ServiceInv m' := by
  obtain ⟨s, hexec, h⟩ := bind_eq_ok.mp h
  dsimp only at h
  split at h
  · rename_i hne
    cases h
    -- a process that was suspended before the call, and is not the new current one
    have hold : ∀ p, (s.procs p).context.rip = .schedTick →
        p ≠ m.sched.current ∧ (m.sched.procs p).context.rip = .schedTick := by
      intro p hr
      exact (exec_switch_rip hexec hne hr).resolve_left (fun h => hop h.2)
    obtain ⟨_, _, _, _, _, _, hrip⟩ := exec_switch hexec hne
    refine ⟨?_, ?_⟩
    · rw [resume_sched, resume_inService]
      dsimp only
      intro hin p hp hr
      split at hin
      · rename_i htick
        rw [hrip] at htick
        cases hs : m.inService with
        | false => exact hI.idle hs _ hne htick
        | true =>
            obtain ⟨a, ha⟩ := hI.busy hs
            obtain ⟨hpc, hr⟩ := hold p hr
            exact hp ((ha p hpc hr).trans (ha _ hne htick).symm)
      · obtain ⟨hpc, hr⟩ := hold p hr
        exact hI.idle hin p hpc hr
    · rw [resume_sched, resume_inService]
      dsimp only
      intro hin
      split at hin
      · cases hin
      · obtain ⟨a, ha⟩ := hI.busy hin
        refine ⟨a, fun p _ hr => ?_⟩
        obtain ⟨hpc, hr⟩ := hold p hr
        exact ha p hpc hr
  · rename_i heq
    rw [not_not] at heq
    cases h
    constructor
    · intro hin p hp hr
      exact hI.idle hin p (heq ▸ hp) (exec_same_rip hexec heq hr)
    · intro hin
      obtain ⟨a, ha⟩ := hI.busy hin
      exact ⟨a, fun p hp hr => ha p (heq ▸ hp) (exec_same_rip hexec heq hr)⟩

theorem ServiceInv.step (hI : ServiceInv m) (h : MachineStep m op m') : ServiceInv m' := by
  cases h with
  | timer hidle h => exact (hI.timer hidle h).1
  | call hop h => exact hI.call hop h

/-- The machine when the kernel starts. -/
def startMachine (stack idleTask : ℕ) (regs : CpuContext) : Machine where
  sched := boot stack idleTask regs
  pitTicks := 0
  inService := false

theorem ServiceInv.boot (stack idleTask : ℕ) (regs : CpuContext) : ServiceInv (startMachine stack idleTask regs) := by
  refine ⟨?_, fun h => absurd h Bool.false_ne_true⟩
  intro _ p hp hr
  have hp : p ≠ IDLE_PROC := hp
  simp [startMachine, Sched.boot, schedInit, procInit, powerOn, hp] at hr

/-- **When a preemption is acknowledged in time.**  In a run from any state, every timer interrupt
that switches to another process is acknowledged before that process executes exactly when every
one of them leads to a process suspended in `sched_tick`.  In a run from the start of the kernel
there is no such process: every timer interrupt that switches leaves IRQ 0 in service, and no
timer interrupt is delivered to the new process. -/
theorem timer_acknowledged_iff (m₀ : Machine) (ops : List MachineOp) (m : Machine) :
    (Run AckedStep m₀ ops m ↔ Run ResumingStep m₀ ops m) ∧
    ∀ stack idleTask regs m', m₀ = startMachine stack idleTask regs → Run MachineStep m₀ ops m →
      MachineStep m .timer m' → m'.sched.current ≠ m.sched.current →
      m'.inService = true ∧ ∀ m'', ¬ MachineStep m' .timer m'' := by
  constructor
  · have hiff : ∀ m op m', AckedStep m op m' ↔ ResumingStep m op m' := by
      intro m op m'
      refine and_congr_right fun h => ?_
      cases h with
      | timer _ h => exact imp_congr_right fun _ => timer_step_iff h
      | call _ _ => exact imp_congr_right fun hop => nomatch hop
    exact ⟨Run.mono (fun m op m' => (hiff m op m').mp), Run.mono (fun m op m' => (hiff m op m').mpr)⟩
  · rintro stack idleTask regs m' rfl hrun hstep hne
    have hI : ServiceInv m := hrun.invariant (fun _ _ _ => ServiceInv.step) (ServiceInv.boot stack idleTask regs)
    cases hstep with
    | timer hidle h =>
        have hin := (hI.timer hidle h).2 hne
        refine ⟨hin, fun m'' h' => ?_⟩
        cases h' with
        | timer hidle' _ =>
            rw [hin] at hidle'
            cases hidle'

/-! ### Executed runs -/

/-- The condition on a timer tick, computed. -/
def resumesCheck (fuel : ℕ) (s : Sched) : Bool :=
  match s.prepare fuel .tick with
  | .error _ => false
  | .ok (_, none) => true
  | .ok (s₀, some _) =>
      match s₀.pickNext fuel with
      | .error _ => false
      | .ok next => next = 0 ∨ next = s.current ∨ (s.procs next).context.rip = .schedTick

theorem resumesCheck_sound (h : resumesCheck fuel s = true) : ResumesInTick s := by
  intro f s₀ addr next hp hn h0 hne
  have hp := prepare_mono (le_max_right fuel f) hp
  have hn := pickNext_mono (le_max_right fuel f) hn
  unfold resumesCheck at h
  split at h
  · cases h
  · rename_i hp'
    rw [prepare_mono (le_max_left fuel f) hp'] at hp
    cases hp
  · rename_i hp'
    rw [prepare_mono (le_max_left fuel f) hp'] at hp
    cases hp
    split at h
    · cases h
    · rename_i hn'
      rw [pickNext_mono (le_max_left fuel f) hn'] at hn
      cases hn
      exact ((of_decide_eq_true h).resolve_left h0).resolve_left hne

/-- One event, executed with the check of the condition. -/
def resumingExec (fuel : ℕ) (m : Machine) : MachineOp → Option Machine
  | .timer =>
      if m.inService = false ∧ resumesCheck fuel m.sched = true then (m.timerInterrupt fuel).toOption
      else none
  | .call op => if op ≠ .tick then (m.call fuel op).toOption else none

theorem ResumingStep.of_exec (h : resumingExec fuel m op = some m') : ResumingStep m op m' := by
  cases op with
  | timer =>
      rw [resumingExec] at h
      split at h
      · rename_i hc
        exact ⟨.timer hc.1 (toOption_eq_some.mp h), fun _ => resumesCheck_sound hc.2⟩
      · cases h
  | call op =>
      rw [resumingExec] at h
      split at h
      · rename_i hc
        exact ⟨.call hc (toOption_eq_some.mp h), fun hop => nomatch hop⟩
      · cases h

/-- A kernel thread. -/
def worker : CreateArgs := kernelThread 0x2000 0x100000 0x200000 true

/-- Nine ticks with a thread waiting in the queue: no switch, and every interrupt is acknowledged. -/
theorem timer_acknowledged_nine_ticks :
    ∃ m, Run AckedStep (startMachine 0x80000 0x1000 {})
      (.call (.create worker) :: .call (.add 2) :: List.replicate 9 .timer) m := by
  have h : ((MachineOp.call (.create worker) :: .call (.add 2) :: List.replicate 9 .timer).foldlM
      (resumingExec 8) (startMachine 0x80000 0x1000 {})).isSome = true := by decide +kernel
  obtain ⟨m, hm⟩ := Option.isSome_iff_exists.mp h
  have hrun : Run ResumingStep _ _ m := Run.of_exec (fun _ _ _ => ResumingStep.of_exec) hm
  exact ⟨m, (timer_acknowledged_iff _ _ m).1.mpr hrun⟩

/-- The tenth tick switches to the new thread, which then executes with IRQ 0 in service. -/
theorem timer_switch_unacknowledged :
    ∃ m m', Run MachineStep (startMachine 0x80000 0x1000 {})
        (.call (.create worker) :: .call (.add 2) :: List.replicate 9 .timer) m ∧
      MachineStep m .timer m' ∧ m.sched.current = 1 ∧ m'.sched.current = 2 ∧ m'.inService = true := by
  have h : ((MachineOp.call (.create worker) :: .call (.add 2) :: List.replicate 9 .timer).foldlM
      (resumingExec 8) (startMachine 0x80000 0x1000 {})).any (fun m =>
        decide (m.sched.current = 1 ∧ m.inService = false) &&
          ((m.timerInterrupt 8).toOption).any (fun m' =>
            decide (m'.sched.current = 2 ∧ m'.inService = true))) = true := by decide +kernel
  obtain ⟨m, hm, h⟩ := (Option.any_eq_true _ _).mp h
  obtain ⟨h1, h⟩ := Bool.and_eq_true_iff.mp h
  obtain ⟨hcur, hidle⟩ := of_decide_eq_true h1
  obtain ⟨m', hm', h⟩ := (Option.any_eq_true _ _).mp h
  obtain ⟨hcur', hin⟩ := of_decide_eq_true h
  have hrun : Run ResumingStep _ _ m := Run.of_exec (fun _ _ _ => ResumingStep.of_exec) hm
  exact ⟨m, m', hrun.mono (fun _ _ _ hs => hs.1), .timer hidle (toOption_eq_some.mp hm'), hcur, hcur', hin⟩

end HeroOS
