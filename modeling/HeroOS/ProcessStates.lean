import HeroOS.SchedRuns

/-! # Process states over whole runs

Three results about the state field that ten calls in three files write:

* `only_current_runs`: in every state reached from the boot state, only the current process is
  `RUNNING`;
* `exit_final_iff`: `proc_exit` of a process is final exactly when the process is not the current
  one, because `proc_exit` ends in `sched_yield`, which makes the current process `READY` again;
* `sleep_lasts_iff`: for the same reason `sched_sleep` delays the caller only by no time at all. -/

namespace HeroOS

open Word Sched

variable {s s' s'' s₀ : Sched} {op : SchedOp} {p fuel : ℕ}

/-! ### At most one running process -/

/-- Only the current process is running. -/
def OnlyCurrentRuns (s : Sched) : Prop := ∀ p, (s.procs p).state = .RUNNING → p = s.current

theorem yieldPoint_not_running {addr : CodeAddr} (h : s.yieldPoint = (s₀, some addr)) :
    (s₀.procs s₀.current).state ≠ .RUNNING := by
  unfold Sched.yieldPoint at h
  split at h
  · cases h
  · cases h
    rw [setState_state]
    simp [setState]

theorem exitPoint_not_running {code : ℤ} {addr : CodeAddr} (h : s.exitPoint p code = (s₀, some addr)) :
    (s₀.procs s₀.current).state ≠ .RUNNING := by
  unfold Sched.exitPoint at h
  split at h
  · cases h
  · exact yieldPoint_not_running h

/-- When the next process is chosen, the current one has been taken off the CPU. -/
theorem prepare_not_running {addr : CodeAddr} (h : s.prepare fuel op = .ok (s₀, some addr)) :
    (s₀.procs s₀.current).state ≠ .RUNNING := by
  cases op with
  | tick =>
      rw [prepare] at h
      split at h
      · cases h
      · obtain ⟨s₁, _, h⟩ := bind_eq_ok.mp h
        split at h
        · cases h
          unfold preempt
          split
          · rw [setState_state]
            simp [setState]
          · rename_i hr
            exact hr
        · cases h
  | yield => exact yieldPoint_not_running (Except.ok.inj h)
  | sleep ms =>
      have h := Except.ok.inj h
      split at h
      · cases h
      · exact yieldPoint_not_running h
  | exit proc exitCode => exact exitPoint_not_running (Except.ok.inj h)
  | kill pid sig => exact exitPoint_not_running (Except.ok.inj h)
  | signal pid signo =>
      have h := Except.ok.inj h
      split at h
      · cases h
      · split at h
        · exact exitPoint_not_running h
        · split at h
          · cases h
          · split at h <;> cases h
  | create a => cases h
  | add proc => cases h
  | remove proc => cases h
  | wake proc => cases h
  | compute regs => cases h

theorem OnlyCurrentRuns.step (hI : OnlyCurrentRuns s) (h : SchedStep s op s') : OnlyCurrentRuns s' := by
  obtain ⟨fuel, s₀, site, hp, hs⟩ := h.cases
  have hc : s₀.current = s.current := (prepare_frame hp).current
  have h0 : OnlyCurrentRuns s₀ := by
    intro p hr
    have hf := prepare_fate hp p
    rw [hr] at hf
    rw [hc]
    generalize hst : ProcState.RUNNING = st at hf
    cases hf with
    | same => exact hI p hst.symm
    | created => cases hst
    | requeued => cases hst
    | woken => cases hst
    | exited => cases hst
    | stopped => cases hst
  obtain rfl | ⟨addr, next, rfl, _, _, _, rfl⟩ := hs
  · exact h0
  · intro p hr
    rw [switchTo_state] at hr
    rw [switchTo_current]
    by_contra hne
    rw [if_neg hne] at hr
    obtain rfl := h0 p hr
    exact prepare_not_running hp hr

/-- **At most one process is running, and it is the current one**, in every state that any calls
with any arguments lead to from `proc_init` and `sched_init`. -/
theorem only_current_runs {stack idleTask : ℕ} {regs : CpuContext} {ops : List SchedOp}
    (h : Run SchedStep (boot stack idleTask regs) ops s) :
    (∀ p, (s.procs p).state = .RUNNING → p = s.current) ∧
      ∀ p q, (s.procs p).state = .RUNNING → (s.procs q).state = .RUNNING → p = q := by
  have h0 : OnlyCurrentRuns (boot stack idleTask regs) := by
    intro p hr
    by_cases hp : p = IDLE_PROC
    · exact hp
    · simp [boot, schedInit, procInit, powerOn, hp] at hr
  have hI : OnlyCurrentRuns s := h.invariant (fun _ _ _ => OnlyCurrentRuns.step) h0
  exact ⟨hI, fun p q hp hq => (hI p hp).trans (hI q hq).symm⟩

/-- A kernel thread whose allocations succeed. -/
def thread (entry : ℕ) : CreateArgs := kernelThread entry 0x100000 0x200000 true

/-- Two threads: the first is stopped while it runs, the second takes over when it sleeps. -/
theorem only_current_runs_two_threads :
    ∃ s, Run SchedStep (boot 0x80000 0x1000 {})
        [.create (thread 0x2000), .create (thread 0x3000), .add 2, .add 3, .yield, .tick,
          .signal 1 SIGSTOP, .sleep 5, .tick] s ∧
      (s.procs 3).state = .RUNNING ∧ ∀ p, (s.procs p).state = .RUNNING → p = 3 := by
  have h : (schedRun 8 (boot 0x80000 0x1000 {})
      [.create (thread 0x2000), .create (thread 0x3000), .add 2, .add 3, .yield, .tick,
        .signal 1 SIGSTOP, .sleep 5, .tick]).any
      (fun s => decide ((s.procs 3).state = .RUNNING)) = true := by decide +kernel
  obtain ⟨s, hs, hr⟩ := (Option.any_eq_true _ _).mp h
  have hr : (s.procs 3).state = .RUNNING := of_decide_eq_true hr
  have hrun := Run.of_schedRun hs
  exact ⟨s, hrun, hr, fun p hp => (only_current_runs hrun).2 p 3 hp hr⟩

/-! ### Exit -/

/-- Whenever the call chooses the next process, a queued one is ready, so that the choice does not
fall back to the process with PID 0 whatever its state. -/
def FindsReady (s : Sched) (op : SchedOp) : Prop :=
  ∀ fuel s₀ addr, s.prepare fuel op = .ok (s₀, some addr) →
    ∃ xs, s₀.Queue xs ∧ ∃ q ∈ xs, (s₀.procs q).state = .READY

/-- A call other than `signal_send`; when `p` is the process with PID 0, one that does not fall
back to it. -/
def LifeStep (p : ℕ) (s : Sched) (op : SchedOp) (s' : Sched) : Prop :=
  SchedStep s op s' ∧ (∀ pid signo, op ≠ .signal pid signo) ∧ (p = s.procTable 0 → FindsReady s op)

/-- The process has exited and does not run. -/
structure Exited (p : ℕ) (s : Sched) : Prop where
  zombie : (s.procs p).state = .ZOMBIE
  not_current : s.current ≠ p
  allocated : p < s.fresh

/-- A process that is not ready when the choice is made is not chosen. -/
theorem not_chosen {addr : CodeAddr} {next : ℕ} (hz : (s₀.procs p).state = .ZOMBIE)
    (hidle : s₀.procTable 0 = s.procTable 0) (hready : p = s.procTable 0 → FindsReady s op)
    (hp : s.prepare fuel op = .ok (s₀, some addr)) (hn : s₀.pickNext fuel = .ok next) : next ≠ p := by
  rintro rfl
  obtain ⟨xs, hq, ⟨_, hs, _⟩ | ⟨hnone, hi⟩⟩ := pickNext_spec hn
  · rw [hz] at hs
    cases hs
  · have hpid : next = s.procTable 0 := hi.trans hidle
    obtain ⟨ys, hq', q, hmem, hs⟩ := hready hpid fuel s₀ addr hp
    rw [hq'.unique hq] at hmem
    exact hnone q hmem hs

/-- The second half of a step keeps an exited process that its first half kept. -/
theorem Exited.finish {site : Option CodeAddr} (hp : s.prepare fuel op = .ok (s₀, site))
    (h0 : Exited p s₀) (hready : p = s.procTable 0 → FindsReady s op)
    (hs : s' = s₀ ∨ ∃ addr next, site = some addr ∧ s₀.pickNext fuel = .ok next ∧ next ≠ 0 ∧
      next ≠ s₀.current ∧ s' = s₀.switchTo addr next) : Exited p s' := by
  obtain rfl | ⟨addr, next, rfl, hn, _, _, rfl⟩ := hs
  · exact h0
  · have hne : next ≠ p := not_chosen h0.zombie (prepare_frame hp).idle hready hp hn
    refine ⟨?_, hne, h0.allocated⟩
    rw [switchTo_state, if_neg hne.symm]
    exact h0.zombie

theorem Exited.step (hE : Exited p s) (h : LifeStep p s op s') : Exited p s' := by
  obtain ⟨hstep, hsig, hready⟩ := h
  obtain ⟨fuel, s₀, site, hp, hs⟩ := hstep.cases
  have hfr := prepare_frame hp
  refine Exited.finish hp ⟨?_, ?_, ?_⟩ hready hs
  · have hf := prepare_fate hp p
    generalize (s₀.procs p).state = st at hf
    cases hf with
    | same => exact hE.zombie
    | created _ hfresh => exact absurd hfresh hE.allocated.ne
    | requeued hc => exact absurd hc.symm hE.not_current
    | woken hw =>
        rw [hE.zombie] at hw
        simp at hw
    | exited => rfl
    | stopped hop => exact absurd hop (hsig _ _)
  · rw [hfr.current]
    exact hE.not_current
  · exact hE.allocated.trans_le hfr.fresh

/-- The state of the exiting process when the next one is chosen. -/
theorem exitPoint_state_self {code : ℤ} (hp : p ≠ 0) :
    ((s.exitPoint p code).1.procs p).state = if s.current = p then .READY else .ZOMBIE := by
  unfold Sched.exitPoint
  rw [if_neg hp, yieldPoint_state]
  by_cases hc : s.current = p
  · simp [hc, hp]
  · have hne : ¬ (p = s.current) := fun h => hc h.symm
    simp [hc, hne]

theorem prepare_exits {site : Option CodeAddr} (hexit : Exits s p op) (hp : p ≠ 0)
    (h : s.prepare fuel op = .ok (s₀, site)) :
    (s₀.procs p).state = if s.current = p then .READY else .ZOMBIE := by
  cases op with
  | exit proc exitCode =>
      obtain rfl : proc = p := hexit
      rw [eq_fst_of_ok h]
      exact exitPoint_state_self hp
  | kill pid sig =>
      obtain rfl : s.procGet pid = p := hexit
      rw [eq_fst_of_ok h]
      exact exitPoint_state_self hp
  | signal pid signo =>
      obtain ⟨hsig, rfl⟩ := hexit
      rw [eq_fst_of_ok h, if_neg hp, if_pos hsig]
      exact exitPoint_state_self hp
  | create a => exact hexit.elim
  | add proc => exact hexit.elim
  | remove proc => exact hexit.elim
  | tick => exact hexit.elim
  | yield => exact hexit.elim
  | sleep ms => exact hexit.elim
  | wake proc => exact hexit.elim
  | compute regs => exact hexit.elim

/-- A current process that exits is ready after the call. -/
theorem exit_current_ready (hexit : Exits s p op) (hp : p ≠ 0) (hc : s.current = p)
    (h : SchedStep s op s') : (s'.procs p).state = .READY := by
  obtain ⟨fuel, s₀, site, hprep, hs⟩ := h.cases
  have h0 := prepare_exits hexit hp hprep
  rw [if_pos hc] at h0
  obtain rfl | ⟨addr, next, rfl, _, _, hne, rfl⟩ := hs
  · exact h0
  · rw [switchTo_state, if_neg, h0]
    rintro rfl
    exact hne (hc.symm.trans (prepare_frame hprep).current.symm)

/-- **When exit is final.**  After a call that reaches `proc_exit` for the process `p`, in every
continuation `p` stays a zombie and is never selected, exactly when `p` was not the current
process at the call.  (For the process with PID 0, the continuations are those in which no choice
falls back to it.) -/
theorem exit_final_iff (hp : p ≠ 0) (halloc : p < s.fresh) (hexit : Exits s p op)
    (h : LifeStep p s op s') :
    (∀ ops s'', Run (LifeStep p) s' ops s'' →
      (s''.procs p).state = .ZOMBIE ∧ s''.current ≠ p) ↔ s.current ≠ p := by
  constructor
  · intro hall hc
    have hz := (hall [] s' (.nil s')).1
    rw [exit_current_ready hexit hp hc h.1] at hz
    cases hz
  · intro hc ops s'' hrun
    have hE : Exited p s' := by
      obtain ⟨fuel, s₀, site, hprep, hs⟩ := h.1.cases
      have hfr := prepare_frame hprep
      refine Exited.finish hprep ⟨?_, ?_, ?_⟩ h.2.2 hs
      · rw [prepare_exits hexit hp hprep, if_neg hc]
      · rwa [hfr.current]
      · exact halloc.trans_le hfr.fresh
    have hE' : Exited p s'' := hrun.invariant (fun _ _ _ => Exited.step) hE
    exact ⟨hE'.zombie, hE'.not_current⟩

theorem SchedStep.procTable_zero (h : SchedStep s op s') : s'.procTable 0 = s.procTable 0 := by
  obtain ⟨fuel, s₀, site, hp, hs⟩ := h.cases
  obtain rfl | ⟨addr, next, _, _, _, _, rfl⟩ := hs
  · exact (prepare_frame hp).idle
  · exact (prepare_frame hp).idle

/-- For a process other than the one with PID 0 only signals are excluded. -/
theorem Run.life {ops : List SchedOp} (h : Run SchedStep s ops s') (hp : p ≠ s.procTable 0)
    (hops : ∀ op ∈ ops, ∀ pid signo, op ≠ .signal pid signo) : Run (LifeStep p) s ops s' := by
  induction h with
  | nil s => exact .nil s
  | cons hs _ ih =>
      have hstep : LifeStep p _ _ _ := ⟨hs, hops _ List.mem_cons_self, fun h => absurd h hp⟩
      refine .cons hstep (ih ?_ (fun op hop => hops op (List.mem_cons_of_mem _ hop)))
      rwa [hs.procTable_zero]

/-- The first of two threads kills the second one, which stays a zombie over preemptions and
wake-ups. -/
theorem exit_final_second_thread :
    ∃ s s' s'', Run SchedStep (boot 0x80000 0x1000 {})
        [.create (thread 0x2000), .create (thread 0x3000), .add 2, .add 3, .yield] s ∧
      LifeStep 3 s (.kill 2 9) s' ∧ Run (LifeStep 3) s' [.wake 3, .tick, .add 3, .yield] s'' ∧
      (s''.procs 3).state = .ZOMBIE ∧ s''.current ≠ 3 := by
  have h : (schedRun 8 (boot 0x80000 0x1000 {})
      [.create (thread 0x2000), .create (thread 0x3000), .add 2, .add 3, .yield]).any (fun s =>
        decide (3 ≠ s.procTable 0 ∧ 3 < s.fresh ∧ s.procGet 2 = 3 ∧ s.current ≠ 3) &&
          (schedRun 8 s [.kill 2 9]).any (fun s' =>
            (schedRun 8 s' [.wake 3, .tick, .add 3, .yield]).isSome)) = true := by decide +kernel
  obtain ⟨s, hs, h⟩ := (Option.any_eq_true _ _).mp h
  obtain ⟨h1, h⟩ := Bool.and_eq_true_iff.mp h
  obtain ⟨hidle, hfresh, hget, hcur⟩ := of_decide_eq_true h1
  obtain ⟨s', hs', h⟩ := (Option.any_eq_true _ _).mp h
  obtain ⟨s'', hs''⟩ := Option.isSome_iff_exists.mp h
  have hkill : LifeStep 3 s (.kill 2 9) s' := by
    cases (Run.of_schedRun hs').life hidle (by simp) with
    | cons hs hn =>
        cases hn
        exact hs
  have hrun : Run (LifeStep 3) s' [.wake 3, .tick, .add 3, .yield] s'' := by
    refine (Run.of_schedRun hs'').life ?_ (by simp)
    rwa [hkill.1.procTable_zero]
  have hexits : Exits s 3 (.kill 2 9) := hget
  have hfinal := (exit_final_iff (by norm_num) hfresh hexits hkill).mpr hcur
  exact ⟨s, s', s'', Run.of_schedRun hs, hkill, hrun, hfinal _ s'' hrun⟩

/-- A thread that exits while it runs is ready after the call, and still the current process. -/
theorem exit_of_current_undone :
    ∃ s s', Run SchedStep (boot 0x80000 0x1000 {}) [.create (thread 0x2000), .add 2, .yield] s ∧
      s.current = 2 ∧ SchedStep s (.exit 2 0) s' ∧ (s'.procs 2).state = .READY ∧ s'.current = 2 := by
  have h : (schedRun 8 (boot 0x80000 0x1000 {}) [.create (thread 0x2000), .add 2, .yield]).any (fun s =>
      decide (s.current = 2) && ((s.exec 8 (.exit 2 0)).toOption).any (fun s' =>
        decide ((s'.procs 2).state = .READY ∧ s'.current = 2))) = true := by decide +kernel
  obtain ⟨s, hs, h⟩ := (Option.any_eq_true _ _).mp h
  obtain ⟨hcur, h⟩ := Bool.and_eq_true_iff.mp h
  obtain ⟨s', hs', h⟩ := (Option.any_eq_true _ _).mp h
  obtain ⟨hready, hcur'⟩ := of_decide_eq_true h
  exact ⟨s, s', Run.of_schedRun hs, of_decide_eq_true hcur, ⟨8, toOption_eq_some.mp hs'⟩, hready, hcur'⟩

/-! ### Sleep -/

theorem prepare_sleep {site : Option CodeAddr} {ms : ℕ} (hc : s.current ≠ 0)
    (h : s.prepare fuel (.sleep ms) = .ok (s₀, site)) : (s₀.procs s.current).state = .READY := by
  rw [eq_fst_of_ok h, if_neg hc, yieldPoint_state, if_pos]
  exact ⟨hc, rfl⟩

/-- A process that goes to sleep is ready after the call. -/
theorem sleep_ready {ms : ℕ} (hc : s.current ≠ 0) (h : SchedStep s (.sleep ms) s') :
    (s'.procs s.current).state = .READY := by
  obtain ⟨fuel, s₀, site, hp, hs⟩ := h.cases
  have h0 := prepare_sleep hc hp
  obtain rfl | ⟨addr, next, _, _, _, hne, rfl⟩ := hs
  · exact h0
  · rw [switchTo_state, if_neg, h0]
    rintro rfl
    exact hne (prepare_frame hp).current.symm

theorem SchedStep.tick (h : SchedStep s op s') : s'.tick = if op = .tick then wadd s.tick 1 else s.tick := by
  obtain ⟨fuel, s₀, site, hp, hs⟩ := h.cases
  obtain rfl | ⟨addr, next, _, _, _, _, rfl⟩ := hs
  · exact (prepare_frame hp).tick
  · exact (prepare_frame hp).tick

/-- The tick counter counts the calls of `sched_tick`, as long as it does not wrap. -/
theorem Run.tick_eq {ops : List SchedOp} (h : Run SchedStep s ops s')
    (hlt : s.tick + ops.count .tick < 2 ^ 64) : s'.tick = s.tick + ops.count .tick := by
  induction h with
  | nil s => rfl
  | @cons s s₁ s₂ op ops hs _ ih =>
      have ht := hs.tick
      by_cases hop : op = .tick
      · subst hop
        rw [List.count_cons_self] at hlt ⊢
        rw [if_pos rfl, wadd_of_lt (by omega)] at ht
        rw [ih (by omega)]
        omega
      · rw [List.count_cons_of_ne hop] at hlt ⊢
        rw [if_neg hop] at ht
        rw [ih (by omega), ht]

/-- The call wakes the process `p`. -/
def Wakes (s : Sched) (p : ℕ) : SchedOp → Prop
  | .wake proc => proc = p
  | .signal pid signo => signo = SIGCONT ∧ s.procGet pid = p
  | _ => False

/-- A call that does not wake `p`. -/
def SleepStep (p : ℕ) (s : Sched) (op : SchedOp) (s' : Sched) : Prop := SchedStep s op s' ∧ ¬ Wakes s p op

/-- **How long sleep lasts.**  In every continuation of `sched_sleep(ms)` that does not wake the
caller, the caller is neither ready nor running before `ms` ticks have passed, exactly when `ms`
is zero.  (The continuations are those in which the 64-bit tick counter does not wrap.) -/
theorem sleep_lasts_iff {ms : ℕ} (hp : s.current ≠ 0) (htick : s.tick < 2 ^ 64)
    (h : SchedStep s (.sleep ms) s') :
    (∀ ops s'', Run (SleepStep s.current) s' ops s'' → s.tick + ops.count .tick < 2 ^ 64 →
      s''.tick < s.tick + ms →
      (s''.procs s.current).state ≠ .READY ∧ (s''.procs s.current).state ≠ .RUNNING) ↔ ms = 0 := by
  have ht : s'.tick = s.tick := by
    rw [h.tick]
    rfl
  constructor
  · intro hall
    by_contra hms
    exact (hall [] s' (.nil s') (by simpa using htick) (by omega)).1 (sleep_ready hp h)
  · rintro rfl ops s'' hrun hlt hbefore
    rw [← ht] at hlt
    have hrun' : Run SchedStep s' ops s'' := hrun.mono (fun _ _ _ hs => hs.1)
    have hend := hrun'.tick_eq hlt
    omega

/-- A thread that sleeps for no time. -/
theorem sleep_lasts_zero :
    ∃ s s', Run SchedStep (boot 0x80000 0x1000 {}) [.create (thread 0x2000), .add 2, .yield] s ∧
      SchedStep s (.sleep 0) s' ∧
      ∀ ops s'', Run (SleepStep s.current) s' ops s'' → s.tick + ops.count .tick < 2 ^ 64 →
        s''.tick < s.tick + 0 →
        (s''.procs s.current).state ≠ .READY ∧ (s''.procs s.current).state ≠ .RUNNING := by
  have h : (schedRun 8 (boot 0x80000 0x1000 {}) [.create (thread 0x2000), .add 2, .yield]).any (fun s =>
      decide (s.current ≠ 0 ∧ s.tick < 2 ^ 64) && ((s.exec 8 (.sleep 0)).toOption).isSome) = true := by
    decide +kernel
  obtain ⟨s, hs, h⟩ := (Option.any_eq_true _ _).mp h
  obtain ⟨h1, h⟩ := Bool.and_eq_true_iff.mp h
  obtain ⟨hcur, htick⟩ := of_decide_eq_true h1
  obtain ⟨s', hs'⟩ := Option.isSome_iff_exists.mp h
  have hsleep : SchedStep s (.sleep 0) s' := ⟨8, toOption_eq_some.mp hs'⟩
  exact ⟨s, s', Run.of_schedRun hs, hsleep, (sleep_lasts_iff hcur htick hsleep).mpr rfl⟩

/-- A thread that sleeps for a tenth of a second is ready at once. -/
theorem sleep_undone :
    ∃ s s', Run SchedStep (boot 0x80000 0x1000 {}) [.create (thread 0x2000), .add 2, .yield] s ∧
      s.current = 2 ∧ SchedStep s (.sleep 100) s' ∧ s'.tick < s.tick + 100 ∧
      (s'.procs 2).state = .READY := by
  have h : (schedRun 8 (boot 0x80000 0x1000 {}) [.create (thread 0x2000), .add 2, .yield]).any (fun s =>
      decide (s.current = 2) && ((s.exec 8 (.sleep 100)).toOption).any (fun s' =>
        decide (s'.tick < s.tick + 100 ∧ (s'.procs 2).state = .READY))) = true := by decide +kernel
  obtain ⟨s, hs, h⟩ := (Option.any_eq_true _ _).mp h
  obtain ⟨hcur, h⟩ := Bool.and_eq_true_iff.mp h
  obtain ⟨s', hs', h⟩ := (Option.any_eq_true _ _).mp h
  obtain ⟨htick, hready⟩ := of_decide_eq_true h
  exact ⟨s, s', Run.of_schedRun hs, of_decide_eq_true hcur, ⟨8, toOption_eq_some.mp hs'⟩, htick, hready⟩

end HeroOS
