import HeroOS.SchedFairness

/-! # Virtual time against CPU time

A `Clocked` state records beside the scheduler how much CPU time every process has got since it was
created, each tick weighted with `255 - priority + 1`.  `vruntime` holds this number in `uint32_t`.

* `Exact.step`: as long as no charge reaches `2 ^ 32`, virtual time is CPU time;
* `vruntime_ordered_iff`: in a run from the start of the kernel no virtual time decreases, and the
  comparison of virtual times is that of the CPU times, exactly when no tick takes the virtual time of
  the current process to `2 ^ 32`;
* `vruntime_wraps`: a process of priority 0 is there after 16777216 of its ticks, 4.7 hours. -/

namespace HeroOS

open Word Sched

variable {s s' s₀ : Sched} {op : SchedOp} {p q fuel n : ℕ}

/-! ### Only ticks and creations write virtual times -/

namespace Sched

theorem yieldPoint_vruntime (s : Sched) (p : ℕ) : (s.yieldPoint.1.procs p).vruntime = (s.procs p).vruntime := by
  unfold yieldPoint
  split
  · rfl
  · exact update_field Process.vruntime s s.current p (fun q => { q with state := .READY }) (fun _ => rfl)

theorem exitPoint_vruntime (s : Sched) (p q : ℕ) (code : ℤ) :
    ((s.exitPoint q code).1.procs p).vruntime = (s.procs p).vruntime := by
  unfold exitPoint
  split
  · rfl
  · rw [yieldPoint_vruntime]
    exact update_field Process.vruntime s q p (fun q => { q with exitCode := code, state := .ZOMBIE }) (fun _ => rfl)

theorem setState_vruntime (s : Sched) (p q : ℕ) (st : ProcState) :
    ((s.setState q st).procs p).vruntime = (s.procs p).vruntime :=
  update_field Process.vruntime s q p (fun q => { q with state := st }) (fun _ => rfl)

theorem prepare_vruntime {site : Option CodeAddr} (h : s.prepare fuel op = .ok (s₀, site)) (hop : op ≠ .tick)
    (hnew : ∀ a, op = .create a → p ≠ s.fresh) : (s₀.procs p).vruntime = (s.procs p).vruntime := by
  cases op with
  | create a =>
      cases h
      rw [procCreate_procs s a (hnew a rfl)]
  | add proc =>
      cases h
      exact schedAdd_field Process.vruntime (fun _ _ => rfl) (fun _ _ => rfl) s proc p
  | remove proc =>
      cases h
      exact schedRemove_field Process.vruntime (fun _ _ => rfl) (fun _ _ => rfl) s proc p
  | tick => exact absurd rfl hop
  | yield =>
      rw [eq_fst_of_ok h]
      exact yieldPoint_vruntime s p
  | sleep ms =>
      rw [eq_fst_of_ok h]
      split
      · rfl
      · rw [yieldPoint_vruntime]
        exact update_field Process.vruntime s s.current p
          (fun q => { q with state := .SLEEPING, sleepUntil := wadd s.tick ms }) (fun _ => rfl)
  | wake proc =>
      cases h
      unfold schedWake
      split
      · rfl
      · split
        · exact setState_vruntime s p proc .READY
        · rfl
  | exit proc exitCode =>
      rw [eq_fst_of_ok h]
      exact exitPoint_vruntime s p proc exitCode
  | kill pid sig =>
      rw [eq_fst_of_ok h]
      exact exitPoint_vruntime s p _ _
  | signal pid signo =>
      rw [eq_fst_of_ok h]
      split
      · rfl
      · split
        · exact exitPoint_vruntime s p _ _
        · split
          · exact setState_vruntime s p _ .BLOCKED
          · split
            · dsimp only
              split
              · exact setState_vruntime s p _ .READY
              · rfl
            · rfl
  | compute regs =>
      cases h
      rfl

end Sched

/-- The choice of the next process writes neither priorities nor virtual times. -/
theorem SchedStep.account (h : SchedStep s op s') : ∃ fuel s₀ site, s.prepare fuel op = .ok (s₀, site) ∧
    ∀ p, account (s'.procs p) = account (s₀.procs p) := by
  obtain ⟨fuel, s₀, site, hp, rfl | ⟨addr, next, _, _, _, _, rfl⟩⟩ := h.cases
  · exact ⟨fuel, s', site, hp, fun _ => rfl⟩
  · exact ⟨fuel, s₀, site, hp, fun p => switchTo_account s₀ addr next p⟩

/-- Priorities and virtual times after a call that is no tick. -/
theorem SchedStep.times (h : SchedStep s op s') (hop : op ≠ .tick) (hnew : ∀ a, op = .create a → p ≠ s.fresh) :
    (s'.procs p).priority = (s.procs p).priority ∧ (s'.procs p).vruntime = (s.procs p).vruntime := by
  obtain ⟨fuel, s₀, site, hp, hacc⟩ := h.account
  obtain ⟨hprio, hv, _⟩ := account_eq_iff.mp (hacc p)
  have hpriority : Unwritten Process.priority :=
    ⟨fun _ _ => rfl, fun _ _ => rfl, fun _ _ => rfl, fun _ _ => rfl, fun _ _ => rfl, fun _ => rfl⟩
  rw [hprio, hv, prepare_vruntime hp hop hnew]
  refine ⟨?_, rfl⟩
  obtain hsame | ⟨a, ha, hfresh, _⟩ := hpriority.prepare hp p
  · exact hsame
  · exact absurd hfresh (hnew a ha)

/-- The process that a creation fills in, if its allocation succeeds. -/
theorem SchedStep.created {a : CreateArgs} (h : SchedStep s (.create a) s') :
    (s'.procs s.fresh).priority = (if a.allocated then a.priority else (s.procs s.fresh).priority) ∧
      (s'.procs s.fresh).vruntime = if a.allocated then 0 else (s.procs s.fresh).vruntime := by
  obtain ⟨_, h⟩ := h
  obtain rfl := Except.ok.inj h
  cases ha : a.allocated with
  | true =>
      unfold procCreate
      simp [ha, newProcess]
  | false =>
      unfold procCreate
      simp [ha]

/-! ### CPU time -/

/-- The scheduler, and the weighted CPU time that every process has got since it was created. -/
structure Clocked where
  sched : Sched
  cpuTime : ℕ → ℕ

/-- The CPU times after the call `op`: a tick is the current process's, and a new process has none. -/
def cpuTimeAfter (s : Sched) (time : ℕ → ℕ) : SchedOp → ℕ → ℕ
  | .tick => if s.current = 0 then time
      else Function.update time s.current (time s.current + weight (s.procs s.current))
  | .create a => if a.allocated then Function.update time s.fresh 0 else time
  | _ => time

/-- A call; processes are created with a priority of at most 255. -/
def ClockStep (c : Clocked) (op : SchedOp) (c' : Clocked) : Prop :=
  SchedStep c.sched op c'.sched ∧ c'.cpuTime = cpuTimeAfter c.sched c.cpuTime op ∧
    ∀ a, op = .create a → a.priority ≤ 255

/-- The start of the kernel, before any process has run. -/
def clockedBoot (stack idleTask : ℕ) (regs : CpuContext) : Clocked where
  sched := boot stack idleTask regs
  cpuTime := fun _ => 0

/-- What `pick_next` relies on. -/
structure KeepsOrder (c : Clocked) (op : SchedOp) (c' : Clocked) : Prop where
  /-- No virtual time decreases; only a new process starts at 0. -/
  mono : ∀ p, (∀ a, op = .create a → p ≠ c.sched.fresh) →
    (c.sched.procs p).vruntime ≤ (c'.sched.procs p).vruntime
  /-- The comparison of virtual times is that of the CPU times. -/
  order : ∀ p q, (c'.sched.procs p).vruntime < (c'.sched.procs q).vruntime ↔ c'.cpuTime p < c'.cpuTime q

/-- A tick charges less than the current process's virtual time leaves up to `2 ^ 32`. -/
def FitsTick (s : Sched) (op : SchedOp) : Prop :=
  op = .tick → s.current ≠ 0 → (s.procs s.current).vruntime + weight (s.procs s.current) < 2 ^ 32

/-- Virtual time is CPU time. -/
structure Exact (c : Clocked) : Prop where
  priority : ∀ p, (c.sched.procs p).priority ≤ 255
  eq : ∀ p, (c.sched.procs p).vruntime = c.cpuTime p
  lt : ∀ p, c.cpuTime p < 2 ^ 32

variable {c c' : Clocked}

theorem Exact.boot (stack idleTask : ℕ) (regs : CpuContext) : Exact (clockedBoot stack idleTask regs) := by
  have hprocs : ∀ p, (clockedBoot stack idleTask regs).sched.procs p =
      if p = IDLE_PROC then idleProc stack idleTask else {} := by
    intro p
    exact Function.update_apply _ _ _ _
  refine ⟨fun p => ?_, fun p => ?_, fun _ => Nat.two_pow_pos 32⟩
  · rw [hprocs]
    split
    · exact le_rfl
    · exact Nat.zero_le _
  · rw [hprocs]
    split <;> rfl

/-- A charge moves the virtual time on by the weight, in `uint32_t`. -/
theorem Exact.charge (h : Exact c) (p : ℕ) :
    (charge (c.sched.procs p)).vruntime = (c.cpuTime p + weight (c.sched.procs p)) % 2 ^ 32 := by
  have hprio := h.priority p
  unfold Sched.charge weight
  dsimp only
  rw [h.eq]
  omega

/-- What a tick makes of the virtual times. -/
theorem Exact.tick (h : Exact c) (hs : ClockStep c .tick c') (p : ℕ) :
    (c'.sched.procs p).priority ≤ 255 ∧ (c'.sched.procs p).vruntime = c'.cpuTime p % 2 ^ 32 := by
  have e := tick_effect hs.1
  refine ⟨(e.priority p).trans_le (h.priority p), ?_⟩
  rw [hs.2.1, cpuTimeAfter]
  by_cases hc : p = c.sched.current ∧ c.sched.current ≠ 0
  · obtain ⟨rfl, h0⟩ := hc
    rw [if_neg h0, Function.update_self, (e.charged_current h0).1, h.charge]
  · have hch : c.sched.charged .tick p = c.sched.procs p := by
      apply if_neg
      rintro ⟨_, rfl, h0⟩
      exact hc ⟨rfl, h0⟩
    have hv : (c'.sched.procs p).vruntime = (c.sched.procs p).vruntime := by
      rw [(account_eq_iff.mp (e.account p)).2.1, hch]
    have htime : (if c.sched.current = 0 then c.cpuTime else Function.update c.cpuTime c.sched.current
        (c.cpuTime c.sched.current + weight (c.sched.procs c.sched.current))) p = c.cpuTime p := by
      split
      · rfl
      · rename_i h0
        exact Function.update_of_ne (fun heq => hc ⟨heq, h0⟩) _ _
    rw [hv, htime, h.eq, Nat.mod_eq_of_lt (h.lt p)]

theorem Exact.other (h : Exact c) (hs : ClockStep c op c') (hop : op ≠ .tick) (p : ℕ) :
    (c'.sched.procs p).priority ≤ 255 ∧ (c'.sched.procs p).vruntime = c'.cpuTime p ∧ c'.cpuTime p < 2 ^ 32 := by
  obtain ⟨hstep, htime, hprio⟩ := hs
  by_cases hnew : ∃ a, op = .create a ∧ p = c.sched.fresh
  · obtain ⟨a, rfl, rfl⟩ := hnew
    obtain ⟨hpr, hv⟩ := hstep.created
    rw [hpr, hv, htime, cpuTimeAfter]
    cases a.allocated with
    | true => simpa using hprio a rfl
    | false => exact ⟨h.priority _, h.eq _, h.lt _⟩
  · have hnew : ∀ a, op = .create a → p ≠ c.sched.fresh := fun a ha hp => hnew ⟨a, ha, hp⟩
    obtain ⟨hpr, hv⟩ := hstep.times hop hnew
    have hsame : c'.cpuTime p = c.cpuTime p := by
      rw [htime]
      unfold cpuTimeAfter
      split
      · exact absurd rfl hop
      · rename_i a _
        split
        · exact Function.update_of_ne (hnew a rfl) _ _
        · rfl
      · rfl
    rw [hpr, hv, hsame]
    exact ⟨h.priority p, h.eq p, h.lt p⟩

/-- **One step**: a call that fits keeps virtual time equal to CPU time. -/
theorem Exact.step (h : Exact c) (hs : ClockStep c op c') (hfit : FitsTick c.sched op) : Exact c' := by
  by_cases hop : op = .tick
  · subst hop
    have hlt : ∀ p, c'.cpuTime p < 2 ^ 32 := by
      intro p
      rw [hs.2.1, cpuTimeAfter]
      split
      · exact h.lt p
      · rename_i h0
        by_cases hp : p = c.sched.current
        · rw [hp, Function.update_self, ← h.eq]
          exact hfit rfl h0
        · rw [Function.update_of_ne hp]
          exact h.lt p
    refine ⟨fun p => (h.tick hs p).1, fun p => ?_, hlt⟩
    rw [(h.tick hs p).2, Nat.mod_eq_of_lt (hlt p)]
  · exact ⟨fun p => (h.other hs hop p).1, fun p => (h.other hs hop p).2.1, fun p => (h.other hs hop p).2.2⟩

/-- CPU time only grows, except that of a new process. -/
theorem cpuTime_le (hs : ClockStep c op c') (hnew : ∀ a, op = .create a → p ≠ c.sched.fresh) :
    c.cpuTime p ≤ c'.cpuTime p := by
  rw [hs.2.1]
  unfold cpuTimeAfter
  split
  · split
    · exact le_rfl
    · by_cases hp : p = c.sched.current
      · rw [hp, Function.update_self]
        exact Nat.le_add_right _ _
      · rw [Function.update_of_ne hp]
  · rename_i a
    split
    · rw [Function.update_of_ne (hnew a rfl)]
    · exact le_rfl
  · exact le_rfl

theorem Exact.keepsOrder (h : Exact c) (hs : ClockStep c op c') (h' : Exact c') : KeepsOrder c op c' := by
  constructor
  · intro p hnew
    rw [h.eq, h'.eq]
    exact cpuTime_le hs hnew
  · intro p q
    rw [h'.eq, h'.eq]

/-- A tick that does not fit makes the virtual time of the current process smaller. -/
theorem Exact.decreases (h : Exact c) (hs : ClockStep c op c') (hfit : ¬ FitsTick c.sched op) :
    op = .tick ∧ (c'.sched.procs c.sched.current).vruntime < (c.sched.procs c.sched.current).vruntime := by
  unfold FitsTick at hfit
  push Not at hfit
  obtain ⟨rfl, h0, hge⟩ := hfit
  refine ⟨rfl, ?_⟩
  have hw : weight (c.sched.procs c.sched.current) ≤ 256 := Nat.sub_le _ _
  have hlt := h.lt c.sched.current
  rw [((tick_effect hs.1).charged_current h0).1, h.charge]
  rw [h.eq] at hge ⊢
  omega

/-- **Virtual time orders processes by their CPU time until it wraps.**  In a run of calls from the
start of the kernel, with all priorities at most 255, virtual times never decrease and compare as the
weighted CPU times since creation do, if and only if no tick of the run takes the virtual time of the
process it charges to `2 ^ 32`. -/
theorem vruntime_ordered_iff (stack idleTask : ℕ) (regs : CpuContext) (ops : List SchedOp) (c : Clocked) :
    Run (fun c op c' => ClockStep c op c' ∧ KeepsOrder c op c') (clockedBoot stack idleTask regs) ops c ↔
      Run (fun c op c' => ClockStep c op c' ∧ FitsTick c.sched op) (clockedBoot stack idleTask regs) ops c := by
  apply Run.iff_of_invariant (I := Exact) ?_ (fun c op c' h _ hs => h.step hs.1 hs.2) (Exact.boot stack idleTask regs)
  refine fun c op c' h => and_congr_right fun hs => ⟨fun hkeep => ?_, fun hfit => h.keepsOrder hs (h.step hs hfit)⟩
  by_contra hfit
  obtain ⟨rfl, hlt⟩ := h.decreases hs hfit
  exact absurd (hkeep.mono c.sched.current (by simp)) (not_le.mpr hlt)

/-! ### A process of the highest priority -/

/-- A kernel thread of priority 0. -/
def urgent : CreateArgs := { kernelThread 0x2000 0x100000 0x200000 true with priority := 0 }

/-- The process 2 has priority 0, is alone in the run queue, runs, and has been charged `n` ticks; the
idle process has been charged ten. -/
structure Alone (n : ℕ) (c : Clocked) : Prop where
  queue : c.sched.Queue [2]
  current : c.sched.current = 2
  runnable : c.sched.Runnable 2
  priority : (c.sched.procs 2).priority = 0
  vruntime : (c.sched.procs 2).vruntime = 256 * n % 2 ^ 32
  cpuTime : c.cpuTime 2 = 256 * n
  idle : (c.sched.procs IDLE_PROC).vruntime = 10 ∧ c.cpuTime IDLE_PROC = 10

theorem Alone.tick (h : Alone n c) : ∃ c', ClockStep c .tick c' ∧ Alone (n + 1) c' := by
  obtain ⟨s', hstep⟩ := @timeStep_returns c.sched .tick [2] h.queue (.inl rfl)
  have e := hstep.effect
  have h0 : c.sched.current ≠ 0 := by simp [h.current]
  have hweight : weight (c.sched.procs 2) = 256 := by
    unfold weight
    rw [h.priority]
  refine ⟨⟨s', cpuTimeAfter c.sched c.cpuTime .tick⟩, ⟨hstep.2, rfl, by simp⟩, ?_⟩
  have htime : cpuTimeAfter c.sched c.cpuTime .tick = Function.update c.cpuTime 2 (256 * (n + 1)) := by
    rw [cpuTimeAfter, if_neg h0, h.current, hweight, h.cpuTime, Nat.mul_succ]
  refine ⟨e.queue h.queue, ?_, e.runnable 2 h.runnable, (e.priority 2).trans h.priority, ?_, ?_, ?_, ?_⟩
  · obtain ⟨hsame, _⟩ | ⟨_, hmin⟩ := e.choice
    · exact hsame.trans h.current
    · exact List.mem_singleton.mp (hmin [2] (e.queue h.queue) 2 (by simp) h.runnable).1
  · have hv := (e.charged_current h0).1
    rw [h.current] at hv
    have hcharge : (charge (c.sched.procs 2)).vruntime = 256 * (n + 1) % 2 ^ 32 := by
      unfold charge
      dsimp only
      rw [h.vruntime, h.priority]
      omega
    exact hv.trans hcharge
  · dsimp only
    rw [htime, Function.update_self]
  · have hne : ¬ (SchedOp.tick = .tick ∧ IDLE_PROC = c.sched.current) := by
      rw [h.current]
      decide
    exact (e.unchanged hne).1.trans h.idle.1
  · dsimp only
    rw [htime, Function.update_of_ne (by decide)]
    exact h.idle.2

theorem Alone.ticks (h : Alone n c) (k : ℕ) :
    ∃ c', Run ClockStep c (List.replicate k .tick) c' ∧ Alone (n + k) c' := by
  induction k generalizing n c with
  | zero => exact ⟨c, .nil c, h⟩
  | succ k ih =>
      obtain ⟨c₁, h1, hA⟩ := h.tick
      obtain ⟨c', hrun, h'⟩ := ih hA
      exact ⟨c', .cons h1 hrun, Nat.succ_add_eq_add_succ n k ▸ h'⟩

/-- Executable form of `ClockStep`. -/
def clockExec (fuel : ℕ) (c : Clocked) (op : SchedOp) : Option Clocked :=
  match op with
  | .create a => if a.priority ≤ 255 then next c (.create a) else none
  | op => next c op
where
  next (c : Clocked) (op : SchedOp) : Option Clocked :=
    (c.sched.exec fuel op).toOption.map (fun s => ⟨s, cpuTimeAfter c.sched c.cpuTime op⟩)

theorem ClockStep.of_clockExec (h : clockExec fuel c op = some c') : ClockStep c op c' := by
  have hnext : ∀ {op}, clockExec.next fuel c op = some c' → (∀ a, op = .create a → a.priority ≤ 255) →
      ClockStep c op c' := by
    intro op h hprio
    obtain ⟨s, hs, rfl⟩ := Option.map_eq_some_iff.mp h
    exact ⟨⟨fuel, toOption_eq_some.mp hs⟩, rfl, hprio⟩
  unfold clockExec at h
  split at h
  · rename_i a
    split at h
    · rename_i ha
      exact hnext h (fun b hb => by cases hb; exact ha)
    · cases h
  · rename_i hne
    exact hnext h (fun a ha => absurd ha (hne a))

/-- The first time slice after the start belongs to the idle process. -/
theorem alone_after_slice : ∃ c, Run ClockStep (clockedBoot 0x80000 0x1000 {})
    (.create urgent :: .add 2 :: List.replicate 10 .tick) c ∧ Alone 0 c := by
  have h : (List.foldlM (clockExec 8) (clockedBoot 0x80000 0x1000 {})
      (.create urgent :: .add 2 :: List.replicate 10 .tick)).any (fun c => decide
        ((c.sched.head = 2 ∧ (c.sched.procs 2).next = 0) ∧ c.sched.current = 2 ∧ (c.sched.procs 2).state = .RUNNING ∧
          (c.sched.procs 2).priority = 0 ∧ (c.sched.procs 2).vruntime = 0 ∧ c.cpuTime 2 = 0 ∧
          (c.sched.procs IDLE_PROC).vruntime = 10 ∧ c.cpuTime IDLE_PROC = 10)) = true := by decide +kernel
  obtain ⟨c, hc, hv⟩ := (Option.any_eq_true _ _).mp h
  obtain ⟨⟨hhead, hnext⟩, hcur, hst, hprio, hvr, ht, hidle⟩ := of_decide_eq_true hv
  refine ⟨c, Run.of_exec (fun _ _ _ => ClockStep.of_clockExec) hc, ?_⟩
  exact ⟨⟨hhead, by decide, hnext⟩, hcur, .inr ⟨hst, hcur.symm⟩, hprio, hvr, ht, hidle⟩

/-- The 16777216th tick of a process of priority 0 takes its virtual time back to 0, below that of the
idle process, which has had ten ticks. -/
theorem vruntime_wraps : ∃ c c' : Clocked, Run ClockStep (clockedBoot 0x80000 0x1000 {})
      (.create urgent :: .add 2 :: List.replicate 10 .tick ++ List.replicate (2 ^ 24 - 1) .tick) c ∧
    ClockStep c .tick c' ∧ (c.sched.procs 2).vruntime = 2 ^ 32 - 256 ∧
    ((c'.sched.procs 2).vruntime = 0 ∧ c'.cpuTime 2 = 2 ^ 32) ∧
    ((c'.sched.procs IDLE_PROC).vruntime = 10 ∧ c'.cpuTime IDLE_PROC = 10) ∧ ¬ KeepsOrder c .tick c' := by
  obtain ⟨c₀, hrun₀, h₀⟩ := alone_after_slice
  obtain ⟨c, hrun, h⟩ := h₀.ticks (2 ^ 24 - 1)
  obtain ⟨c', hstep, h'⟩ := h.tick
  have hv : (c.sched.procs 2).vruntime = 2 ^ 32 - 256 := by
    rw [h.vruntime]
    norm_num
  have hv' : (c'.sched.procs 2).vruntime = 0 := by
    rw [h'.vruntime]
    norm_num
  have ht' : c'.cpuTime 2 = 2 ^ 32 := by
    rw [h'.cpuTime]
    norm_num
  refine ⟨c, c', hrun₀.append hrun, hstep, hv, ⟨hv', ht'⟩, h'.idle, fun hkeep => ?_⟩
  have hmono := hkeep.mono 2 (by simp)
  rw [hv, hv'] at hmono
  norm_num at hmono

end HeroOS
