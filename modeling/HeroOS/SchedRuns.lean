import HeroOS.LinkedList
import HeroOS.Run
import HeroOS.Sched

/-! # Runs of the scheduler

The calls that change the state of a process, in any order and with any arguments.  Every call
splits into what it writes by itself (`prepare`) and the choice of the next process that may follow
(`reschedule`):

* `prepare_fate`: what a call by itself can do to the state of a process;
* `pickNext_spec`: only a ready process is chosen, or the process with PID 0 when no queued
  process is ready;
* `SchedStep.cases`: a step is the first, or the first followed by a switch to the second.

Results about runs follow from these. -/

namespace HeroOS

open Word

/-- The calls of the process and scheduler interface.  `compute` is the running process using its
registers. -/
inductive SchedOp where
  | create (a : Sched.CreateArgs)
  | add (proc : ℕ)
  | remove (proc : ℕ)
  | tick
  | yield
  | sleep (ms : ℕ)
  | wake (proc : ℕ)
  | exit (proc : ℕ) (exitCode : ℤ)
  | kill (pid : ℕ) (sig : ℤ)
  | signal (pid : ℕ) (signo : ℤ)
  | compute (regs : CpuContext)
deriving DecidableEq, Repr

namespace Sched

/-- One call. -/
def exec (fuel : ℕ) (s : Sched) : SchedOp → Except Halt Sched
  | .create a => .ok (s.procCreate a).1
  | .add proc => .ok (s.schedAdd proc)
  | .remove proc => .ok (s.schedRemove proc)
  | .tick => s.schedTick fuel
  | .yield => s.schedYield fuel
  | .sleep ms => s.schedSleep fuel ms
  | .wake proc => .ok (s.schedWake proc)
  | .exit proc exitCode => s.procExit fuel proc exitCode
  | .kill pid _ => s.procKill fuel pid
  | .signal pid signo => s.signalSend fuel pid signo
  | .compute regs => .ok { s with cpu := regs }

end Sched

/-- A call that returns. -/
def SchedStep (s : Sched) (op : SchedOp) (s' : Sched) : Prop := ∃ fuel, s.exec fuel op = .ok s'

namespace Sched

variable {s s' s₀ : Sched} {op : SchedOp} {p q : ℕ} {fuel : ℕ}

/-! ### The two halves of a call -/

/-- `sched_yield` up to `pick_next`, with the place where the caller is resumed. -/
def yieldPoint (s : Sched) : Sched × Option CodeAddr :=
  if s.current = 0 then (s, none) else (s.setState s.current .READY, some .schedYield)

/-- `proc_exit` up to `pick_next`. -/
def exitPoint (s : Sched) (proc : ℕ) (exitCode : ℤ) : Sched × Option CodeAddr :=
  if proc = 0 then (s, none)
  else (s.update proc (fun q => { q with exitCode := exitCode, state := .ZOMBIE })).yieldPoint

/-- A call up to `pick_next`; no place to resume at means that it ends without choosing. -/
def prepare (fuel : ℕ) (s : Sched) : SchedOp → Except Halt (Sched × Option CodeAddr)
  | .create a => .ok ((s.procCreate a).1, none)
  | .add proc => .ok (s.schedAdd proc, none)
  | .remove proc => .ok (s.schedRemove proc, none)
  | .tick =>
      let s := { s with tick := wadd s.tick 1 }
      if s.current = 0 then .ok (s, none)
      else do
        let s ← s.tickAccount fuel
        .ok (if s.sliceExpired then (s.preempt, some .schedTick) else (s, none))
  | .yield => .ok s.yieldPoint
  | .sleep ms =>
      .ok (if s.current = 0 then (s, none)
        else (s.update s.current (fun q =>
          { q with state := .SLEEPING, sleepUntil := wadd s.tick ms })).yieldPoint)
  | .wake proc => .ok (s.schedWake proc, none)
  | .exit proc exitCode => .ok (s.exitPoint proc exitCode)
  | .kill pid _ => .ok (s.exitPoint (s.procGet pid) (-1))
  | .signal pid signo =>
      let proc := s.procGet pid
      .ok (if proc = 0 then (s, none)
        else if signo = SIGKILL ∨ signo = SIGTERM then s.exitPoint proc (-signo)
        else if signo = SIGSTOP then (s.setState proc .BLOCKED, none)
        else if signo = SIGCONT then
          (if (s.procs proc).state = .BLOCKED then s.setState proc .READY else s, none)
        else (s, none))
  | .compute regs => .ok ({ s with cpu := regs }, none)

/-- The choice that follows. -/
def finish (fuel : ℕ) (r : Sched × Option CodeAddr) : Except Halt Sched :=
  match r.2 with
  | none => .ok r.1
  | some site => r.1.reschedule fuel site

theorem schedYield_eq : s.schedYield fuel = finish fuel s.yieldPoint := by
  unfold schedYield yieldPoint
  split <;> rfl

theorem procExit_eq (p : ℕ) (code : ℤ) : s.procExit fuel p code = finish fuel (s.exitPoint p code) := by
  unfold procExit exitPoint
  split
  · rfl
  · exact schedYield_eq

theorem exec_eq (s : Sched) (op : SchedOp) : s.exec fuel op = s.prepare fuel op >>= finish fuel := by
  cases op with
  | create a => rfl
  | add proc => rfl
  | remove proc => rfl
  | tick =>
      simp only [exec, prepare, schedTick]
      split
      · rfl
      · cases tickAccount fuel { s with tick := wadd s.tick 1 } with
        | error e => rfl
        | ok s₁ =>
            simp only [bind, Except.bind]
            split <;> rfl
  | yield => exact schedYield_eq
  | sleep ms =>
      simp only [exec, prepare, schedSleep]
      split
      · rfl
      · exact schedYield_eq
  | wake proc => rfl
  | exit proc exitCode => exact procExit_eq proc exitCode
  | kill pid sig =>
      simp only [exec, prepare, procKill]
      split
      · exact procExit_eq _ _
      · rename_i h
        rw [not_not] at h
        simp [h, exitPoint, finish, bind, Except.bind]
  | signal pid signo =>
      simp only [exec, prepare, signalSend]
      split
      · rfl
      · split
        · exact procExit_eq _ _
        · split
          · rfl
          · split <;> rfl
  | compute regs => rfl

/-! ### Writes to the state of a process -/

theorem setState_state (s : Sched) (p q : ℕ) (st : ProcState) :
    ((s.setState p st).procs q).state = if q = p then st else (s.procs q).state := by
  unfold setState
  by_cases h : q = p
  · subst h
    simp
  · simp [h]

/-- An update of other fields keeps a field. -/
theorem update_field {α : Type} (g : Process → α) (s : Sched) (p q : ℕ) (f : Process → Process)
    (hf : ∀ q, g (f q) = g q) : g ((s.update p f).procs q) = g (s.procs q) := by
  by_cases h : q = p
  · subst h
    simp [hf]
  · simp [h]

theorem update_state (s : Sched) (p q : ℕ) (f : Process → Process) (hf : ∀ q, (f q).state = q.state) :
    ((s.update p f).procs q).state = (s.procs q).state :=
  update_field Process.state s p q f hf

theorem setNext_field {α : Type} (g : Process → α) (hnext : ∀ q n, g { q with next := n } = g q) (s : Sched) (p q n : ℕ) :
    g ((s.setNext p n).procs q) = g (s.procs q) := update_field g s p q _ (fun q => hnext q n)

theorem setPrev_field {α : Type} (g : Process → α) (hprev : ∀ q n, g { q with prev := n } = g q) (s : Sched) (p q n : ℕ) :
    g ((s.setPrev p n).procs q) = g (s.procs q) := update_field g s p q _ (fun q => hprev q n)

section
variable {α : Type} (g : Process → α) (hnext : ∀ q n, g { q with next := n } = g q)
  (hprev : ∀ q n, g { q with prev := n } = g q)
include hnext hprev

/-- Adding a process to the run queue writes links only. -/
theorem schedAdd_field (s : Sched) (p q : ℕ) : g ((s.schedAdd p).procs q) = g (s.procs q) := by
  unfold schedAdd
  split
  · rfl
  · dsimp only
    split <;> simp only [setNext_field g hnext, setPrev_field g hprev]

/-- Removing a process from the run queue writes links only. -/
theorem schedRemove_field (s : Sched) (p q : ℕ) : g ((s.schedRemove p).procs q) = g (s.procs q) := by
  have hlast : ∀ s₂ : Sched, g (s₂.procs q) = g (s.procs q) →
      g ((if s₂.count > 0 then { s₂ with count := s₂.count - 1 } else s₂).procs q) = g (s.procs q) := by
    intro s₂ h
    split <;> exact h
  unfold schedRemove
  split
  · rfl
  · dsimp only
    apply hlast
    split <;> split <;> simp only [setNext_field g hnext, setPrev_field g hprev]

end

/-- `proc_create` fills in the next object, or does nothing. -/
theorem procCreate_cases (s : Sched) (a : CreateArgs) : (s.procCreate a).1 = s ∨
    (s.procCreate a).1.procs = Function.update s.procs s.fresh (s.newProcess s.freeSlot a) ∧
      (s.procCreate a).1.fresh = s.fresh + 1 := by
  unfold procCreate
  dsimp only
  split
  · exact .inl rfl
  · split
    · exact .inl rfl
    · exact .inr ⟨rfl, rfl⟩

theorem procCreate_procs (s : Sched) (a : CreateArgs) (h : p ≠ s.fresh) :
    (s.procCreate a).1.procs p = s.procs p := by
  obtain h0 | ⟨hprocs, _⟩ := procCreate_cases s a
  · rw [h0]
  · rw [hprocs]
    exact Function.update_of_ne h _ _

/-- The wake-up loop makes sleeping processes ready once their time has come, and nothing else. -/
theorem wakeLoop_spec {tick : ℕ} {procs procs' : ℕ → Process} {cur : ℕ}
    (h : wakeLoop tick fuel procs cur = .ok procs') (p : ℕ) :
    procs' p = procs p ∨ (procs p).state = .SLEEPING ∧ tick ≥ (procs p).sleepUntil ∧
      procs' p = { procs p with state := .READY } := by
  induction fuel generalizing procs cur with
  | zero => cases h
  | succ fuel ih =>
      rw [wakeLoop] at h
      split at h
      · cases h
        exact .inl rfl
      · split at h
        · rename_i hw
          have hp := ih h
          by_cases hc : p = cur
          · subst hc
            rw [Function.update_self] at hp
            refine .inr ⟨hw.1, hw.2, ?_⟩
            obtain hp | ⟨hs, _⟩ := hp
            · exact hp
            · cases hs
          · rwa [Function.update_of_ne hc] at hp
        · exact ih h

/-- Before the time slice is checked, one tick is charged to the current process and sleeping
processes are made ready. -/
theorem tickAccount_spec (h : s.tickAccount fuel = .ok s') :
    ∃ procs, s' = { s with procs := procs } ∧ ∀ p, procs p = (s.update s.current charge).procs p ∨
      (s.procs p).state = .SLEEPING ∧
        procs p = { (s.update s.current charge).procs p with state := .READY } := by
  unfold tickAccount at h
  obtain ⟨procs, hw, h⟩ := bind_eq_ok.mp h
  cases h
  refine ⟨procs, rfl, fun p => ?_⟩
  obtain hp | ⟨hs, _, hp⟩ := wakeLoop_spec hw p
  · exact .inl hp
  · refine .inr ⟨?_, hp⟩
    exact (update_state s s.current p charge (fun _ => rfl)).symm.trans hs

/-- A field that neither the charge nor a wake-up writes is kept. -/
theorem tickAccount_field {α : Type} (g : Process → α) (hcharge : ∀ q, g (charge q) = g q)
    (hstate : ∀ q, g { q with state := .READY } = g q) (h : s.tickAccount fuel = .ok s') (p : ℕ) :
    g (s'.procs p) = g (s.procs p) := by
  obtain ⟨procs, rfl, hprocs⟩ := tickAccount_spec h
  have hc : g ((s.update s.current charge).procs p) = g (s.procs p) := update_field g s _ p charge hcharge
  dsimp only
  obtain hp | ⟨_, hp⟩ := hprocs p
  · rw [hp, hc]
  · rw [hp, hstate, hc]

theorem tickAccount_state (h : s.tickAccount fuel = .ok s') (p : ℕ) :
    (s'.procs p).state = (s.procs p).state ∨
      (s.procs p).state = .SLEEPING ∧ (s'.procs p).state = .READY := by
  obtain ⟨procs, rfl, hprocs⟩ := tickAccount_spec h
  dsimp only
  obtain hp | ⟨hs, hp⟩ := hprocs p
  · rw [hp]
    exact .inl (update_state s s.current p charge (fun _ => rfl))
  · rw [hp]
    exact .inr ⟨hs, rfl⟩

/-! ### What a call does by itself -/

/-- The call `op` reaches `proc_exit` for the process `p`. -/
def Exits (s : Sched) (p : ℕ) : SchedOp → Prop
  | .exit proc _ => proc = p
  | .kill pid _ => s.procGet pid = p
  | .signal pid signo => (signo = SIGKILL ∨ signo = SIGTERM) ∧ s.procGet pid = p
  | _ => False

/-- What a call by itself can make of a process `p` that is there, and why. -/
inductive Change (s : Sched) (op : SchedOp) (p : ℕ) : Process → Prop
  | same : Change s op p (s.procs p)
  | linked {q : Process} (h : { q with next := (s.procs p).next, prev := (s.procs p).prev } = s.procs p) :
      Change s op p q
  | charged : Change s op p (charge (s.procs p))
  | slept {t : ℕ} (hp : p = s.current) : Change s op p { s.procs p with state := .READY, sleepUntil := t }
  | exited {code : ℤ} (hop : Exits s p op) : Change s op p { s.procs p with exitCode := code, state := .ZOMBIE }
  | stopped {pid : ℕ} (hop : op = .signal pid SIGSTOP) (hp : s.procGet pid = p) :
      Change s op p { s.procs p with state := .BLOCKED }
  | woken {q : Process} (hs : (s.procs p).state = .SLEEPING ∨ (s.procs p).state = .BLOCKED)
      (c : Change s op p q) : Change s op p { q with state := .READY }
  | requeued {q : Process} (hp : p = s.current) (c : Change s op p q) : Change s op p { q with state := .READY }

namespace Change

variable {s₁ : Sched} {f : Process → Process}

theorem update (c : Change s op p (s₁.procs p)) (hq : p = q → Change s op p (f (s₁.procs p))) :
    Change s op p ((s₁.update q f).procs p) := by
  by_cases hp : p = q
  · subst hp
    simpa using hq rfl
  · simpa [hp] using c

/-- Whatever a call made of the current process, giving up the CPU makes it ready. -/
theorem yieldPoint (hc : s₁.current = s.current) (c : Change s op p (s₁.procs p)) :
    Change s op p (s₁.yieldPoint.1.procs p) := by
  unfold Sched.yieldPoint
  split
  · exact c
  · dsimp only
    apply c.update
    exact fun hp => c.requeued (hp.trans hc)

theorem preempt (hc : s₁.current = s.current) (c : Change s op p (s₁.procs p)) :
    Change s op p (s₁.preempt.procs p) := by
  unfold Sched.preempt
  split
  · apply c.update
    exact fun hp => c.requeued (hp.trans hc)
  · exact c

theorem exitPoint {code : ℤ} (hop : Exits s q op) : Change s op p ((s.exitPoint q code).1.procs p) := by
  unfold Sched.exitPoint
  split
  · exact .same
  · apply Change.yieldPoint
    · rfl
    · apply Change.same.update
      rintro rfl
      exact .exited hop

theorem schedWake (s : Sched) (op : SchedOp) (p q : ℕ) : Change s op p ((s.schedWake q).procs p) := by
  unfold Sched.schedWake
  split
  · exact .same
  · split
    · rename_i hs
      apply Change.same.update
      rintro rfl
      exact Change.same.woken hs
    · exact .same

/-- The charge of a tick and the wake-up loop. -/
theorem tickAccount {t : ℕ} (h : Sched.tickAccount fuel { s with tick := t } = .ok s') (p : ℕ) :
    s'.current = s.current ∧ Change s op p (s'.procs p) := by
  obtain ⟨procs, rfl, hprocs⟩ := tickAccount_spec h
  have hcharge : Change s op p ((s.update s.current charge).procs p) := Change.same.update (fun _ => .charged)
  refine ⟨rfl, ?_⟩
  dsimp only
  obtain hp | ⟨hs, hp⟩ := hprocs p
  · rwa [hp]
  · rw [hp]
    exact hcharge.woken (.inl hs)

/-- A process that goes to sleep gives up the CPU at once, and is ready again. -/
theorem sleepPoint {t : ℕ} (hc : s.current ≠ 0) (p : ℕ) :
    Change s op p ((s.update s.current (fun q =>
      { q with state := .SLEEPING, sleepUntil := t })).yieldPoint.1.procs p) := by
  unfold Sched.yieldPoint
  split
  · rename_i h0
    exact absurd h0 hc
  · by_cases hp : p = s.current
    · subst hp
      simpa [setState] using Change.slept rfl
    · simpa [setState, hp] using Change.same

/-- The stop and the continue signal. -/
theorem stop {pid : ℕ} (p : ℕ) :
    Change s (.signal pid SIGSTOP) p ((s.setState (s.procGet pid) .BLOCKED).procs p) := by
  apply Change.same.update
  intro hp
  exact .stopped rfl hp.symm

theorem cont {q : ℕ} (hs : (s.procs q).state = .BLOCKED) (p : ℕ) :
    Change s op p ((s.setState q .READY).procs p) := by
  apply Change.same.update
  intro hp
  exact Change.same.woken (.inr (hp ▸ hs))

end Change

theorem procCreate_change (s : Sched) (a : CreateArgs) (p : ℕ) :
    p = s.fresh ∧ (s.procCreate a).1.procs p = s.newProcess s.freeSlot a ∨
      (s.procCreate a).1.procs p = s.procs p := by
  by_cases hp : p = s.fresh
  · obtain h0 | ⟨hprocs, _⟩ := procCreate_cases s a
    · rw [h0]
      exact .inr rfl
    · refine .inl ⟨hp, ?_⟩
      rw [hprocs, hp, Function.update_self]
  · exact .inr (procCreate_procs s a hp)

theorem eq_fst_of_ok {r : Sched × Option CodeAddr} {site : Option CodeAddr}
    (h : (.ok r : Except Halt (Sched × Option CodeAddr)) = .ok (s₀, site)) : s₀ = r.1 :=
  (congrArg Prod.fst (Except.ok.inj h)).symm

/-- A call by itself fills in a new process or changes one that is there. -/
theorem prepare_change {site : Option CodeAddr} (h : s.prepare fuel op = .ok (s₀, site)) (p : ℕ) :
    (∃ a, op = .create a ∧ p = s.fresh ∧ s₀.procs p = s.newProcess s.freeSlot a) ∨
      Change s op p (s₀.procs p) := by
  cases op with
  | create a =>
      cases h
      obtain ⟨hp, hnew⟩ | hold := procCreate_change s a p
      · exact .inl ⟨a, rfl, hp, hnew⟩
      · rw [hold]
        exact .inr .same
  | add proc =>
      cases h
      right
      apply Change.linked
      exact schedAdd_field (fun q => { q with next := (s.procs p).next, prev := (s.procs p).prev })
        (fun _ _ => rfl) (fun _ _ => rfl) s proc p
  | remove proc =>
      cases h
      right
      apply Change.linked
      exact schedRemove_field (fun q => { q with next := (s.procs p).next, prev := (s.procs p).prev })
        (fun _ _ => rfl) (fun _ _ => rfl) s proc p
  | tick =>
      right
      rw [prepare] at h
      split at h
      · cases h
        exact .same
      · obtain ⟨s₁, ht, h⟩ := bind_eq_ok.mp h
        obtain ⟨hc, c⟩ := Change.tickAccount ht p
        rw [eq_fst_of_ok h]
        split
        · exact Change.preempt hc c
        · exact c
  | yield =>
      rw [eq_fst_of_ok h]
      exact .inr (.yieldPoint rfl .same)
  | sleep ms =>
      right
      rw [eq_fst_of_ok h]
      split
      · exact .same
      · rename_i hne
        exact .sleepPoint hne p
  | wake proc =>
      cases h
      exact .inr (.schedWake s _ p proc)
  | exit proc exitCode =>
      rw [eq_fst_of_ok h]
      exact .inr (.exitPoint rfl)
  | kill pid sig =>
      rw [eq_fst_of_ok h]
      exact .inr (.exitPoint rfl)
  | signal pid signo =>
      right
      rw [eq_fst_of_ok h]
      split
      · exact .same
      · split
        · rename_i hsig
          exact .exitPoint ⟨hsig, rfl⟩
        · split
          · rename_i hstop
            subst hstop
            exact .stop p
          · split
            · dsimp only
              split
              · rename_i hs
                exact .cont hs p
              · exact .same
            · exact .same
  | compute regs =>
      cases h
      exact .inr .same

/-- The state that a call by itself gives to the process `p`, and why. -/
inductive Fate (s : Sched) (op : SchedOp) (p : ℕ) : ProcState → Prop
  | same : Fate s op p (s.procs p).state
  | created {a : CreateArgs} (hop : op = .create a) (hp : p = s.fresh) : Fate s op p .READY
  | requeued (hp : p = s.current) : Fate s op p .READY
  | woken (hs : (s.procs p).state = .SLEEPING ∨ (s.procs p).state = .BLOCKED) : Fate s op p .READY
  | exited (hop : Exits s p op) : Fate s op p .ZOMBIE
  | stopped {pid : ℕ} (hop : op = .signal pid SIGSTOP) (hp : s.procGet pid = p) : Fate s op p .BLOCKED

theorem Change.fate {r : Process} (c : Change s op p r) : Fate s op p r.state := by
  cases c with
  | same => exact .same
  | linked h =>
      have hs := congrArg Process.state h
      exact hs ▸ .same
  | charged => exact .same
  | slept hp => exact .requeued hp
  | exited hop => exact .exited hop
  | stopped hop hp => exact .stopped hop hp
  | woken hs => exact .woken hs
  | requeued hp => exact .requeued hp

theorem prepare_fate {site : Option CodeAddr} (h : s.prepare fuel op = .ok (s₀, site)) (p : ℕ) :
    Fate s op p (s₀.procs p).state := by
  obtain ⟨a, hop, hp, hnew⟩ | c := prepare_change h p
  · rw [hnew]
    exact .created hop hp
  · exact c.fate

theorem yieldPoint_state (s : Sched) (p : ℕ) :
    (s.yieldPoint.1.procs p).state = if s.current ≠ 0 ∧ p = s.current then .READY else (s.procs p).state := by
  unfold yieldPoint
  by_cases h : s.current = 0
  · simp [h]
  · simp [h, setState_state]

/-! ### Fields that no call writes -/

/-- A part of a process that is written only when the process is created or switched. -/
structure Unwritten {α : Type} (g : Process → α) : Prop where
  next : ∀ q n, g { q with next := n } = g q
  prev : ∀ q n, g { q with prev := n } = g q
  state : ∀ q st, g { q with state := st } = g q
  sleep : ∀ q t, g { q with state := .SLEEPING, sleepUntil := t } = g q
  exit : ∀ q code, g { q with exitCode := code, state := .ZOMBIE } = g q
  charge : ∀ q, g (charge q) = g q

namespace Unwritten

variable {α : Type} {g : Process → α}

theorem context : Unwritten Process.context :=
  ⟨fun _ _ => rfl, fun _ _ => rfl, fun _ _ => rfl, fun _ _ => rfl, fun _ _ => rfl, fun _ => rfl⟩

theorem flags : Unwritten Process.flags :=
  ⟨fun _ _ => rfl, fun _ _ => rfl, fun _ _ => rfl, fun _ _ => rfl, fun _ _ => rfl, fun _ => rfl⟩

theorem addrSpace : Unwritten Process.addrSpace :=
  ⟨fun _ _ => rfl, fun _ _ => rfl, fun _ _ => rfl, fun _ _ => rfl, fun _ _ => rfl, fun _ => rfl⟩

theorem setState (hg : Unwritten g) (s : Sched) (p q : ℕ) (st : ProcState) :
    g ((s.setState q st).procs p) = g (s.procs p) :=
  update_field g s q p (fun q => { q with state := st }) (fun q => hg.state q st)

theorem change (hg : Unwritten g) {r : Process} (c : Change s op p r) : g r = g (s.procs p) := by
  induction c with
  | same => rfl
  | @linked q h =>
      have hlinks := hg.prev { q with next := (s.procs p).next } (s.procs p).prev
      rw [hg.next] at hlinks
      exact hlinks.symm.trans (congrArg g h)
  | charged => exact hg.charge _
  | @slept t hp =>
      have hstate := hg.state { s.procs p with state := .SLEEPING, sleepUntil := t } .READY
      exact hstate.trans (hg.sleep _ t)
  | exited => exact hg.exit _ _
  | stopped => exact hg.state _ _
  | woken _ _ ih => rw [hg.state, ih]
  | requeued _ _ ih => rw [hg.state, ih]

/-- The first half of a call writes it in a new process only. -/
theorem prepare (hg : Unwritten g) {site : Option CodeAddr} (h : s.prepare fuel op = .ok (s₀, site)) (p : ℕ) :
    g (s₀.procs p) = g (s.procs p) ∨ ∃ a, op = .create a ∧ p = s.fresh ∧ s₀.procs p = s.newProcess s.freeSlot a := by
  obtain hnew | c := prepare_change h p
  · exact .inr hnew
  · exact .inl (hg.change c)

end Unwritten

/-! ### The choice of the next process -/

/-- The processes on the run queue, in queue order. -/
def Queue (s : Sched) (xs : List ℕ) : Prop := LinkedList.Chain (fun p => (s.procs p).next) 0 s.head xs

/-- The candidate after one more process of the queue. -/
def better (procs : ℕ → Process) (best cur : ℕ) : ℕ :=
  if (procs cur).state = .READY ∧ (best = 0 ∨ (procs cur).vruntime < (procs best).vruntime) then cur else best

variable {procs : ℕ → Process} {best cur r : ℕ} {xs : List ℕ}

/-- The loop of `pick_next` returns exactly on queues that end, and then it folds the queue. -/
theorem pickLoop_eq_ok : pickLoop procs fuel best cur = .ok r ↔
    ∃ xs, LinkedList.Chain (fun p => (procs p).next) 0 cur xs ∧ xs.length < fuel ∧
      r = xs.foldl (better procs) best := by
  induction fuel generalizing best cur with
  | zero => simp [pickLoop]
  | succ fuel ih =>
      rw [pickLoop]
      split
      · rename_i hc
        constructor
        · intro h
          cases h
          exact ⟨[], hc, Nat.succ_pos _, rfl⟩
        · rintro ⟨xs, hx, _, rfl⟩
          have hnil : LinkedList.Chain (fun p => (procs p).next) 0 cur [] := hc
          rw [hx.unique hnil]
          rfl
      · rename_i hc
        rw [ih]
        constructor
        · rintro ⟨xs, hx, hlen, rfl⟩
          exact ⟨cur :: xs, ⟨rfl, hc, hx⟩, Nat.succ_lt_succ hlen, rfl⟩
        · rintro ⟨xs, hx, hlen, rfl⟩
          cases xs with
          | nil => exact absurd hx hc
          | cons x xs =>
              obtain ⟨rfl, _, hx⟩ := hx
              exact ⟨xs, hx, Nat.lt_of_succ_lt_succ hlen, rfl⟩

/-- One more process leaves the candidate or replaces it by a ready one. -/
theorem better_cases (procs : ℕ → Process) (best y : ℕ) :
    better procs best y = best ∨ better procs best y = y ∧ (procs y).state = .READY := by
  unfold better
  split
  · rename_i h
    exact .inr ⟨rfl, h.1⟩
  · exact .inl rfl

/-- The candidate gets no later in virtual time. -/
theorem better_le_best {y : ℕ} (hy : y ≠ 0) (h0 : best ≠ 0) :
    better procs best y ≠ 0 ∧ (procs (better procs best y)).vruntime ≤ (procs best).vruntime := by
  unfold better
  split
  · rename_i h
    exact ⟨hy, (h.2.resolve_left h0).le⟩
  · exact ⟨h0, le_rfl⟩

/-- It is no later than a ready process that it has been compared with. -/
theorem better_le_ready {y : ℕ} (hy : y ≠ 0) (hs : (procs y).state = .READY) :
    better procs best y ≠ 0 ∧ (procs (better procs best y)).vruntime ≤ (procs y).vruntime := by
  unfold better
  split
  · exact ⟨hy, le_rfl⟩
  · rename_i h
    have h0 : best ≠ 0 := fun h0 => h ⟨hs, .inl h0⟩
    exact ⟨h0, not_lt.mp fun hlt => h ⟨hs, .inr hlt⟩⟩

/-- The fold keeps its candidate or takes a ready process, and ends no later than any of them in
virtual time. -/
theorem foldl_better_spec (procs : ℕ → Process) (best : ℕ) (hne : ∀ x ∈ xs, x ≠ 0) :
    (xs.foldl (better procs) best = best ∨
      xs.foldl (better procs) best ∈ xs ∧ (procs (xs.foldl (better procs) best)).state = .READY) ∧
    (best ≠ 0 → xs.foldl (better procs) best ≠ 0 ∧
      (procs (xs.foldl (better procs) best)).vruntime ≤ (procs best).vruntime) ∧
    ∀ x ∈ xs, (procs x).state = .READY → xs.foldl (better procs) best ≠ 0 ∧
      (procs (xs.foldl (better procs) best)).vruntime ≤ (procs x).vruntime := by
  induction xs generalizing best with
  | nil => simp
  | cons y ys ih =>
      have hy : y ≠ 0 := hne y List.mem_cons_self
      obtain ⟨h1, h2, h3⟩ := ih (better procs best y) (fun x hx => hne x (List.mem_cons_of_mem _ hx))
      rw [List.foldl_cons]
      generalize ys.foldl (better procs) (better procs best y) = r at *
      refine ⟨?_, fun h0 => ?_, fun x hx hs => ?_⟩
      · obtain hr | ⟨hr, hs⟩ := h1
        · rw [hr]
          obtain hb | ⟨hb, hs⟩ := better_cases procs best y
          · exact .inl hb
          · rw [hb]
            exact .inr ⟨List.mem_cons_self, hs⟩
        · exact .inr ⟨List.mem_cons_of_mem _ hr, hs⟩
      · obtain ⟨hne', hle⟩ := better_le_best hy h0
        exact ⟨(h2 hne').1, (h2 hne').2.trans hle⟩
      · obtain rfl | hx := List.mem_cons.mp hx
        · obtain ⟨hne', hle⟩ := better_le_ready hy hs
          exact ⟨(h2 hne').1, (h2 hne').2.trans hle⟩
        · exact h3 x hx hs

/-- **`pick_next`** chooses a ready process of the queue with the lowest virtual time, or the
process with PID 0 when no queued process is ready. -/
theorem pickNext_spec (h : s.pickNext fuel = .ok r) : ∃ xs, s.Queue xs ∧
    (r ∈ xs ∧ (s.procs r).state = .READY ∧
      (∀ x ∈ xs, (s.procs x).state = .READY → (s.procs r).vruntime ≤ (s.procs x).vruntime) ∨
    (∀ x ∈ xs, (s.procs x).state ≠ .READY) ∧ r = s.procGet 0) := by
  unfold pickNext at h
  split at h
  · rename_i hh
    cases h
    exact ⟨[], hh, .inr ⟨by simp, rfl⟩⟩
  · obtain ⟨best, hb, h⟩ := bind_eq_ok.mp h
    cases h
    obtain ⟨xs, hx, _, rfl⟩ := pickLoop_eq_ok.mp hb
    refine ⟨xs, hx, ?_⟩
    obtain ⟨h1, _, h3⟩ := foldl_better_spec s.procs 0 (fun x hx' => hx.ne_null hx')
    split
    · rename_i hne
      obtain ⟨hm, hs⟩ := h1.resolve_left hne
      exact .inl ⟨hm, hs, fun x hx hs => (h3 x hx hs).2⟩
    · rename_i hz
      rw [not_not] at hz
      exact .inr ⟨fun x hx hs => (h3 x hx hs).1 hz, rfl⟩

theorem contextSwitch_state (s : Sched) (site : CodeAddr) (old new p : ℕ) :
    ((s.contextSwitch site old new).procs p).state = (s.procs p).state :=
  update_state s old p (fun q => { q with context := s.cpu.save q.context site }) (fun _ => rfl)

theorem switchTo_state (s : Sched) (site : CodeAddr) (next p : ℕ) :
    ((s.switchTo site next).procs p).state = if p = next then .RUNNING else (s.procs p).state := by
  unfold switchTo
  rw [contextSwitch_state, setState_state]

@[simp]
theorem switchTo_current (s : Sched) (site : CodeAddr) (next : ℕ) : (s.switchTo site next).current = next := rfl

/-- What the first half of a call keeps. -/
structure Frame (s : Sched) (op : SchedOp) (s₀ : Sched) : Prop where
  current : s₀.current = s.current
  idle : s₀.procTable 0 = s.procTable 0
  fresh : s.fresh ≤ s₀.fresh
  tick : s₀.tick = if op = .tick then wadd s.tick 1 else s.tick
  cpu : (∀ regs, op ≠ .compute regs) → s₀.cpu = s.cpu
  fresh_eq : (∀ a, op ≠ .create a) → s₀.fresh = s.fresh

/-- The search for a slot starts at PID 1. -/
theorem freeSlot_ne_zero (s : Sched) : s.freeSlot ≠ 0 := by
  unfold freeSlot
  cases h : (List.range' 1 (MAX_PROCESSES - 1)).find? (fun i => s.procTable i = 0) with
  | none => simp
  | some i =>
      have hi := List.mem_range'_1.mp (List.mem_of_find?_eq_some h)
      simp only [Option.getD_some]
      omega

/-- `s₁` differs from `s` in the processes and their links only. -/
structure Untouched (s s₁ : Sched) : Prop where
  current : s₁.current = s.current
  table : s₁.procTable = s.procTable
  fresh : s₁.fresh = s.fresh
  tick : s₁.tick = s.tick
  cpu : s₁.cpu = s.cpu

namespace Untouched

variable {s₁ : Sched}

theorem refl (s : Sched) : Untouched s s := ⟨rfl, rfl, rfl, rfl, rfl⟩

theorem update (h : Untouched s s₁) (p : ℕ) (f : Process → Process) : Untouched s (s₁.update p f) :=
  ⟨h.current, h.table, h.fresh, h.tick, h.cpu⟩

theorem setState (h : Untouched s s₁) (p : ℕ) (st : ProcState) : Untouched s (s₁.setState p st) := h.update p _

theorem yieldPoint (h : Untouched s s₁) : Untouched s s₁.yieldPoint.1 := by
  unfold Sched.yieldPoint
  split
  · exact h
  · exact h.setState _ _

theorem preempt (h : Untouched s s₁) : Untouched s s₁.preempt := by
  unfold Sched.preempt
  split
  · exact h.update _ _
  · exact h

theorem exitPoint (s : Sched) (p : ℕ) (code : ℤ) : Untouched s (s.exitPoint p code).1 := by
  unfold Sched.exitPoint
  split
  · exact .refl s
  · exact ((refl s).update _ _).yieldPoint

theorem schedAdd (s : Sched) (p : ℕ) : Untouched s (s.schedAdd p) := by
  unfold Sched.schedAdd
  split
  · exact .refl s
  · dsimp only
    split <;> exact ⟨rfl, rfl, rfl, rfl, rfl⟩

theorem schedRemove (s : Sched) (p : ℕ) : Untouched s (s.schedRemove p) := by
  unfold Sched.schedRemove
  split
  · exact .refl s
  · dsimp only
    split <;> split <;> split <;> exact ⟨rfl, rfl, rfl, rfl, rfl⟩

theorem schedWake (s : Sched) (p : ℕ) : Untouched s (s.schedWake p) := by
  unfold Sched.schedWake
  split
  · exact .refl s
  · split
    · exact (refl s).update _ _
    · exact .refl s

theorem tickAccount (h : s.tickAccount fuel = .ok s₁) : Untouched s s₁ := by
  obtain ⟨procs, rfl, _⟩ := tickAccount_spec h
  exact ⟨rfl, rfl, rfl, rfl, rfl⟩

theorem frame (h : Untouched s s₁) (hop : op ≠ .tick) : Frame s op s₁ :=
  ⟨h.current, congrFun h.table 0, h.fresh.ge, h.tick.trans (if_neg hop).symm, fun _ => h.cpu, fun _ => h.fresh⟩

theorem frame_tick (h : Untouched { s with tick := wadd s.tick 1 } s₁) : Frame s .tick s₁ :=
  ⟨h.current, congrFun h.table 0, h.fresh.ge, h.tick, fun _ => h.cpu, fun _ => h.fresh⟩

end Untouched

/-- A tick writes the clock, the processes and their links. -/
theorem prepare_tick {site : Option CodeAddr} (h : s.prepare fuel .tick = .ok (s₀, site)) :
    Untouched { s with tick := wadd s.tick 1 } s₀ := by
  rw [prepare] at h
  split at h
  · cases h
    exact .refl _
  · obtain ⟨s₁, ht, h⟩ := bind_eq_ok.mp h
    have h₁ := Untouched.tickAccount ht
    rw [eq_fst_of_ok h]
    split
    · exact h₁.preempt
    · exact h₁

/-- The other calls that neither create a process nor use the registers write processes and their links. -/
theorem prepare_untouched {site : Option CodeAddr} (h : s.prepare fuel op = .ok (s₀, site))
    (hcreate : ∀ a, op ≠ .create a) (htick : op ≠ .tick) (hregs : ∀ regs, op ≠ .compute regs) : Untouched s s₀ := by
  cases op with
  | create a => exact absurd rfl (hcreate a)
  | tick => exact absurd rfl htick
  | compute regs => exact absurd rfl (hregs regs)
  | add proc =>
      cases h
      exact .schedAdd s proc
  | remove proc =>
      cases h
      exact .schedRemove s proc
  | yield =>
      rw [eq_fst_of_ok h]
      exact (Untouched.refl s).yieldPoint
  | sleep ms =>
      rw [eq_fst_of_ok h]
      split
      · exact .refl s
      · exact ((Untouched.refl s).update _ _).yieldPoint
  | wake proc =>
      cases h
      exact .schedWake s proc
  | exit proc exitCode =>
      rw [eq_fst_of_ok h]
      exact .exitPoint s _ _
  | kill pid sig =>
      rw [eq_fst_of_ok h]
      exact .exitPoint s _ _
  | signal pid signo =>
      rw [eq_fst_of_ok h]
      split
      · exact .refl s
      · split
        · exact .exitPoint s _ _
        · split
          · exact (Untouched.refl s).setState _ _
          · split
            · dsimp only
              split
              · exact (Untouched.refl s).setState _ _
              · exact .refl s
            · exact .refl s

theorem prepare_frame {site : Option CodeAddr} (h : s.prepare fuel op = .ok (s₀, site)) : Frame s op s₀ := by
  cases op with
  | create a =>
      cases h
      unfold procCreate
      dsimp only
      split
      · exact (Untouched.refl s).frame (by simp)
      · split
        · exact (Untouched.refl s).frame (by simp)
        · refine ⟨rfl, ?_, Nat.le_succ _, rfl, fun _ => rfl, fun hne => absurd rfl (hne a)⟩
          exact Function.update_of_ne (freeSlot_ne_zero s).symm _ _
  | tick => exact (prepare_tick h).frame_tick
  | compute regs =>
      cases h
      exact ⟨rfl, rfl, le_rfl, rfl, fun hne => absurd rfl (hne regs), fun _ => rfl⟩
  | add | remove | yield | sleep | wake | exit | kill | signal =>
      exact (prepare_untouched h (by simp) (by simp) (by simp)).frame (by simp)

/-- Only `proc_create` writes the process table. -/
theorem prepare_table {site : Option CodeAddr} (h : s.prepare fuel op = .ok (s₀, site)) (hop : ∀ a, op ≠ .create a) :
    s₀.procTable = s.procTable := by
  cases op with
  | create a => exact absurd rfl (hop a)
  | tick => exact (prepare_tick h).table
  | compute regs =>
      cases h
      rfl
  | add | remove | yield | sleep | wake | exit | kill | signal =>
      exact (prepare_untouched h (by simp) (by simp) (by simp)).table

/-! ### More fuel changes nothing -/

theorem wakeLoop_mono {tick fuel' : ℕ} {procs' : ℕ → Process} (hle : fuel ≤ fuel')
    (h : wakeLoop tick fuel procs cur = .ok procs') : wakeLoop tick fuel' procs cur = .ok procs' := by
  induction fuel generalizing procs cur fuel' with
  | zero => cases h
  | succ fuel ih =>
      obtain ⟨k, rfl⟩ : ∃ k, fuel' = k + 1 := ⟨fuel' - 1, by omega⟩
      rw [wakeLoop] at h ⊢
      split
      · rename_i hc
        rwa [if_pos hc] at h
      · rename_i hc
        rw [if_neg hc] at h
        exact ih (Nat.le_of_succ_le_succ hle) h

theorem pickNext_mono {fuel' : ℕ} (hle : fuel ≤ fuel') (h : s.pickNext fuel = .ok r) :
    s.pickNext fuel' = .ok r := by
  unfold pickNext at h ⊢
  split
  · rename_i hc
    rwa [if_pos hc] at h
  · rename_i hc
    rw [if_neg hc] at h
    obtain ⟨best, hb, h⟩ := bind_eq_ok.mp h
    obtain ⟨xs, hx, hlen, hb⟩ := pickLoop_eq_ok.mp hb
    exact bind_eq_ok.mpr ⟨best, pickLoop_eq_ok.mpr ⟨xs, hx, hlen.trans_le hle, hb⟩, h⟩

theorem prepare_mono {fuel' : ℕ} {r : Sched × Option CodeAddr} (hle : fuel ≤ fuel')
    (h : s.prepare fuel op = .ok r) : s.prepare fuel' op = .ok r := by
  cases op with
  | tick =>
      rw [prepare] at h ⊢
      split
      · rename_i hc
        rwa [if_pos hc] at h
      · rename_i hc
        rw [if_neg hc] at h
        obtain ⟨s₁, ht, h⟩ := bind_eq_ok.mp h
        obtain ⟨procs, hw, ht⟩ := bind_eq_ok.mp ht
        exact bind_eq_ok.mpr ⟨s₁, bind_eq_ok.mpr ⟨procs, wakeLoop_mono hle hw, ht⟩, h⟩
  | create a => exact h
  | add proc => exact h
  | remove proc => exact h
  | yield => exact h
  | sleep ms => exact h
  | wake proc => exact h
  | exit proc exitCode => exact h
  | kill pid sig => exact h
  | signal pid signo => exact h
  | compute regs => exact h

theorem exec_mono {fuel' : ℕ} (hle : fuel ≤ fuel') (h : s.exec fuel op = .ok s') :
    s.exec fuel' op = .ok s' := by
  rw [exec_eq] at h ⊢
  obtain ⟨⟨s₀, site⟩, hp, hf⟩ := bind_eq_ok.mp h
  refine bind_eq_ok.mpr ⟨(s₀, site), prepare_mono hle hp, ?_⟩
  cases site with
  | none => exact hf
  | some addr =>
      obtain ⟨next, hn, hf⟩ := bind_eq_ok.mp hf
      exact bind_eq_ok.mpr ⟨next, pickNext_mono hle hn, hf⟩

/-- A call ends where its first half ends, or switches from there to the process that is picked. -/
theorem exec_outcome (h : s.exec fuel op = .ok s') : ∃ s₀ site, s.prepare fuel op = .ok (s₀, site) ∧
    (s' = s₀ ∨ ∃ addr next, site = some addr ∧ s₀.pickNext fuel = .ok next ∧ next ≠ 0 ∧
      next ≠ s₀.current ∧ s' = s₀.switchTo addr next) := by
  rw [exec_eq] at h
  obtain ⟨⟨s₀, site⟩, hp, hf⟩ := bind_eq_ok.mp h
  refine ⟨s₀, site, hp, ?_⟩
  cases site with
  | none =>
      cases hf
      exact .inl rfl
  | some addr =>
      obtain ⟨next, hn, hf⟩ := bind_eq_ok.mp hf
      have hs := Except.ok.inj hf
      split at hs
      · rename_i hne
        exact .inr ⟨addr, next, rfl, hn, hne.1, hne.2, hs.symm⟩
      · exact .inl hs.symm

/-! ### One step -/

end Sched

open Sched

variable {s s' : Sched} {op : SchedOp}

/-- A step is its first half, or its first half followed by a switch to another process. -/
theorem SchedStep.cases (h : SchedStep s op s') : ∃ fuel s₀ site, s.prepare fuel op = .ok (s₀, site) ∧
    (s' = s₀ ∨ ∃ addr next, site = some addr ∧ s₀.pickNext fuel = .ok next ∧ next ≠ 0 ∧
      next ≠ s₀.current ∧ s' = s₀.switchTo addr next) := by
  obtain ⟨fuel, h⟩ := h
  obtain ⟨s₀, site, hp, hs⟩ := exec_outcome h
  exact ⟨fuel, s₀, site, hp, hs⟩

/-- A call has one outcome. -/
theorem SchedStep.unique {s₁ s₂ : Sched} (h₁ : SchedStep s op s₁) (h₂ : SchedStep s op s₂) : s₁ = s₂ := by
  obtain ⟨f₁, h₁⟩ := h₁
  obtain ⟨f₂, h₂⟩ := h₂
  have h := exec_mono (le_max_left f₁ f₂) h₁
  rw [exec_mono (le_max_right f₁ f₂) h₂] at h
  exact (Except.ok.inj h).symm

/-- The calls `ops` executed in turn, each with the same fuel. -/
def schedRun (fuel : ℕ) (s : Sched) (ops : List SchedOp) : Option Sched :=
  ops.foldlM (fun s op => (s.exec fuel op).toOption) s

theorem Run.of_schedRun {fuel : ℕ} {ops : List SchedOp} (h : schedRun fuel s ops = some s') :
    Run SchedStep s ops s' :=
  Run.of_exec (fun _ _ _ he => ⟨fuel, toOption_eq_some.mp he⟩) h

end HeroOS
