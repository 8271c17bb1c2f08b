import HeroOS.ProcessStates

/-! # Signals to an exited process

`signal_send` does not look at the state of its target: `SIGSTOP` blocks a process that has exited,
after which `SIGCONT` or `sched_wake` makes it ready, and `SIGKILL` writes a second exit code.  The
switch that follows `proc_exit` falls back to the process with PID 0 when no queued process is
ready, also after that process has exited.

* `exit_signal_iff`: a `SIGKILL` or `SIGTERM` keeps an exited process as it is exactly when it does
  not write another exit code and the switch does not fall back to it;
* `zombie_kept_iff`: in a run of signals and wake-ups an exited process stays as it is exactly when
  no call does one of these things. -/

namespace HeroOS

open Sched

variable {s s' s₀ : Sched} {op : SchedOp} {p q pid fuel : ℕ} {signo code : ℤ}

namespace Sched

/-- A call of `signal_send` or `sched_wake`. -/
def SignalsOrWakes : SchedOp → Prop
  | .signal _ _ => True
  | .wake _ => True
  | _ => False

/-- The signals for which `signal_send` calls `proc_exit`. -/
def Kills (signo : ℤ) : Prop := signo = SIGKILL ∨ signo = SIGTERM

/-- Once `q` has exited, a queued process is ready: the current one, or one that was ready before. -/
def OthersReady (s : Sched) (q : ℕ) : Prop :=
  ∃ xs, s.Queue xs ∧ ∃ x ∈ xs, x = s.current ∨ x ≠ q ∧ (s.procs x).state = .READY

/-- The call does not stop the exited process `p`, writes no other exit code, and chooses no next
process for which it would fall back to `p`. -/
def SparesZombie (p : ℕ) (s : Sched) : SchedOp → Prop
  | .signal pid signo =>
      (s.procGet pid = p → signo ≠ SIGSTOP ∧ (Kills signo → (s.procs p).exitCode = -signo)) ∧
      (p = s.procTable 0 → Kills signo → s.procGet pid ≠ 0 → s.current ≠ 0 → s.OthersReady (s.procGet pid))
  | _ => True

/-- The process `p` is a zombie as before. -/
def StaysZombie (p : ℕ) (s s' : Sched) : Prop :=
  (s'.procs p).state = .ZOMBIE ∧ (s'.procs p).exitCode = (s.procs p).exitCode

/-- A signal or wake-up after which `p` is a zombie with the exit code it had. -/
def KeepsZombieStep (p : ℕ) (s : Sched) (op : SchedOp) (s' : Sched) : Prop :=
  SchedStep s op s' ∧ SignalsOrWakes op ∧ StaysZombie p s s'

/-- A signal or wake-up that meets the condition. -/
def SparesZombieStep (p : ℕ) (s : Sched) (op : SchedOp) (s' : Sched) : Prop :=
  SchedStep s op s' ∧ SignalsOrWakes op ∧ SparesZombie p s op

/-! ### Exit -/

theorem yieldPoint_procs (h : p ≠ s.current) : s.yieldPoint.1.procs p = s.procs p := by
  unfold yieldPoint setState
  split
  · rfl
  · simp [h]

/-- `proc_exit` up to the choice of the next process, for a process that is not the current one. -/
theorem exitPoint_procs (hq : q ≠ 0) (h : p ≠ s.current) : (s.exitPoint q code).1.procs p =
    if p = q then { s.procs p with exitCode := code, state := .ZOMBIE } else s.procs p := by
  unfold exitPoint
  rw [if_neg hq]
  refine Eq.trans (yieldPoint_procs ?_) ?_
  · exact h
  by_cases hp : p = q
  · subst hp
    simp
  · simp [hp]

/-- Which processes are ready when the next process is chosen. -/
theorem exitPoint_ready_iff {x : ℕ} (hq : q ≠ 0) (hc : s.current ≠ 0) :
    ((s.exitPoint q code).1.procs x).state = .READY ↔ x = s.current ∨ x ≠ q ∧ (s.procs x).state = .READY := by
  by_cases hx : x = s.current
  · unfold exitPoint
    rw [if_neg hq, yieldPoint_state]
    simp [hx, hc]
  · rw [exitPoint_procs hq hx]
    by_cases hxq : x = q
    · subst hxq
      simp [hx]
    · simp [hx, hxq]

theorem exitPoint_queue {xs : List ℕ} : (s.exitPoint q code).1.Queue xs ↔ s.Queue xs := by
  have hnext : ∀ x, ((s.exitPoint q code).1.procs x).next = (s.procs x).next := by
    intro x
    have hexit := update_field Process.next s q x (fun q => { q with exitCode := code, state := .ZOMBIE })
      (fun _ => rfl)
    unfold exitPoint
    split
    · rfl
    · unfold yieldPoint
      split
      · exact hexit
      · refine Eq.trans ?_ hexit
        exact update_field Process.next _ _ x (fun q => { q with state := .READY }) (fun _ => rfl)
  have hhead : (s.exitPoint q code).1.head = s.head := by
    unfold exitPoint yieldPoint
    split
    · rfl
    · split <;> rfl
  unfold Queue
  rw [hhead]
  constructor
  · intro h
    exact h.congr (fun x _ => (hnext x).symm)
  · intro h
    exact h.congr (fun x _ => hnext x)

/-- The choice falls back to a process that is not ready exactly when it is the one with PID 0 and
no queued process is ready. -/
theorem fallback_iff {next : ℕ} (hn : s.pickNext fuel = .ok next) (hp : (s.procs p).state ≠ .READY) :
    next = p ↔ p = s.procTable 0 ∧ ¬ ∃ xs, s.Queue xs ∧ ∃ x ∈ xs, (s.procs x).state = .READY := by
  obtain ⟨xs, hq, ⟨hmem, hs, _⟩ | ⟨hnone, hi⟩⟩ := pickNext_spec hn
  · constructor
    · rintro rfl
      exact absurd hs hp
    · rintro ⟨_, hno⟩
      exact absurd ⟨xs, hq, next, hmem, hs⟩ hno
  · have hi : next = s.procTable 0 := hi
    constructor
    · intro h
      refine ⟨h.symm.trans hi, ?_⟩
      rintro ⟨ys, hq', x, hx, hs⟩
      rw [hq'.unique hq] at hx
      exact hnone x hx hs
    · rintro ⟨h, _⟩
      exact hi.trans h.symm

theorem contextSwitch_exitCode (s : Sched) (site : CodeAddr) (old new p : ℕ) :
    ((s.contextSwitch site old new).procs p).exitCode = (s.procs p).exitCode :=
  update_field Process.exitCode s old p (fun q => { q with context := s.cpu.save q.context site }) (fun _ => rfl)

theorem switchTo_exitCode (s : Sched) (site : CodeAddr) (next p : ℕ) :
    ((s.switchTo site next).procs p).exitCode = (s.procs p).exitCode := by
  unfold switchTo
  rw [contextSwitch_exitCode]
  exact update_field Process.exitCode _ next p (fun q => { q with state := .RUNNING }) (fun _ => rfl)

/-- The choice at the end of a call keeps a zombie exactly when it does not fall back to it. -/
theorem finish_keeps_iff {r : Sched × Option CodeAddr} (hz : (r.1.procs p).state = .ZOMBIE) (hp : p ≠ 0)
    (hc : r.1.current ≠ p) (h : finish fuel r = .ok s') :
    (s'.procs p).exitCode = (r.1.procs p).exitCode ∧ ((s'.procs p).state = .ZOMBIE ↔
      (p = r.1.procTable 0 → r.2.isSome → ∃ xs, r.1.Queue xs ∧ ∃ x ∈ xs, (r.1.procs x).state = .READY)) := by
  obtain ⟨s₀, site⟩ := r
  dsimp only at *
  cases site with
  | none =>
      cases h
      exact ⟨rfl, by simp [hz]⟩
  | some addr =>
      obtain ⟨next, hn, h⟩ := bind_eq_ok.mp h
      have hback := fallback_iff (p := p) hn (by rw [hz]; decide)
      cases h
      by_cases hnext : next = p
      · subst hnext
        obtain ⟨hidle, hno⟩ := hback.mp rfl
        rw [if_pos ⟨hp, hc.symm⟩, switchTo_exitCode, switchTo_state]
        simp [hidle, hno]
      · have hready : p = s₀.procTable 0 → ∃ xs, s₀.Queue xs ∧ ∃ x ∈ xs, (s₀.procs x).state = .READY := by
          intro hidle
          by_contra hno
          exact hnext (hback.mpr ⟨hidle, hno⟩)
        split
        · rw [switchTo_exitCode, switchTo_state, if_neg (Ne.symm hnext)]
          exact ⟨rfl, fun _ hidle _ => hready hidle, fun _ => hz⟩
        · exact ⟨rfl, fun _ hidle _ => hready hidle, fun _ => hz⟩

/-- The choice after `proc_exit` is made when there is a current process. -/
theorem exitPoint_site (hq : q ≠ 0) : (s.exitPoint q code).2.isSome = true ↔ s.current ≠ 0 := by
  unfold exitPoint
  rw [if_neg hq]
  unfold yieldPoint
  by_cases hc : s.current = 0 <;> simp [hc]

/-- **`SIGKILL` and `SIGTERM`** after a process has exited. -/
theorem exit_signal_iff (hz : (s.procs p).state = .ZOMBIE) (hp : p ≠ 0) (hc : s.current ≠ p)
    (hq : s.procGet pid ≠ 0) (hk : Kills signo) (h : SchedStep s (.signal pid signo) s') :
    StaysZombie p s s' ↔ (s.procGet pid = p → (s.procs p).exitCode = -signo) ∧
      (p = s.procTable 0 → s.current ≠ 0 → s.OthersReady (s.procGet pid)) := by
  obtain ⟨fuel, h⟩ := h
  have hkill : signo = SIGKILL ∨ signo = SIGTERM := hk
  rw [exec_eq, prepare, if_neg hq, if_pos hkill] at h
  have hprocs : ((s.exitPoint (s.procGet pid) (-signo)).1.procs p) = _ := exitPoint_procs hq hc.symm
  have hz₀ : ((s.exitPoint (s.procGet pid) (-signo)).1.procs p).state = .ZOMBIE := by
    rw [hprocs]
    split
    · rfl
    · exact hz
  have hcode : ((s.exitPoint (s.procGet pid) (-signo)).1.procs p).exitCode = (s.procs p).exitCode ↔
      (s.procGet pid = p → (s.procs p).exitCode = -signo) := by
    rw [hprocs]
    by_cases hpq : p = s.procGet pid
    · simp [hpq, eq_comm]
    · simp [hpq, Ne.symm hpq]
  have hkeep := Untouched.exitPoint s (s.procGet pid) (-signo)
  have h : finish fuel (s.exitPoint (s.procGet pid) (-signo)) = .ok s' := h
  obtain ⟨hexit, hstate⟩ := finish_keeps_iff hz₀ hp (by rwa [hkeep.current]) h
  unfold StaysZombie
  rw [hexit, hcode, hstate, hkeep.table, exitPoint_site hq, and_comm]
  refine and_congr_right fun _ => forall_congr' fun _ => forall_congr' fun hcurrent => ?_
  unfold OthersReady
  simp only [exitPoint_queue, exitPoint_ready_iff hq hcurrent]

/-- A process that is written its state is a zombie no more. -/
theorem StaysZombie.setState_iff {st : ProcState} (hz : (s.procs p).state = .ZOMBIE) (q : ℕ) (hst : st ≠ .ZOMBIE) :
    StaysZombie p s (s.setState q st) ↔ p ≠ q := by
  have hcode : ((s.setState q st).procs p).exitCode = (s.procs p).exitCode :=
    update_field Process.exitCode s q p (fun q => { q with state := st }) (fun _ => rfl)
  unfold StaysZombie
  rw [setState_state, hcode]
  by_cases hpq : p = q
  · simp [hpq, hst]
  · simp [hpq, hz]

/-- A process that is woken or continued is no zombie. -/
theorem StaysZombie.ready {st : ProcState} (hz : (s.procs p).state = .ZOMBIE) (hq : (s.procs q).state = st)
    (hst : st ≠ .ZOMBIE) : StaysZombie p s (s.setState q .READY) := by
  rw [StaysZombie.setState_iff hz q (by simp)]
  rintro rfl
  exact hst (hq.symm.trans hz)

/-- **The signals that do not kill**: only a stop signal for the process itself does harm. -/
theorem quiet_signal_iff (hz : (s.procs p).state = .ZOMBIE) (hq : s.procGet pid ≠ 0) (hk : ¬ Kills signo)
    (h : SchedStep s (.signal pid signo) s') :
    StaysZombie p s s' ↔ (s.procGet pid = p → signo ≠ SIGSTOP) := by
  obtain ⟨fuel, h⟩ := h
  have hkill : ¬ (signo = SIGKILL ∨ signo = SIGTERM) := hk
  rw [exec, signalSend, if_neg hq, if_neg hkill] at h
  split at h
  · rename_i hstop
    cases h
    rw [StaysZombie.setState_iff hz _ (by simp)]
    exact ⟨fun hne hpid => absurd hpid.symm hne, fun hne hpid => hne hpid.symm hstop⟩
  · rename_i hstop
    refine ⟨fun _ _ => hstop, fun _ => ?_⟩
    split at h
    · cases h
      split
      · rename_i hb
        exact StaysZombie.ready hz hb (by simp)
      · exact ⟨hz, rfl⟩
    · cases h
      exact ⟨hz, rfl⟩

theorem staysZombie_wake (hz : (s.procs p).state = .ZOMBIE) (q : ℕ) : StaysZombie p s (s.schedWake q) := by
  unfold schedWake
  split
  · exact ⟨hz, rfl⟩
  · split
    · rename_i hs
      obtain hs | hs := hs
      · exact StaysZombie.ready hz hs (by simp)
      · exact StaysZombie.ready hz hs (by simp)
    · exact ⟨hz, rfl⟩

/-! ### One call -/

/-- **One signal or wake-up** keeps an exited process exactly when it meets the condition. -/
theorem staysZombie_iff (hz : (s.procs p).state = .ZOMBIE) (hp : p ≠ 0) (hc : s.current ≠ p)
    (hop : SignalsOrWakes op) (h : SchedStep s op s') : StaysZombie p s s' ↔ SparesZombie p s op := by
  cases op with
  | signal pid signo =>
      by_cases hq : s.procGet pid = 0
      · obtain ⟨fuel, h⟩ := h
        rw [exec, signalSend, if_pos hq] at h
        cases h
        refine ⟨fun _ => ⟨fun hpid => ?_, fun _ _ hne => absurd hq hne⟩, fun _ => ⟨hz, rfl⟩⟩
        exact absurd (hpid.symm.trans hq) hp
      · by_cases hk : Kills signo
        · rw [exit_signal_iff hz hp hc hq hk h]
          have hstop : signo ≠ SIGSTOP := by
            rintro rfl
            exact absurd hk (by unfold Kills; decide)
          constructor
          · intro hkeep
            exact ⟨fun hpid => ⟨hstop, fun _ => hkeep.1 hpid⟩, fun hidle _ _ => hkeep.2 hidle⟩
          · intro hspare
            exact ⟨fun hpid => (hspare.1 hpid).2 hk, fun hidle => hspare.2 hidle hk hq⟩
        · rw [quiet_signal_iff hz hq hk h]
          unfold SparesZombie
          simp [hk]
  | wake proc =>
      obtain ⟨fuel, h⟩ := h
      cases h
      exact ⟨fun _ => trivial, fun _ => staysZombie_wake hz proc⟩
  | create | add | remove | tick | yield | sleep | exit | kill | compute => exact hop.elim

/-- A process that a call leaves a zombie has not become the current one. -/
theorem not_current_of_zombie (hc : s.current ≠ p) (h : SchedStep s op s') (hz : (s'.procs p).state = .ZOMBIE) :
    s'.current ≠ p := by
  obtain ⟨fuel, s₀, site, hprep, hs⟩ := h.cases
  obtain rfl | ⟨addr, next, rfl, _, _, _, rfl⟩ := hs
  · rwa [(prepare_frame hprep).current]
  · rw [switchTo_current]
    rintro rfl
    rw [switchTo_state, if_pos rfl] at hz
    cases hz

end Sched

/-! ### Runs -/

/-- **When an exited process stays a zombie.**  Over any sequence of signals and wake-ups with any
arguments, from any state, a process that is a zombie and not current stays a zombie with its exit
code after every call exactly when no call stops it, sends it a `SIGKILL` or `SIGTERM` that writes
another exit code, or, for the process with PID 0, makes another process exit while no queued
process is ready. -/
theorem zombie_kept_iff {ops : List SchedOp} (hp : p ≠ 0) (hz : (s.procs p).state = .ZOMBIE)
    (hc : s.current ≠ p) : Run (KeepsZombieStep p) s ops s' ↔ Run (SparesZombieStep p) s ops s' := by
  apply Run.iff_of_invariant (I := fun s => (s.procs p).state = .ZOMBIE ∧ s.current ≠ p) ?_ ?_ ⟨hz, hc⟩
  · rintro s op s' ⟨hz, hc⟩
    exact and_congr_right fun hstep => and_congr_right fun hop => staysZombie_iff hz hp hc hop hstep
  · rintro s op s' ⟨_, hc⟩ ⟨hstep, _, hk⟩ _
    exact ⟨hk.1, not_current_of_zombie hc hstep hk.1⟩

/-- A thread that has been killed stays a zombie when it is woken and continued. -/
theorem zombie_kept_continued :
    ∃ s s', Run SchedStep (boot 0x80000 0x1000 {})
        [.create (thread 0x2000), .create (thread 0x3000), .add 2, .add 3, .yield, .kill 2 9] s ∧
      Run (SparesZombieStep 3) s [.wake 3, .signal 2 SIGCONT] s' ∧
      Run (KeepsZombieStep 3) s [.wake 3, .signal 2 SIGCONT] s' := by
  have h : (schedRun 8 (boot 0x80000 0x1000 {})
      [.create (thread 0x2000), .create (thread 0x3000), .add 2, .add 3, .yield, .kill 2 9]).any (fun s =>
        decide ((s.procs 3).state = .ZOMBIE ∧ s.current ≠ 3) &&
          (schedRun 8 s [.wake 3, .signal 2 SIGCONT]).isSome) = true := by decide +kernel
  obtain ⟨s, hs, h⟩ := (Option.any_eq_true _ _).mp h
  obtain ⟨h1, h⟩ := Bool.and_eq_true_iff.mp h
  obtain ⟨hz, hc⟩ := of_decide_eq_true h1
  obtain ⟨s', hs'⟩ := Option.isSome_iff_exists.mp h
  have hspare : Run (SparesZombieStep 3) s [.wake 3, .signal 2 SIGCONT] s' := by
    have hcont : ¬ Kills SIGCONT := by
      unfold Kills
      decide
    cases Run.of_schedRun hs' with
    | cons hwake hrest =>
        cases hrest with
        | cons hsignal hnil =>
            cases hnil
            refine .cons ⟨hwake, trivial, trivial⟩ (.single ⟨hsignal, trivial, ?_⟩)
            exact ⟨fun _ => ⟨by decide, fun hk => absurd hk hcont⟩, fun _ hk => absurd hk hcont⟩
  exact ⟨s, s', Run.of_schedRun hs, hspare, (zombie_kept_iff (by norm_num) hz hc).mpr hspare⟩

/-- A thread that has been killed is stopped and continued, and is ready again. -/
theorem exited_process_revived :
    ∃ s s', Run SchedStep (boot 0x80000 0x1000 {})
        [.create (thread 0x2000), .create (thread 0x3000), .add 2, .add 3, .yield, .kill 2 9] s ∧
      (s.procs 3).state = .ZOMBIE ∧ s.current ≠ 3 ∧
      Run SchedStep s [.signal 2 SIGSTOP, .signal 2 SIGCONT] s' ∧ (s'.procs 3).state = .READY := by
  have h : (schedRun 8 (boot 0x80000 0x1000 {})
      [.create (thread 0x2000), .create (thread 0x3000), .add 2, .add 3, .yield, .kill 2 9]).any (fun s =>
        decide ((s.procs 3).state = .ZOMBIE ∧ s.current ≠ 3) &&
          (schedRun 8 s [.signal 2 SIGSTOP, .signal 2 SIGCONT]).any (fun s' =>
            decide ((s'.procs 3).state = .READY))) = true := by decide +kernel
  obtain ⟨s, hs, h⟩ := (Option.any_eq_true _ _).mp h
  obtain ⟨h1, h⟩ := Bool.and_eq_true_iff.mp h
  obtain ⟨hz, hc⟩ := of_decide_eq_true h1
  obtain ⟨s', hs', h⟩ := (Option.any_eq_true _ _).mp h
  exact ⟨s, s', Run.of_schedRun hs, hz, hc, Run.of_schedRun hs', of_decide_eq_true h⟩

end HeroOS
