import HeroOS.ExitSignals

/-! # Signals from system calls

`sys_kill` takes two 64-bit numbers and narrows them to the `pid_t` and the `int` of `signal_send`, so that the range
check of `proc_get` sees the low half of the PID and the comparisons of `signal_send` the low half of the signal.

* `indexedByPid_of_run`: in every state of the scheduler, the process in a slot of the table has the slot for its PID;
* `sys_kill_iff`: a call changes no process but the one with the given PID, and only for a signal that has an effect,
  exactly when both numbers fit in 32 bits or the narrowed call changes nothing. -/

namespace HeroOS

open Sched

variable {s s' s₀ : Sched} {op : SchedOp} {p q sig fuel : ℕ} {signo : ℤ}

/-- A `uint64_t` converted to `int`. -/
def toInt32 (n : ℕ) : ℤ := if n % 2 ^ 32 < 2 ^ 31 then (n % 2 ^ 32 : ℕ) else (n % 2 ^ 32 : ℕ) - 2 ^ 32

/-- A signed number keeps its value exactly when it is not cut. -/
theorem eq_toInt32_iff (h0 : 0 ≤ toInt32 sig) : (sig : ℤ) = toInt32 sig ↔ sig < 2 ^ 32 := by
  unfold toInt32 at *
  split_ifs at * <;> omega

namespace Sched

/-- `sys_kill` -/
def sysKill (fuel : ℕ) (s : Sched) (pid sig : ℕ) : Except Halt (Sched × ℤ) := do
  let s ← s.signalSend fuel (pid % 2 ^ 32) (toInt32 sig)
  .ok (s, 0)

/-! ### The process table -/

/-- Every slot is empty or holds the process whose PID it is. -/
def IndexedByPid (s : Sched) : Prop :=
  ∀ i < MAX_PROCESSES, s.procTable i ≠ 0 → (s.procs (s.procTable i)).pid = i

/-- The processes in the table have been created, and the table is indexed by their PIDs. -/
structure TableInv (s : Sched) : Prop where
  indexed : IndexedByPid s
  created : ∀ i < MAX_PROCESSES, s.procTable i < s.fresh

theorem Unwritten.pid : Unwritten Process.pid :=
  ⟨fun _ _ => rfl, fun _ _ => rfl, fun _ _ => rfl, fun _ _ => rfl, fun _ _ => rfl, fun _ => rfl⟩

theorem switchTo_pid (s : Sched) (site : CodeAddr) (next p : ℕ) :
    ((s.switchTo site next).procs p).pid = (s.procs p).pid := by
  have hcontext : ∀ s₁ : Sched, ((s₁.contextSwitch site s.current next).procs p).pid = (s₁.procs p).pid := fun s₁ =>
    update_field Process.pid s₁ _ p (fun q => { q with context := s₁.cpu.save q.context site }) (fun _ => rfl)
  unfold switchTo
  rw [hcontext]
  exact Unwritten.pid.setState _ p next .RUNNING

theorem TableInv.boot (stack idleTask : ℕ) (regs : CpuContext) : TableInv (boot stack idleTask regs) := by
  have htable : ∀ i, (Sched.boot stack idleTask regs).procTable i = if i = 0 then IDLE_PROC else 0 :=
    fun i => Function.update_apply (fun _ => 0) 0 IDLE_PROC i
  constructor
  · intro i _ hne
    rw [htable] at hne ⊢
    split at hne
    · rename_i h0
      rw [if_pos h0, h0]
      rfl
    · exact absurd rfl hne
  · intro i _
    rw [htable]
    split_ifs
    · exact Nat.lt_succ_self _
    · exact Nat.succ_pos _

/-- What keeps the table and the PIDs keeps the invariant. -/
theorem TableInv.congr (h : TableInv s) (htable : s'.procTable = s.procTable) (hfresh : s.fresh ≤ s'.fresh)
    (hpid : ∀ p, (s'.procs p).pid = (s.procs p).pid) : TableInv s' := by
  constructor
  · intro i hi hne
    rw [htable] at hne ⊢
    rw [hpid]
    exact h.indexed i hi hne
  · intro i hi
    rw [htable]
    exact (h.created i hi).trans_le hfresh

/-- A new process is put into the slot of its PID. -/
theorem TableInv.create (h : TableInv s) (a : CreateArgs) : TableInv (s.procCreate a).1 := by
  unfold procCreate
  dsimp only
  split
  · exact h
  · split
    · exact h
    · constructor
      · intro i hi hne
        by_cases hslot : i = s.freeSlot
        · simp [hslot, newProcess]
        · dsimp only at *
          rw [Function.update_of_ne hslot] at hne ⊢
          rw [Function.update_of_ne (h.created i hi).ne]
          exact h.indexed i hi hne
      · intro i hi
        dsimp only
        rw [Function.update_apply]
        split_ifs
        · exact Nat.lt_succ_self _
        · exact (h.created i hi).trans (Nat.lt_succ_self _)

theorem TableInv.prepare {site : Option CodeAddr} (h : TableInv s) (hp : s.prepare fuel op = .ok (s₀, site)) :
    TableInv s₀ := by
  by_cases hop : ∃ a, op = .create a
  · obtain ⟨a, rfl⟩ := hop
    cases hp
    exact h.create a
  · have hop : ∀ a, op ≠ .create a := fun a heq => hop ⟨a, heq⟩
    refine h.congr (prepare_table hp hop) (prepare_frame hp).fresh fun p => ?_
    exact (Unwritten.pid.prepare hp p).resolve_right fun ⟨a, heq, _⟩ => hop a heq

theorem TableInv.step (h : TableInv s) (hs : SchedStep s op s') : TableInv s' := by
  obtain ⟨fuel, s₀, site, hp, rfl | ⟨addr, next, _, _, _, _, rfl⟩⟩ := hs.cases
  · exact h.prepare hp
  · exact (h.prepare hp).congr rfl le_rfl (switchTo_pid s₀ addr next)

/-- **The table is indexed by PIDs** in every state that calls of the scheduler lead to. -/
theorem indexedByPid_of_run {stack idleTask : ℕ} {regs : CpuContext} {ops : List SchedOp}
    (hrun : Run SchedStep (Sched.boot stack idleTask regs) ops s) : IndexedByPid s :=
  (hrun.invariant (I := TableInv) (fun _ _ _ h hs => h.step hs) (.boot stack idleTask regs)).indexed

/-! ### One signal -/

variable {pid : ℕ}

/-- `signal_send` up to the call of `sched_yield` in `proc_exit`, and whether this call is made. -/
def signalPoint (s : Sched) (pid : ℕ) (signo : ℤ) : Sched × Bool :=
  let proc := s.procGet pid
  if proc = 0 then (s, false)
  else if signo = SIGKILL ∨ signo = SIGTERM then
    (s.update proc (fun q => { q with exitCode := -signo, state := .ZOMBIE }), true)
  else if signo = SIGSTOP then (s.setState proc .BLOCKED, false)
  else if signo = SIGCONT then
    (if (s.procs proc).state = .BLOCKED then s.setState proc .READY else s, false)
  else (s, false)

/-- The reschedule that follows an exit. -/
def afterSignal (fuel : ℕ) (r : Sched × Bool) : Except Halt Sched := if r.2 then r.1.schedYield fuel else .ok r.1

theorem signalSend_eq : s.signalSend fuel pid signo = afterSignal fuel (s.signalPoint pid signo) := by
  unfold signalSend signalPoint
  dsimp only
  split
  · rfl
  · rename_i h0
    split
    · exact if_neg h0
    · split
      · rfl
      · split <;> rfl

/-- `sys_kill` up to the call of `sched_yield`. -/
def sysKillPoint (s : Sched) (pid sig : ℕ) : Sched × Bool := s.signalPoint (pid % 2 ^ 32) (toInt32 sig)

theorem sysKill_eq : s.sysKill fuel pid sig = (do let s ← afterSignal fuel (s.sysKillPoint pid sig); .ok (s, 0)) := by
  unfold sysKill sysKillPoint
  rw [signalSend_eq]

/-- The signals that `signal_send` acts on. -/
def ActsOn (signo : ℤ) : Prop := Kills signo ∨ signo = SIGSTOP ∨ signo = SIGCONT

/-- The signal changes the state or the exit code of a process that is there. -/
def Alters (s : Sched) (p : ℕ) (signo : ℤ) : Prop :=
  p ≠ 0 ∧ (Kills signo ∧ ((s.procs p).state ≠ .ZOMBIE ∨ (s.procs p).exitCode ≠ -signo) ∨
    signo = SIGSTOP ∧ (s.procs p).state ≠ .BLOCKED ∨ signo = SIGCONT ∧ (s.procs p).state = .BLOCKED)

theorem Alters.actsOn (h : Alters s p signo) : ActsOn signo := by
  obtain ⟨_, ⟨hk, _⟩ | ⟨hstop, _⟩ | ⟨hcont, _⟩⟩ := h
  · exact .inl hk
  · exact .inr (.inl hstop)
  · exact .inr (.inr hcont)

/-- The process `q` has another state or exit code in `s₁`. -/
def Touched (s s₁ : Sched) (q : ℕ) : Prop :=
  (s₁.procs q).state ≠ (s.procs q).state ∨ (s₁.procs q).exitCode ≠ (s.procs q).exitCode

theorem not_touched (s : Sched) (q : ℕ) : ¬ Touched s s q := by simp [Touched]

theorem touched_setState_iff {st : ProcState} : Touched s (s.setState p st) q ↔ q = p ∧ (s.procs p).state ≠ st := by
  have hcode : ((s.setState p st).procs q).exitCode = (s.procs q).exitCode :=
    update_field Process.exitCode s p q (fun q => { q with state := st }) (fun _ => rfl)
  unfold Touched
  rw [hcode, setState_state]
  by_cases h : q = p
  · simp [h, eq_comm]
  · simp [h]

theorem touched_exit_iff {code : ℤ} :
    Touched s (s.update p (fun q => { q with exitCode := code, state := .ZOMBIE })) q ↔
      q = p ∧ ((s.procs p).state ≠ .ZOMBIE ∨ (s.procs p).exitCode ≠ code) := by
  unfold Touched
  by_cases h : q = p
  · simp [h, eq_comm]
  · simp [h]

theorem alters_kill (hk : Kills signo) :
    Alters s p signo ↔ p ≠ 0 ∧ ((s.procs p).state ≠ .ZOMBIE ∨ (s.procs p).exitCode ≠ -signo) := by
  have hstop : signo ≠ SIGSTOP ∧ signo ≠ SIGCONT := by
    obtain rfl | rfl := hk <;> decide
  simp [Alters, hk, hstop]

theorem alters_stop : Alters s p SIGSTOP ↔ p ≠ 0 ∧ (s.procs p).state ≠ .BLOCKED := by
  simp [Alters, Kills, SIGSTOP, SIGKILL, SIGTERM, SIGCONT]

theorem alters_cont : Alters s p SIGCONT ↔ p ≠ 0 ∧ (s.procs p).state = .BLOCKED := by
  simp [Alters, Kills, SIGSTOP, SIGKILL, SIGTERM, SIGCONT]

/-- **What one signal changes**: the process in the slot, where there is something to change. -/
theorem touched_signalPoint_iff : Touched s (s.signalPoint pid signo).1 q ↔ q = s.procGet pid ∧ Alters s q signo := by
  have hat : ∀ {P : ℕ → Prop}, s.procGet pid ≠ 0 →
      (q = s.procGet pid ∧ P (s.procGet pid) ↔ q = s.procGet pid ∧ q ≠ 0 ∧ P q) := by
    intro P hne
    refine and_congr_right fun hq => ?_
    rw [hq]
    exact (and_iff_right hne).symm
  unfold signalPoint
  dsimp only
  split
  · rename_i h0
    refine iff_of_false (not_touched s q) ?_
    rintro ⟨rfl, hne, _⟩
    exact hne h0
  · rename_i hne
    split
    · rename_i hk
      rw [touched_exit_iff, alters_kill hk]
      exact hat (P := fun p => (s.procs p).state ≠ .ZOMBIE ∨ (s.procs p).exitCode ≠ -signo) hne
    · rename_i hk
      split
      · rename_i hstop
        rw [touched_setState_iff, hstop, alters_stop]
        exact hat (P := fun p => (s.procs p).state ≠ .BLOCKED) hne
      · rename_i hstop
        split
        · rename_i hcont
          rw [hcont, alters_cont, ← hat (P := fun p => (s.procs p).state = .BLOCKED) hne]
          dsimp only
          split
          · rename_i hb
            rw [touched_setState_iff]
            simp [hb]
          · rename_i hb
            exact iff_of_false (not_touched s q) (fun h => hb h.2)
        · rename_i hcont
          refine iff_of_false (not_touched s q) ?_
          rintro ⟨_, h⟩
          obtain h | h | h := h.actsOn
          · exact hk h
          · exact hstop h
          · exact hcont h

/-! ### The system call -/

/-- The state `s₁` differs from `s` in the process that the arguments name, and for signals that have an effect. -/
structure OnlyNamed (s s₁ : Sched) (pid sig : ℕ) : Prop where
  named : ∀ q, Touched s s₁ q → (s.procs q).pid = pid ∧ ActsOn sig
  out_of_range : MAX_PROCESSES ≤ pid ∨ ¬ ActsOn sig → ∀ q, ¬ Touched s s₁ q

theorem actsOn_range (h : ActsOn signo) : 0 ≤ signo ∧ signo < 2 ^ 32 := by
  obtain (rfl | rfl) | rfl | rfl := h <;> decide

/-- **When `sys_kill` changes only what its arguments name.** -/
theorem sys_kill_iff (h : IndexedByPid s) (pid sig : ℕ) :
    (∀ fuel, s.sysKill fuel pid sig = (do let s ← afterSignal fuel (s.sysKillPoint pid sig); .ok (s, 0))) ∧
    (OnlyNamed s (s.sysKillPoint pid sig).1 pid sig ↔
      (Alters s (s.procGet (pid % 2 ^ 32)) (toInt32 sig) → pid < 2 ^ 32 ∧ sig < 2 ^ 32)) := by
  refine ⟨fun fuel => sysKill_eq, ?_⟩
  -- the process that is altered has the narrowed PID
  have hpid : s.procGet (pid % 2 ^ 32) ≠ 0 → pid % 2 ^ 32 < MAX_PROCESSES ∧
      (s.procs (s.procGet (pid % 2 ^ 32))).pid = pid % 2 ^ 32 := by
    intro hne
    unfold procGet at *
    split at hne
    · exact absurd rfl hne
    · rename_i hlt
      rw [if_neg hlt]
      exact ⟨not_le.mp hlt, h _ (not_le.mp hlt) hne⟩
  constructor
  · intro hnamed halter
    obtain ⟨_, hp⟩ := hpid halter.1
    obtain ⟨hq, hsig⟩ := hnamed.named _ (touched_signalPoint_iff.mpr ⟨rfl, halter⟩)
    have hlt := (actsOn_range hsig).2
    exact ⟨by omega, by exact_mod_cast hlt⟩
  · intro hfit
    have hnamed : ∀ q, Touched s (s.sysKillPoint pid sig).1 q →
        (pid < MAX_PROCESSES ∧ (s.procs q).pid = pid) ∧ ActsOn sig := by
      intro q hq
      obtain ⟨rfl, halter⟩ := touched_signalPoint_iff.mp hq
      obtain ⟨hpidlt, hsiglt⟩ := hfit halter
      obtain ⟨hmax, hp⟩ := hpid halter.1
      rw [Nat.mod_eq_of_lt hpidlt] at hmax hp ⊢
      refine ⟨⟨hmax, hp⟩, ?_⟩
      rw [(eq_toInt32_iff (actsOn_range halter.actsOn).1).mpr hsiglt]
      exact halter.actsOn
    refine ⟨fun q hq => ⟨(hnamed q hq).1.2, (hnamed q hq).2⟩, fun hout q hq => ?_⟩
    obtain ⟨⟨hmax, _⟩, hacts⟩ := hnamed q hq
    obtain hout | hout := hout
    · exact absurd hmax (not_lt.mpr hout)
    · exact hout hacts

/-- The kernel with one thread, which has PID 1. -/
def oneThread : Sched := ((boot 0x80000 0x1000 {}).procCreate (thread 0x2000)).1

theorem indexedByPid_oneThread : IndexedByPid oneThread := by
  have hstep : SchedStep (boot 0x80000 0x1000 {}) (.create (thread 0x2000)) oneThread := ⟨0, rfl⟩
  exact indexedByPid_of_run (.single hstep)

/-- `SIGKILL` to PID 1. -/
theorem sys_kill_one : OnlyNamed oneThread (oneThread.sysKillPoint 1 9).1 1 9 :=
  (sys_kill_iff indexedByPid_oneThread 1 9).2.mpr fun _ => ⟨by decide, by decide⟩

/-- `SIGKILL` to the number `2 ^ 32 + 1` makes the thread with PID 1 exit. -/
theorem sys_kill_narrowed : ¬ ∀ (s : Sched) (pid sig : ℕ), IndexedByPid s → pid < 2 ^ 64 → sig < 2 ^ 64 →
    OnlyNamed s (s.sysKillPoint pid sig).1 pid sig := by
  intro hall
  have hpid : (oneThread.procs 2).pid = 1 := by decide +kernel
  have htouched : Touched oneThread (oneThread.sysKillPoint (2 ^ 32 + 1) 9).1 2 := by
    unfold Touched
    decide +kernel
  have h := ((hall oneThread (2 ^ 32 + 1) 9 indexedByPid_oneThread (by decide) (by decide)).named 2 htouched).1
  rw [hpid] at h
  cases h

end Sched

end HeroOS
