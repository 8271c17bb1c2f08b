import HeroOS.Outcome
import HeroOS.Process

/-! # The scheduler

`kernel/proc/sched.c`, and the calls of `process.c` and `ipc.c` that change the state of a process.
`sched_tick` and `sched_yield` end in the same lines (pick the next process, switch to it), which
is `reschedule` here; nothing is written after the context switch returns, so a call is one step
even where its caller is resumed much later.

The walks over the run queue take fuel, since adding a process twice makes the queue cyclic. -/

namespace HeroOS

open Word

namespace Sched

/-- `SCHED_DEFAULT_QUANTUM` -/
def SCHED_DEFAULT_QUANTUM : ℕ := 10

/-! ### The run queue -/

/-- `sched_add` -/
def schedAdd (s : Sched) (proc : ℕ) : Sched :=
  if proc = 0 ∨ (s.procs proc).state ≠ .READY then s
  else
    let s := (s.setNext proc 0).setPrev proc s.tail
    let s := if s.tail ≠ 0 then s.setNext s.tail proc else { s with head := proc }
    { s with tail := proc, count := (s.count + 1) % 2 ^ 32 }

/-- `sched_remove` -/
def schedRemove (s : Sched) (proc : ℕ) : Sched :=
  if proc = 0 then s
  else
    let p := s.procs proc
    let s := if p.prev ≠ 0 then s.setNext p.prev p.next else { s with head := p.next }
    let p := s.procs proc
    let s := if p.next ≠ 0 then s.setPrev p.next p.prev else { s with tail := p.prev }
    let s := (s.setPrev proc 0).setNext proc 0
    if s.count > 0 then { s with count := s.count - 1 } else s

/-- The loop of `pick_next`: the first process with the lowest `vruntime` among the ready ones
from `cur` on and `best`. -/
def pickLoop (procs : ℕ → Process) : ℕ → ℕ → ℕ → Except Halt ℕ
  | 0, _, _ => .error .outOfFuel
  | fuel + 1, best, cur =>
      if cur = 0 then .ok best
      else
        let better := (procs cur).state = .READY ∧
          (best = 0 ∨ (procs cur).vruntime < (procs best).vruntime)
        pickLoop procs fuel (if better then cur else best) (procs cur).next

/-- `pick_next` -/
def pickNext (fuel : ℕ) (s : Sched) : Except Halt ℕ :=
  if s.head = 0 then .ok (s.procGet 0)
  else do
    let best ← pickLoop s.procs fuel 0 s.head
    .ok (if best ≠ 0 then best else s.procGet 0)

/-- `context_switch(&old->context, &new->context)`, called before `site`. -/
def contextSwitch (s : Sched) (site : CodeAddr) (old new : ℕ) : Sched :=
  let s := s.update old (fun q => { q with context := s.cpu.save q.context site })
  { s with cpu := s.cpu.restore (s.procs new).context }

/-- Make `next` the current process and switch to it. -/
def switchTo (s : Sched) (site : CodeAddr) (next : ℕ) : Sched :=
  (({ s with current := next } : Sched).setState next .RUNNING).contextSwitch site s.current next

/-- The end of `sched_tick` and of `sched_yield`. -/
def reschedule (fuel : ℕ) (s : Sched) (site : CodeAddr) : Except Halt Sched := do
  let next ← s.pickNext fuel
  .ok (if next ≠ 0 ∧ next ≠ s.current then s.switchTo site next else s)

/-! ### Time -/

/-- The loop of `sched_tick` that wakes sleeping processes. -/
def wakeLoop (tick : ℕ) : ℕ → (ℕ → Process) → ℕ → Except Halt (ℕ → Process)
  | 0, _, _ => .error .outOfFuel
  | fuel + 1, procs, p =>
      if p = 0 then .ok procs
      else
        let procs :=
          if (procs p).state = .SLEEPING ∧ tick ≥ (procs p).sleepUntil then
            Function.update procs p { procs p with state := .READY }
          else procs
        wakeLoop tick fuel procs (procs p).next

/-- Charge one tick to a process: `vruntime` grows by `255 - priority + 1` in `uint32_t`. -/
def charge (q : Process) : Process :=
  { q with
    runtimeTicks := wadd q.runtimeTicks 1
    vruntime := (q.vruntime + (255 + (2 ^ 32 - q.priority) + 1)) % 2 ^ 32 }

/-- The part of `sched_tick` before the check of the time slice. -/
def tickAccount (fuel : ℕ) (s : Sched) : Except Halt Sched := do
  let s := s.update s.current charge
  let procs ← wakeLoop s.tick fuel s.procs s.head
  .ok { s with procs := procs }

/-- The time slice of the current process has expired. -/
def sliceExpired (s : Sched) : Prop := (s.procs s.current).runtimeTicks % SCHED_DEFAULT_QUANTUM = 0

instance (s : Sched) : Decidable s.sliceExpired :=
  inferInstanceAs (Decidable (_ = 0))

/-- A preempted process stays runnable. -/
def preempt (s : Sched) : Sched :=
  if (s.procs s.current).state = .RUNNING then s.setState s.current .READY else s

/-- `sched_tick` -/
def schedTick (fuel : ℕ) (s : Sched) : Except Halt Sched :=
  let s := { s with tick := wadd s.tick 1 }
  if s.current = 0 then .ok s
  else do
    let s ← s.tickAccount fuel
    if s.sliceExpired then s.preempt.reschedule fuel .schedTick else .ok s

/-- `sched_yield` -/
def schedYield (fuel : ℕ) (s : Sched) : Except Halt Sched :=
  if s.current = 0 then .ok s
  else (s.setState s.current .READY).reschedule fuel .schedYield

/-- `sched_sleep` -/
def schedSleep (fuel : ℕ) (s : Sched) (ms : ℕ) : Except Halt Sched :=
  if s.current = 0 then .ok s
  else
    (s.update s.current (fun q =>
      { q with state := .SLEEPING, sleepUntil := wadd s.tick ms })).schedYield fuel

/-- `sched_wake` -/
def schedWake (s : Sched) (proc : ℕ) : Sched :=
  if proc = 0 then s
  else if (s.procs proc).state = .SLEEPING ∨ (s.procs proc).state = .BLOCKED then
    s.setState proc .READY
  else s

/-! ### Exit and signals -/

/-- `proc_exit` -/
def procExit (fuel : ℕ) (s : Sched) (proc : ℕ) (exitCode : ℤ) : Except Halt Sched :=
  if proc = 0 then .ok s
  else (s.update proc (fun q => { q with exitCode := exitCode, state := .ZOMBIE })).schedYield fuel

/-- `proc_kill`; the signal is ignored. -/
def procKill (fuel : ℕ) (s : Sched) (pid : ℕ) : Except Halt Sched :=
  if s.procGet pid ≠ 0 then s.procExit fuel (s.procGet pid) (-1) else .ok s

/-- `SIGKILL` -/
def SIGKILL : ℤ := 9
/-- `SIGTERM` -/
def SIGTERM : ℤ := 15
/-- `SIGCONT` -/
def SIGCONT : ℤ := 18
/-- `SIGSTOP` -/
def SIGSTOP : ℤ := 19

/-- `signal_send` -/
def signalSend (fuel : ℕ) (s : Sched) (pid : ℕ) (signo : ℤ) : Except Halt Sched :=
  let proc := s.procGet pid
  if proc = 0 then .ok s
  else if signo = SIGKILL ∨ signo = SIGTERM then s.procExit fuel proc (-signo)
  else if signo = SIGSTOP then .ok (s.setState proc .BLOCKED)
  else if signo = SIGCONT then
    .ok (if (s.procs proc).state = .BLOCKED then s.setState proc .READY else s)
  else .ok s

end Sched
end HeroOS
