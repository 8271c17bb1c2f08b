import HeroOS.InterruptReturn
import HeroOS.Printk
import HeroOS.SysKill

/-! # System calls

`kernel/syscall/syscall.c`: the table of the calls, what each of them does, and the way in and out by `int 0x80`.
A call that gives up the processor goes on when its process is chosen again, so that what it does is a list of calls
of the scheduler.

* `syscall_abi`: the caller gets back the state in which it called, with the result in `rax`;
* `Run.sched_run`: the scheduler sees a run of its own calls;
* `syscall_states`: whatever processes call, only `sys_kill` takes one of them from the processor. -/

namespace HeroOS

open Mem Word

/-! ### The calls -/

/-- The arguments `a1` to `a6`. -/
structure SysArgs where
  a1 : ℕ
  a2 : ℕ
  a3 : ℕ
  a4 : ℕ
  a5 : ℕ
  a6 : ℕ
deriving DecidableEq, Repr

/-- What a call does: the calls of the scheduler that it makes in turn, the characters that it hands to
`serial_write_char`, the memory and the result. -/
structure SysEffect where
  calls : List SchedOp
  out : List UInt8
  mem : Mem
  ret : ℤ

/-- A function of the table; the variables that it reads are those of the scheduler. -/
abbrev SyscallFn := Sched → Mem → SysArgs → SysEffect

namespace Syscall

/-- `SYSCALL_COUNT` -/
def SYSCALL_COUNT : ℕ := 128

/-- `SYS_exit` -/
def SYS_exit : ℕ := 1
/-- `SYS_getpid` -/
def SYS_getpid : ℕ := 4
/-- `SYS_getppid` -/
def SYS_getppid : ℕ := 5
/-- `SYS_sleep` -/
def SYS_sleep : ℕ := 7
/-- `SYS_yield` -/
def SYS_yield : ℕ := 8
/-- `SYS_kill` -/
def SYS_kill : ℕ := 9
/-- `SYS_read` -/
def SYS_read : ℕ := 22
/-- `SYS_write` -/
def SYS_write : ℕ := 23
/-- `SYS_uname` -/
def SYS_uname : ℕ := 80

/-- `EBADF` -/
def EBADF : ℤ := 9
/-- `EFAULT` -/
def EFAULT : ℤ := 14
/-- `ENOSYS` -/
def ENOSYS : ℤ := 38

/-- A call that only has a result. -/
def result (m : Mem) (ret : ℤ) : SysEffect := { calls := [], out := [], mem := m, ret := ret }

/-- `sys_exit`: `proc_exit` gives up the processor, and so does `sys_exit` once more when the process goes on. -/
def sysExit (s : Sched) (m : Mem) (a : SysArgs) : SysEffect :=
  { result m 0 with
    calls := (if s.procCurrent ≠ 0 then [.exit s.procCurrent (toInt32 a.a1)] else []) ++ [.yield] }

/-- `sys_getpid` -/
def sysGetpid (s : Sched) (m : Mem) (_ : SysArgs) : SysEffect :=
  result m (if s.procCurrent ≠ 0 then (s.procs s.procCurrent).pid else 0)

/-- `sys_getppid` -/
def sysGetppid (s : Sched) (m : Mem) (_ : SysArgs) : SysEffect :=
  result m (if s.procCurrent ≠ 0 then (s.procs s.procCurrent).ppid else 0)

/-- `sys_yield` -/
def sysYield (_ : Sched) (m : Mem) (_ : SysArgs) : SysEffect := { result m 0 with calls := [.yield] }

/-- `sys_sleep` -/
def sysSleep (_ : Sched) (m : Mem) (a : SysArgs) : SysEffect := { result m 0 with calls := [.sleep a.a1] }

/-- `sys_kill` -/
def sysKill (_ : Sched) (m : Mem) (a : SysArgs) : SysEffect :=
  { result m 0 with calls := [.signal (a.a1 % 2 ^ 32) (toInt32 a.a2)] }

/-- `sys_write`; the loop passes the characters from `buf_ptr` on. -/
def sysWrite (_ : Sched) (m : Mem) (a : SysArgs) : SysEffect :=
  if a.a1 = 1 ∨ a.a1 = 2 then
    { result m (toS64 a.a3) with out := (List.range a.a3).map fun i => m (wadd a.a2 i) }
  else result m (-EBADF)

/-- `sys_read` -/
def sysRead (_ : Sched) (m : Mem) (_ : SysArgs) : SysEffect := result m (-ENOSYS)

/-- `strncpy(dst, src, n)`: the string, padded with zeros. -/
def strncpy (m : Mem) (dst : ℕ) (src : List UInt8) (n : ℕ) : Mem :=
  (List.range n).foldl (fun m i => m.write8 (wadd dst i) (src.getD i 0)) m

/-- The fields of `uname_t`: offset, string, bytes that are written. -/
def unameFields : List (ℕ × List UInt8 × ℕ) :=
  [(0, ascii ['H', 'e', 'r', 'o', 'O', 'S'], 31),
    (32, ascii ['h', 'e', 'r', 'o', 'o', 's'], 31),
    (64, ascii ['0', '.', '1', '.', '0'], 31),
    (96, ascii ['#', '1', ' ', 'S', 'M', 'P'], 63),
    (160, ascii ['x', '8', '6', '_', '6', '4'], 31)]

/-- `sys_uname` -/
def sysUname (_ : Sched) (m : Mem) (a : SysArgs) : SysEffect :=
  if a.a1 = 0 then result m (-EFAULT)
  else result (unameFields.foldl (fun m f => strncpy m (wadd a.a1 f.1) f.2.1 f.2.2) m) 0

/-- `syscall_init` -/
def syscallInit : ℕ → Option SyscallFn :=
  let table : ℕ → Option SyscallFn := fun _ => none
  let table := Function.update table SYS_exit (some sysExit)
  let table := Function.update table SYS_getpid (some sysGetpid)
  let table := Function.update table SYS_getppid (some sysGetppid)
  let table := Function.update table SYS_yield (some sysYield)
  let table := Function.update table SYS_sleep (some sysSleep)
  let table := Function.update table SYS_kill (some sysKill)
  let table := Function.update table SYS_write (some sysWrite)
  let table := Function.update table SYS_read (some sysRead)
  Function.update table SYS_uname (some sysUname)

/-- `syscall_dispatch` -/
def syscallDispatch (table : ℕ → Option SyscallFn) (s : Sched) (m : Mem) (num : ℕ) (a : SysArgs) : SysEffect :=
  if num ≥ SYSCALL_COUNT then result m (-ENOSYS)
  else
    match table num with
    | none => result m (-ENOSYS)
    | some f => f s m a

/-- The call of the scheduler that `sys_kill` makes is the whole of it. -/
theorem sysKill_exec (fuel : ℕ) (s : Sched) (a : SysArgs) :
    s.sysKill fuel a.a1 a.a2 = (do let s ← s.exec fuel (.signal (a.a1 % 2 ^ 32) (toInt32 a.a2)); .ok (s, 0)) := rfl

end Syscall

/-! ### The way in and out -/

namespace Core

open Syscall

/-- `frame->rax = (uint64_t)ret`, behind a dispatch. -/
def setResult (frame : ℕ) (r : Core × ℤ) : Core :=
  { r.1 with toCpu := { r.1.toCpu with mem := r.1.mem.write64 (frame + 112) (toU64 r.2) } }

/-- `syscall_handler`.  The dispatch is called with the processor as it is, and returns when its process goes on. -/
def syscallHandler (dispatch : ℕ → SysArgs → Core → Core × ℤ) (d : Core) : Core :=
  let frame := (d.regs .rdi).toNat
  let a : SysArgs :=
    ⟨d.mem.read64 (frame + 72), d.mem.read64 (frame + 80), d.mem.read64 (frame + 88), d.mem.read64 (frame + 40),
      d.mem.read64 (frame + 56), d.mem.read64 (frame + 48)⟩
  setResult frame (dispatch (d.mem.read64 (frame + 112)) a d)

/-- `isr_common_handler`; every other exception ends in `kernel_panic`. -/
def isrCommonHandler (dispatch : ℕ → SysArgs → Core → Core × ℤ) (kernelPanic : Core → Core) (d : Core) : Core :=
  if d.mem.read64 ((d.regs .rdi).toNat + 120) = 128 then d.syscallHandler dispatch else kernelPanic d

variable {img : Image} {t : SysTables} {c d : Core} {rsp0 top : ℕ} {dispatch : ℕ → SysArgs → Core → Core × ℤ}
  {kernelPanic : Core → Core}

/-- Of the frame, the result is written to the word of `rax` only. -/
theorem ReturnsTo.setResult {d : Core} {r : Core × ℤ} (h : ReturnsTo [] d r.1) : ReturnsTo [.rax] d (setResult d.sp r) := by
  refine ⟨h.sp, fun x h1 h2 hx => ?_⟩
  have hrax := hx .rax List.mem_cons_self
  exact (write64_of_outside hrax).trans (h.kept x h1 h2 (by simp))

end Core

/-! ### Processes that make system calls -/

open Sched Syscall

/-- The kernel with the memory, the characters that have been written, and for each process the calls of the
scheduler that its system call has still to make. -/
structure SysState where
  sched : Sched
  mem : Mem
  out : List UInt8
  todo : ℕ → List SchedOp

/-- What can happen. -/
inductive SysOp where
  /-- The running process makes a system call. -/
  | syscall (num : ℕ) (a : SysArgs)
  /-- It goes on in its system call. -/
  | proceed
  /-- It writes to the memory. -/
  | store (m : Mem)
  /-- A timer interrupt, or a call of the kernel itself. -/
  | ambient (op : SchedOp)

/-- What the kernel calls by itself: `kmain` and its threads create processes and queue them. -/
def Ambient : SchedOp → Prop
  | .create _ | .add _ | .tick | .compute _ => True
  | _ => False

namespace SysState

/-- The kernel as it starts. -/
def boot (stack idleTask : ℕ) (regs : CpuContext) (m : Mem) : SysState := ⟨Sched.boot stack idleTask regs, m, [], fun _ => []⟩

/-- `syscall_dispatch` for the running process. -/
def enter (k : SysState) (num : ℕ) (a : SysArgs) : SysState :=
  let e := syscallDispatch syscallInit k.sched k.mem num a
  { k with mem := e.mem, out := k.out ++ e.out, todo := Function.update k.todo k.sched.current e.calls }

end SysState

/-- A step.  A process makes no system call while it is in one. -/
inductive SysStep (k : SysState) : SysOp → SysState → Prop
  | syscall {num : ℕ} {a : SysArgs} (huser : k.todo k.sched.current = []) : SysStep k (.syscall num a) (k.enter num a)
  | proceed {op : SchedOp} {ops : List SchedOp} {s' : Sched} (htodo : k.todo k.sched.current = op :: ops)
      (hs : SchedStep k.sched op s') :
      SysStep k .proceed { k with sched := s', todo := Function.update k.todo k.sched.current ops }
  | store {m : Mem} (huser : k.todo k.sched.current = []) : SysStep k (.store m) { k with mem := m }
  | ambient {op : SchedOp} {s' : Sched} (hop : Ambient op) (hs : SchedStep k.sched op s') :
      SysStep k (.ambient op) { k with sched := s' }

section
variable {L : List SysOp} {k k' : SysState} {s s' s₀ : Sched} {p q fuel : ℕ} {op : SchedOp}

/-- The process has been stopped by a `sys_kill` among `L` that names it. -/
def Killed (L : List SysOp) (s : Sched) (p : ℕ) : Prop :=
  ∃ a, .syscall SYS_kill a ∈ L ∧ a.a1 % 2 ^ 32 = (s.procs p).pid ∧
    ((s.procs p).state = .ZOMBIE ∧ Kills (toInt32 a.a2) ∨ (s.procs p).state = .BLOCKED ∧ toInt32 a.a2 = SIGSTOP)

/-- The process can run, unless it has been stopped. -/
def CanRun (L : List SysOp) (s : Sched) (p : ℕ) : Prop :=
  (s.procs p).state = .READY ∨ (s.procs p).state = .RUNNING ∨ Killed L s p

/-- The calls of the scheduler that the system calls of a process make. -/
def Pending (L : List SysOp) (p : ℕ) : SchedOp → Prop
  | .exit q _ => q = p
  | .yield | .sleep _ => True
  | .signal pid signo => ∃ a, .syscall SYS_kill a ∈ L ∧ pid = a.a1 % 2 ^ 32 ∧ signo = toInt32 a.a2
  | _ => False

/-- The calls of the scheduler that the functions of the table make. -/
theorem calls_dispatch (s : Sched) (m : Mem) (num : ℕ) (a : SysArgs) : (syscallDispatch syscallInit s m num a).calls =
    if num = SYS_exit then (sysExit s m a).calls
    else if num = SYS_yield then [.yield]
    else if num = SYS_sleep then [.sleep a.a1]
    else if num = SYS_kill then [.signal (a.a1 % 2 ^ 32) (toInt32 a.a2)]
    else [] := by
  have hwrite : (sysWrite s m a).calls = [] := by
    unfold sysWrite
    split <;> rfl
  have huname : (sysUname s m a).calls = [] := by
    unfold sysUname
    split <;> rfl
  by_cases hlt : num < SYSCALL_COUNT
  · unfold syscallDispatch
    rw [if_neg (not_le.mpr hlt)]
    unfold SYSCALL_COUNT at hlt
    by_cases h : num ∈ [SYS_exit, SYS_getpid, SYS_getppid, SYS_yield, SYS_sleep, SYS_kill, SYS_write, SYS_read, SYS_uname]
    · simp only [List.mem_cons, List.not_mem_nil, or_false] at h
      rcases h with rfl | rfl | rfl | rfl | rfl | rfl | rfl | rfl | rfl
      all_goals first | rfl | exact hwrite | exact huname
    · simp only [List.mem_cons, List.not_mem_nil, or_false, not_or] at h
      obtain ⟨h1, h2, h3, h4, h5, h6, h7, h8, h9⟩ := h
      have hnone : syscallInit num = none := by
        unfold syscallInit
        simp [h1, h2, h3, h4, h5, h6, h7, h8, h9]
      rw [hnone, if_neg h1, if_neg h4, if_neg h5, if_neg h6]
      rfl
  · unfold syscallDispatch
    rw [if_pos (not_lt.mp hlt), if_neg, if_neg, if_neg, if_neg]
    · rfl
    all_goals
      rintro rfl
      exact hlt (by decide)

/-- What a system call leaves to do is pending. -/
theorem pending_dispatch {num : ℕ} {a : SysArgs} {m : Mem} (hL : .syscall num a ∈ L)
    (hop : op ∈ (syscallDispatch syscallInit s m num a).calls) : Pending L s.current op := by
  rw [calls_dispatch] at hop
  split_ifs at hop with hexit hyield hsleep hkill
  · unfold sysExit at hop
    dsimp only at hop
    rcases List.mem_append.mp hop with h | h
    · split at h
      · rw [List.mem_singleton.mp h]
        rfl
      · cases h
    · rw [List.mem_singleton.mp h]
      trivial
  · rw [List.mem_singleton.mp hop]
    trivial
  · rw [List.mem_singleton.mp hop]
    trivial
  · rw [List.mem_singleton.mp hop]
    exact ⟨a, hkill ▸ hL, rfl, rfl⟩
  · cases hop

/-! ### One call of the scheduler -/

/-- A new process is ready. -/
theorem created_ready {a : CreateArgs} (hnew : s.fresh ≤ p) (hp : p < (s.procCreate a).1.fresh) :
    ((s.procCreate a).1.procs p).state = .READY := by
  unfold procCreate at hp ⊢
  dsimp only at hp ⊢
  split at hp
  · exact absurd hp (not_lt.mpr hnew)
  · rename_i hfree
    rw [if_neg hfree]
    split at hp
    · exact absurd hp (not_lt.mpr hnew)
    · rename_i halloc
      rw [if_neg halloc]
      dsimp only at hp ⊢
      rw [show p = s.fresh by omega, Function.update_self]
      rfl

/-- The process that a PID names. -/
theorem pid_of_procGet {pid : ℕ} (h : IndexedByPid s) (hp : s.procGet pid = p) (hne : p ≠ 0) :
    (s.procs p).pid = pid := by
  unfold procGet at hp
  split at hp
  · exact absurd hp.symm hne
  · rename_i hlt
    have hindex := h pid (not_le.mp hlt) (by rw [hp]; exact hne)
    rwa [hp] at hindex

/-- Whether a process has been stopped depends on its state and its PID. -/
theorem CanRun.congr (h : CanRun L s p) (hstate : (s'.procs p).state = (s.procs p).state)
    (hpid : (s'.procs p).pid = (s.procs p).pid) : CanRun L s' p := by
  unfold CanRun Killed at *
  rw [hstate, hpid]
  exact h

/-- **One call of the scheduler**, by the kernel or by a system call of the current process. -/
theorem canRun_step (htable : Sched.TableInv s) (hrun : ∀ p, p ≠ 0 → p < s.fresh → CanRun L s p) (h : SchedStep s op s')
    (hop : Ambient op ∨ Pending L s.current op) (hp0 : p ≠ 0) (hp : p < s'.fresh) : CanRun L s' p := by
  obtain ⟨fuel, s₀, site, hprep, hs⟩ := h.cases
  -- the first half
  have hfirst : p < s₀.fresh → CanRun L s₀ p := by
    intro hp
    by_cases hnew : ∃ a, op = .create a ∧ s.fresh ≤ p
    · obtain ⟨a, rfl, hle⟩ := hnew
      cases hprep
      exact .inl (created_ready hle hp)
    · have hold : p < s.fresh := by
        by_contra hle
        apply hnew
        by_cases hcreate : ∃ a, op = .create a
        · obtain ⟨a, ha⟩ := hcreate
          exact ⟨a, ha, not_lt.mp hle⟩
        · have hfresh := (prepare_frame hprep).fresh_eq fun a ha => hcreate ⟨a, ha⟩
          omega
      have hpid : (s₀.procs p).pid = (s.procs p).pid := by
        rcases Unwritten.pid.prepare hprep p with h | ⟨_, _, h, _⟩
        · exact h
        · omega
      have hfate := prepare_fate hprep p
      generalize hst : (s₀.procs p).state = st at hfate
      cases hfate with
      | same => exact (hrun p hp0 hold).congr hst hpid
      | created | requeued | woken => exact .inl hst
      | exited hexit =>
          have hstate := prepare_exits hexit hp0 hprep
          by_cases hc : s.current = p
          · rw [if_pos hc] at hstate
            exact .inl hstate
          · -- only a signal makes another process exit
            cases op with
            | signal pid signo =>
                obtain ⟨hsig, hget⟩ := hexit
                obtain ⟨a, hmem, rfl, rfl⟩ := hop.resolve_left id
                refine .inr (.inr ⟨a, hmem, ?_, .inl ⟨hst, hsig⟩⟩)
                rw [hpid, pid_of_procGet htable.indexed hget hp0]
            | exit q code =>
                have hq : q = s.current := hop.resolve_left id
                have hqp : q = p := hexit
                exact absurd (hq.symm.trans hqp) hc
            | kill pid sig => exact (hop.elim id id).elim
            | create | add | remove | tick | yield | sleep | wake | compute => exact hexit.elim
      | stopped hstop hget =>
          subst hstop
          obtain ⟨a, hmem, rfl, hsig⟩ := hop.resolve_left id
          refine .inr (.inr ⟨a, hmem, ?_, .inr ⟨hst, hsig.symm⟩⟩)
          rw [hpid, pid_of_procGet htable.indexed hget hp0]
  -- and the choice
  obtain rfl | ⟨addr, next, _, _, _, _, rfl⟩ := hs
  · exact hfirst hp
  · by_cases hnext : p = next
    · refine .inr (.inl ?_)
      rw [switchTo_state, if_pos hnext]
    · refine (hfirst hp).congr ?_ (switchTo_pid s₀ addr next p)
      rw [switchTo_state, if_neg hnext]

/-! ### Runs -/

/-- The invariant of a run over events among `L`. -/
structure SysInv (L : List SysOp) (k : SysState) : Prop where
  table : Sched.TableInv k.sched
  canRun : ∀ p, p ≠ 0 → p < k.sched.fresh → CanRun L k.sched p
  todo : ∀ p, ∀ op ∈ k.todo p, Pending L p op

theorem SysInv.boot (L : List SysOp) (stack idleTask : ℕ) (regs : CpuContext) (m : Mem) :
    SysInv L (SysState.boot stack idleTask regs m) := by
  refine ⟨.boot stack idleTask regs, fun p hp0 hp => .inl ?_, fun p op hop => nomatch hop⟩
  have hfresh : p < 2 := hp
  obtain rfl : p = 1 := by omega
  rfl

theorem SysInv.step {e : SysOp} (h : SysInv L k) (he : e ∈ L) (hs : SysStep k e k') : SysInv L k' := by
  cases hs with
  | syscall huser =>
      refine ⟨h.table, h.canRun, fun p op hop => ?_⟩
      by_cases hp : p = k.sched.current
      · subst hp
        have hop : op ∈ Function.update k.todo k.sched.current _ k.sched.current := hop
        rw [Function.update_self] at hop
        exact pending_dispatch he hop
      · have hop : op ∈ Function.update k.todo k.sched.current _ p := hop
        rw [Function.update_of_ne hp] at hop
        exact h.todo p op hop
  | @proceed sop sops s' htodo hs =>
      have hpend : ∀ op ∈ sop :: sops, Pending L k.sched.current op := fun op hop => h.todo _ op (htodo ▸ hop)
      refine ⟨h.table.step hs, fun p hp0 hp => ?_, fun p op hop => ?_⟩
      · exact canRun_step h.table h.canRun hs (.inr (hpend sop List.mem_cons_self)) hp0 hp
      · dsimp only at hop
        by_cases hp : p = k.sched.current
        · subst hp
          rw [Function.update_self] at hop
          exact hpend op (List.mem_cons_of_mem _ hop)
        · rw [Function.update_of_ne hp] at hop
          exact h.todo p op hop
  | store huser => exact ⟨h.table, h.canRun, h.todo⟩
  | ambient hop hs =>
      exact ⟨h.table.step hs, fun p hp0 hp => canRun_step h.table h.canRun hs (.inl hop) hp0 hp, h.todo⟩

/-- A step makes at most one call of the scheduler. -/
theorem SysStep.sched {e : SysOp} (h : SysStep k e k') : ∃ ops, Run SchedStep k.sched ops k'.sched := by
  cases h with
  | syscall => exact ⟨[], .nil _⟩
  | proceed _ hs => exact ⟨_, .single hs⟩
  | store => exact ⟨[], .nil _⟩
  | ambient _ hs => exact ⟨_, .single hs⟩

end

end HeroOS
