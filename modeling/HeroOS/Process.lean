import HeroOS.Word

/-! # Processes and the process table

`kernel/proc/process.c` and `process.h`: the process control block, the table of all processes and
their creation.  A `process_t *` is a natural number, with `0` for `NULL`: `idle_proc` is object
`IDLE_PROC`, and every successful `kcalloc` hands out the next number, which is sound because no
process is ever freed.  The name and the descriptor table of a process are only written or printed
and are left out.

The run queue of `sched.c` is part of the same state record, since both files write the fields of
the same processes. -/

namespace HeroOS

/-- `proc_state_t` -/
inductive ProcState where
  | CREATED
  | READY
  | RUNNING
  | BLOCKED
  | SLEEPING
  | ZOMBIE
  | DEAD
deriving DecidableEq, Repr

/-- `PROC_FLAG_KERNEL` -/
def PROC_FLAG_KERNEL : ℕ := 1
/-- `PROC_FLAG_USER` -/
def PROC_FLAG_USER : ℕ := 2
/-- `MAX_PROCESSES` -/
def MAX_PROCESSES : ℕ := 1024
/-- `KERNEL_STACK_SIZE` -/
def KERNEL_STACK_SIZE : ℕ := 16 * 1024

/-- A code address that execution can resume at: the entry of a function, or the instruction
after one of the two calls of `context_switch` in the kernel. -/
inductive CodeAddr where
  | entry (f : ℕ)
  | schedTick
  | schedYield
deriving DecidableEq, Repr

/-- `cpu_context_t` -/
structure CpuContext where
  r15 : ℕ := 0
  r14 : ℕ := 0
  r13 : ℕ := 0
  r12 : ℕ := 0
  r11 : ℕ := 0
  r10 : ℕ := 0
  r9 : ℕ := 0
  r8 : ℕ := 0
  rbp : ℕ := 0
  rdi : ℕ := 0
  rsi : ℕ := 0
  rdx : ℕ := 0
  rcx : ℕ := 0
  rbx : ℕ := 0
  rax : ℕ := 0
  rip : CodeAddr := .entry 0
  rflags : ℕ := 0
  rsp : ℕ := 0
  cs : ℕ := 0
  ss : ℕ := 0
deriving DecidableEq, Repr

/-- The part of `context_switch` that saves: the code and stack selectors of the context are
not written. -/
def CpuContext.save (regs old : CpuContext) (site : CodeAddr) : CpuContext :=
  { regs with rip := site, cs := old.cs, ss := old.ss }

/-- The part of `context_switch` that restores: the selectors of the CPU stay. -/
def CpuContext.restore (regs new : CpuContext) : CpuContext :=
  { new with cs := regs.cs, ss := regs.ss }

/-- `process_t`; the default is the zeroed block that `kcalloc` returns. -/
structure Process where
  pid : ℕ := 0
  ppid : ℕ := 0
  state : ProcState := .CREATED
  flags : ℕ := 0
  context : CpuContext := {}
  addrSpace : ℕ := 0
  kernelStack : ℕ := 0
  kernelStackPhys : ℕ := 0
  kernelStackSize : ℕ := 0
  exitCode : ℤ := 0
  runtimeTicks : ℕ := 0
  sleepUntil : ℕ := 0
  priority : ℕ := 0
  vruntime : ℕ := 0
  next : ℕ := 0
  prev : ℕ := 0
deriving DecidableEq, Repr

/-- The static variables of `process.c` and `sched.c`, the processes and the CPU registers. -/
structure Sched where
  procs : ℕ → Process
  procTable : ℕ → ℕ
  nextPid : ℕ
  /-- `g_runqueue.head` -/
  head : ℕ
  /-- `g_runqueue.tail` -/
  tail : ℕ
  /-- `g_runqueue.count` -/
  count : ℕ
  /-- `g_runqueue.current` -/
  current : ℕ
  /-- `g_runqueue.tick` -/
  tick : ℕ
  /-- The registers of the running process. -/
  cpu : CpuContext
  /-- The object that the next `kcalloc` returns. -/
  fresh : ℕ
  /-- Ghost: the indices at which `proc_table` has been written, the latest first. -/
  tableWrites : List ℕ

/-- `&idle_proc` -/
def IDLE_PROC : ℕ := 1

namespace Sched

/-- `*p = f(*p)` -/
@[simps]
def update (s : Sched) (p : ℕ) (f : Process → Process) : Sched :=
  { s with procs := Function.update s.procs p (f (s.procs p)) }

/-- `p->state = st` -/
def setState (s : Sched) (p : ℕ) (st : ProcState) : Sched :=
  s.update p (fun q => { q with state := st })

/-- `p->next = n` -/
def setNext (s : Sched) (p n : ℕ) : Sched := s.update p (fun q => { q with next := n })

/-- `p->prev = n` -/
def setPrev (s : Sched) (p n : ℕ) : Sched := s.update p (fun q => { q with prev := n })

/-- `proc_get` -/
def procGet (s : Sched) (pid : ℕ) : ℕ := if pid ≥ MAX_PROCESSES then 0 else s.procTable pid

/-- `proc_current` -/
def procCurrent (s : Sched) : ℕ := s.current

/-! ### Creation -/

/-- The idle process as `proc_init` leaves it; `stack` is the result of `pmm_alloc_pages` and
`idleTask` the address of `idle_task`. -/
def idleProc (stack idleTask : ℕ) : Process where
  pid := 0
  ppid := 0
  state := .READY
  flags := PROC_FLAG_KERNEL
  priority := 255
  kernelStackSize := KERNEL_STACK_SIZE
  kernelStackPhys := stack
  kernelStack := stack
  context :=
    { rip := .entry idleTask
      rsp := stack + KERNEL_STACK_SIZE
      cs := 0x08
      ss := 0x10
      rflags := 0x202 }

/-- The zeroed static data of the kernel, over registers `regs`. -/
def powerOn (regs : CpuContext) : Sched where
  procs := fun _ => {}
  procTable := fun _ => 0
  nextPid := 1
  head := 0
  tail := 0
  count := 0
  current := 0
  tick := 0
  cpu := regs
  fresh := IDLE_PROC + 1
  tableWrites := []

/-- `proc_init` -/
def procInit (s : Sched) (stack idleTask : ℕ) : Sched :=
  { s with
    procs := Function.update s.procs IDLE_PROC (idleProc stack idleTask)
    procTable := Function.update (fun _ => 0) 0 IDLE_PROC
    tableWrites := 0 :: s.tableWrites }

/-- `sched_init` -/
def schedInit (s : Sched) : Sched :=
  { s with head := 0, tail := 0, count := 0, tick := 0, current := s.procGet 0 }

/-- `proc_init` and `sched_init`, as the kernel starts. -/
def boot (stack idleTask : ℕ) (regs : CpuContext) : Sched := ((powerOn regs).procInit stack idleTask).schedInit

/-- The arguments of `proc_create`, and what the allocators it calls return. -/
structure CreateArgs where
  entry : ℕ
  flags : ℕ
  priority : ℕ
  /-- `kcalloc` succeeds. -/
  allocated : Bool
  /-- `pmm_alloc_pages(KERNEL_STACK_SIZE / PAGE_SIZE)` -/
  stack : ℕ
  /-- `vmm_create_address_space()` -/
  addrSpace : ℕ
deriving DecidableEq, Repr

/-- The search of `proc_create` for a free slot.  `pid_t` is `uint32_t`, so that the initial
value `-1` is `2 ^ 32 - 1`. -/
def freeSlot (s : Sched) : ℕ :=
  ((List.range' 1 (MAX_PROCESSES - 1)).find? (fun i => s.procTable i = 0)).getD (2 ^ 32 - 1)

/-- The new process that `proc_create` fills in. -/
def newProcess (s : Sched) (pid : ℕ) (a : CreateArgs) : Process where
  pid := pid
  ppid := if s.procCurrent ≠ 0 then (s.procs s.procCurrent).pid else 0
  state := .READY
  flags := a.flags
  priority := a.priority
  kernelStackSize := KERNEL_STACK_SIZE
  kernelStackPhys := a.stack
  kernelStack := a.stack
  addrSpace := a.addrSpace
  context :=
    { rip := .entry a.entry
      rsp := a.stack + KERNEL_STACK_SIZE
      cs := if a.flags &&& PROC_FLAG_KERNEL ≠ 0 then 0x08 else 0x1B
      ss := if a.flags &&& PROC_FLAG_KERNEL ≠ 0 then 0x10 else 0x23
      rflags := 0x202 }

/-- `proc_create`: the new process, or `0`.  An index of the table beyond its end stands for the
memory behind it. -/
def procCreate (s : Sched) (a : CreateArgs) : Sched × ℕ :=
  let pid := s.freeSlot
  if pid < 0 then (s, 0)
  else if !a.allocated then (s, 0)
  else
    ({ s with
        procs := Function.update s.procs s.fresh (s.newProcess pid a)
        procTable := Function.update s.procTable pid s.fresh
        nextPid := (pid + 1) % 2 ^ 32
        fresh := s.fresh + 1
        tableWrites := pid :: s.tableWrites }, s.fresh)

/-- The arguments that `proc_create_kernel_thread` passes on. -/
def kernelThread (entry stack addrSpace : ℕ) (allocated : Bool) : CreateArgs :=
  { entry := entry, flags := PROC_FLAG_KERNEL, priority := 10, allocated := allocated,
    stack := stack, addrSpace := addrSpace }

/-- `proc_create_kernel_thread` -/
def procCreateKernelThread (s : Sched) (entry stack addrSpace : ℕ) (allocated : Bool) : Sched × ℕ :=
  s.procCreate (kernelThread entry stack addrSpace allocated)

end Sched
end HeroOS
