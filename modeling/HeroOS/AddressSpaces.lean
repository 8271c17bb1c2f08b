import HeroOS.SchedRuns

/-! # Privilege levels and address spaces of processes

`proc_create` gives a process the code and stack selectors of its privilege level and an address
space of its own.  `context_switch` loads neither the saved selectors nor `CR3`, and
`vmm_switch_address_space` has no caller, so that a process executes with the selectors and the page
tables that the CPU had before the switch:

* `saved_selectors`: the saved selectors of a process are always those of its flags;
* `runs_as_itself_iff`: in a run every process that is switched to executes with its own selectors
  and page tables exactly when the CPU has them before each switch;
* `privilege_kept`: as long as no process loads them itself, every process executes with the
  selectors and the page tables of the boot code. -/

namespace HeroOS

open Word Sched

/-- The scheduler, the page-table root of the CPU, and the field `pml4_phys` of each address
space. -/
structure Kernel where
  sched : Sched
  cr3 : ℕ
  pml4Phys : ℕ → ℕ

/-- Calls of the scheduler, and code that loads `CR3` or writes an address space. -/
inductive KernelOp where
  | call (op : SchedOp)
  | loadCr3 (cr3 : ℕ)
  | setPml4 (addrSpace pml4Phys : ℕ)

/-- One step. -/
inductive KernelStep : Kernel → KernelOp → Kernel → Prop
  | call {k : Kernel} {op : SchedOp} {s : Sched} (h : SchedStep k.sched op s) : KernelStep k (.call op) { k with sched := s }
  | loadCr3 {k : Kernel} (cr3 : ℕ) : KernelStep k (.loadCr3 cr3) { k with cr3 := cr3 }
  | setPml4 {k : Kernel} (addrSpace pml4Phys : ℕ) :
      KernelStep k (.setPml4 addrSpace pml4Phys) { k with pml4Phys := Function.update k.pml4Phys addrSpace pml4Phys }

namespace Kernel

/-- The kernel as it starts. -/
def boot (stack idleTask : ℕ) (regs : CpuContext) (cr3 : ℕ) (pml4Phys : ℕ → ℕ) : Kernel :=
  ⟨Sched.boot stack idleTask regs, cr3, pml4Phys⟩

/-- The process has been returned by `proc_create`. -/
def Created (k : Kernel) (p : ℕ) : Prop := IDLE_PROC < p ∧ p < k.sched.fresh

/-- The CPU has the selectors and the page-table root of the process. -/
structure Loaded (k : Kernel) (p : ℕ) : Prop where
  code : k.sched.cpu.cs = (k.sched.procs p).context.cs
  stack : k.sched.cpu.ss = (k.sched.procs p).context.ss
  root : k.cr3 = k.pml4Phys (k.sched.procs p).addrSpace

/-- The CPU executes the process at its privilege level and in its address space. -/
structure RunsAs (k : Kernel) (p : ℕ) : Prop where
  loaded : k.Loaded p
  user : (k.sched.procs p).flags &&& PROC_FLAG_KERNEL = 0 → k.sched.cpu.cs = 0x1B ∧ k.sched.cpu.ss = 0x23

/-- The saved selectors are those of the flags. -/
structure Selectors (q : Process) : Prop where
  code : q.context.cs = if q.flags &&& PROC_FLAG_KERNEL ≠ 0 then 0x08 else 0x1B
  stack : q.context.ss = if q.flags &&& PROC_FLAG_KERNEL ≠ 0 then 0x10 else 0x23

end Kernel

open Kernel

/-- A step after which a process that was switched to executes as itself. -/
def OwnStep (k : Kernel) (op : KernelOp) (k' : Kernel) : Prop :=
  KernelStep k op k' ∧ (k'.sched.current ≠ k.sched.current → k'.Created k'.sched.current → k'.RunsAs k'.sched.current)

/-- A step before which the CPU has the selectors and the page-table root of a process that is
switched to. -/
def LoadedStep (k : Kernel) (op : KernelOp) (k' : Kernel) : Prop :=
  KernelStep k op k' ∧ (k'.sched.current ≠ k.sched.current → k'.Created k'.sched.current → k.Loaded k'.sched.current)

variable {k k' : Kernel} {op : KernelOp} {s s' : Sched}

/-! ### What a switch keeps -/

/-- The saved selectors, the flags and the address space. -/
def Process.identity (q : Process) : ℕ × ℕ × ℕ × ℕ := (q.context.cs, q.context.ss, q.flags, q.addrSpace)

theorem identity_unwritten : Unwritten Process.identity :=
  ⟨fun _ _ => rfl, fun _ _ => rfl, fun _ _ => rfl, fun _ _ => rfl, fun _ _ => rfl, fun _ => rfl⟩

theorem contextSwitch_identity (s : Sched) (site : CodeAddr) (old new p : ℕ) :
    ((s.contextSwitch site old new).procs p).identity = (s.procs p).identity :=
  update_field Process.identity s old p (fun q => { q with context := s.cpu.save q.context site }) (fun _ => rfl)

theorem switchTo_identity (s : Sched) (site : CodeAddr) (next p : ℕ) :
    ((s.switchTo site next).procs p).identity = (s.procs p).identity := by
  unfold switchTo
  rw [contextSwitch_identity]
  exact identity_unwritten.setState { s with current := next } p next _

/-- Only the process itself loads selectors. -/
theorem SchedStep.cpu_selectors {op : SchedOp} (h : SchedStep s op s') (hop : ∀ regs, op ≠ .compute regs) :
    s'.cpu.cs = s.cpu.cs ∧ s'.cpu.ss = s.cpu.ss := by
  obtain ⟨fuel, s₀, site, hp, hs⟩ := h.cases
  have hcpu : s₀.cpu = s.cpu := (prepare_frame hp).cpu hop
  obtain rfl | ⟨addr, next, _, _, _, _, rfl⟩ := hs
  · rw [hcpu]
    exact ⟨rfl, rfl⟩
  · show s₀.cpu.cs = s.cpu.cs ∧ s₀.cpu.ss = s.cpu.ss
    rw [hcpu]
    exact ⟨rfl, rfl⟩

/-- **A call that changes the current process** keeps the selectors of the CPU, and the identity of
every process. -/
theorem SchedStep.switched {op : SchedOp} (h : SchedStep s op s') (hne : s'.current ≠ s.current) :
    (s'.cpu.cs = s.cpu.cs ∧ s'.cpu.ss = s.cpu.ss) ∧ ∀ p, (s'.procs p).identity = (s.procs p).identity := by
  obtain ⟨fuel, s₀, site, hp, hs⟩ := h.cases
  obtain rfl | ⟨addr, next, rfl, _, _, _, rfl⟩ := hs
  · exact absurd (prepare_frame hp).current hne
  · refine ⟨h.cpu_selectors fun regs he => ?_, fun p => ?_⟩
    · subst he
      cases hp
    · obtain hsame | ⟨a, rfl, _⟩ := identity_unwritten.prepare hp p
      · rw [switchTo_identity, hsame]
      · cases hp

theorem Kernel.Selectors.congr {q q' : Process} (h : Selectors q) (he : q'.identity = q.identity) : Selectors q' := by
  simp only [Process.identity, Prod.mk.injEq] at he
  obtain ⟨hcs, hss, hflags, _⟩ := he
  refine ⟨?_, ?_⟩
  · rw [hcs, hflags]
    exact h.code
  · rw [hss, hflags]
    exact h.stack

/-- The saved selectors of the processes that `proc_create` has returned. -/
def Selected (s : Sched) : Prop := ∀ p, IDLE_PROC < p → p < s.fresh → Selectors (s.procs p)

theorem Selected.create (h : Selected s) (a : CreateArgs) : Selected (s.procCreate a).1 := by
  obtain h0 | ⟨hprocs, hfresh⟩ := procCreate_cases s a
  · rwa [h0]
  · intro p hidle hlt
    rw [hfresh] at hlt
    rw [hprocs]
    by_cases hp : p = s.fresh
    · rw [hp, Function.update_self]
      exact ⟨rfl, rfl⟩
    · rw [Function.update_of_ne hp]
      exact h p hidle (by omega)

theorem Selected.step {op : SchedOp} (h : Selected s) (hs : SchedStep s op s') : Selected s' := by
  obtain ⟨fuel, s₀, site, hp, hs⟩ := hs.cases
  have hfirst : Selected s₀ := by
    by_cases hop : ∃ a, op = .create a
    · obtain ⟨a, rfl⟩ := hop
      cases hp
      exact h.create a
    · have hother : ∀ a, op ≠ .create a := fun a he => hop ⟨a, he⟩
      intro p hidle hfresh
      rw [(prepare_frame hp).fresh_eq hother] at hfresh
      obtain hsame | ⟨a, he, _⟩ := identity_unwritten.prepare hp p
      · exact (h p hidle hfresh).congr hsame
      · exact absurd he (hother a)
  obtain rfl | ⟨addr, next, _, _, _, _, rfl⟩ := hs
  · exact hfirst
  · intro p hidle hfresh
    exact (hfirst p hidle hfresh).congr (switchTo_identity s₀ addr next p)

/-! ### Runs -/

theorem KernelStep.selected (hs : KernelStep k op k') (h : Selected k.sched) : Selected k'.sched := by
  cases hs with
  | call hcall => exact h.step hcall
  | loadCr3 => exact h
  | setPml4 => exact h

theorem Kernel.selected_boot (stack idleTask : ℕ) (regs : CpuContext) (cr3 : ℕ) (pml4Phys : ℕ → ℕ) :
    Selected (Kernel.boot stack idleTask regs cr3 pml4Phys).sched := by
  intro p hidle hfresh
  have hend : (Kernel.boot stack idleTask regs cr3 pml4Phys).sched.fresh = IDLE_PROC + 1 := rfl
  omega

/-- **Saved selectors.**  In every state that is reached, the saved selectors of a process that
`proc_create` has returned are those of its flags. -/
theorem saved_selectors {stack idleTask cr3 : ℕ} {regs : CpuContext} {pml4Phys : ℕ → ℕ} {ops : List KernelOp}
    (hrun : Run KernelStep (.boot stack idleTask regs cr3 pml4Phys) ops k) : Selected k.sched :=
  hrun.invariant (I := fun k => Selected k.sched) (fun _ _ _ h hs => hs.selected h) (selected_boot stack idleTask regs cr3 pml4Phys)

/-- **One step.** -/
theorem KernelStep.own_iff (hs : KernelStep k op k') (h : Selected k.sched) : OwnStep k op k' ↔ LoadedStep k op k' := by
  refine and_congr_right fun _ => forall_congr' fun hne => forall_congr' fun hcreated => ?_
  have hselected := hs.selected h _ hcreated.1 hcreated.2
  cases hs with
  | @call op s hcall =>
      obtain ⟨⟨hcpu, hcpu'⟩, hid⟩ := hcall.switched hne
      have hid := hid s.current
      simp only [Process.identity, Prod.mk.injEq] at hid
      obtain ⟨hcs, hss, _, hspace⟩ := hid
      constructor
      · rintro ⟨⟨hcode, hstack, hroot⟩, _⟩
        dsimp only at hcode hstack hroot
        exact ⟨by rw [← hcpu, hcode, hcs], by rw [← hcpu', hstack, hss], by rw [hroot, hspace]⟩
      · rintro ⟨hcode, hstack, hroot⟩
        dsimp only at hcode hstack hroot
        have hcode' : s.cpu.cs = (s.procs s.current).context.cs := by rw [hcpu, hcode, hcs]
        have hstack' : s.cpu.ss = (s.procs s.current).context.ss := by rw [hcpu', hstack, hss]
        refine ⟨⟨hcode', hstack', by rw [hroot, hspace]⟩, fun hflags => ?_⟩
        dsimp only at hflags ⊢
        rw [hcode', hstack', hselected.code, hselected.stack, hflags]
        exact ⟨rfl, rfl⟩
  | loadCr3 => exact absurd rfl hne
  | setPml4 => exact absurd rfl hne

/-- **When processes execute as themselves.**  In a run of any calls, with processes created with any
flags, and with code that loads `CR3` and any registers, every process from `proc_create` that is
switched to executes with its own selectors (those of level 3 without `PROC_FLAG_KERNEL`) and page
tables exactly when the CPU already has these before each switch. -/
theorem runs_as_itself_iff {stack idleTask cr3 : ℕ} {regs : CpuContext} {pml4Phys : ℕ → ℕ} {ops : List KernelOp} :
    Run OwnStep (.boot stack idleTask regs cr3 pml4Phys) ops k ↔
      Run LoadedStep (.boot stack idleTask regs cr3 pml4Phys) ops k := by
  apply Run.iff_of_invariant (I := fun k => Selected k.sched) ?_ ?_ (selected_boot stack idleTask regs cr3 pml4Phys)
  · intro k op k' h
    exact ⟨fun hs => (hs.1.own_iff h).mp hs, fun hs => (hs.1.own_iff h).mpr hs⟩
  · intro k op k' h hs _
    exact hs.1.selected h

/-- Steps as a function. -/
def Kernel.exec (fuel : ℕ) (k : Kernel) : KernelOp → Option Kernel
  | .call op => (k.sched.exec fuel op).toOption.map fun s => { k with sched := s }
  | .loadCr3 cr3 => some { k with cr3 := cr3 }
  | .setPml4 addrSpace pml4Phys => some { k with pml4Phys := Function.update k.pml4Phys addrSpace pml4Phys }

theorem KernelStep.of_exec {fuel : ℕ} (h : k.exec fuel op = some k') : KernelStep k op k' := by
  cases op with
  | call op =>
      obtain ⟨s, hs, rfl⟩ := Option.map_eq_some_iff.mp h
      exact .call ⟨fuel, toOption_eq_some.mp hs⟩
  | loadCr3 cr3 =>
      obtain rfl := Option.some.inj h
      exact .loadCr3 cr3
  | setPml4 addrSpace pml4Phys =>
      obtain rfl := Option.some.inj h
      exact .setPml4 addrSpace pml4Phys

/-- The kernel after boot, with the selectors of `gdt_flush` and the tables of `boot.asm`. -/
def bootKernel : Kernel := .boot 0x80000 0x1000 { cs := 0x08, ss := 0x10 } 0x1000 (fun _ => 0)

/-- A process of a user. -/
def userProcess : CreateArgs :=
  { entry := 0x400000, flags := PROC_FLAG_USER, priority := 10, allocated := true, stack := 0x100000, addrSpace := 0x200000 }

/-- The first yield to it leaves the CPU at level 0. -/
theorem user_process_at_level_zero : ¬ ∀ ops k op k', Run KernelStep bootKernel ops k → KernelStep k op k' → OwnStep k op k' := by
  intro hall
  have hrun : ([.setPml4 0x200000 0x300000, .call (.create userProcess), .call (.add 2)].foldlM (Kernel.exec 8) bootKernel).any
      (fun k => decide (k.sched.current = 1) && (k.exec 8 (.call .yield)).any (fun k' =>
        decide (k'.sched.current = 2 ∧ k'.sched.fresh = 3 ∧ (k'.sched.procs 2).flags = PROC_FLAG_USER ∧
          k'.sched.cpu.cs = 0x08))) = true := by decide +kernel
  obtain ⟨k, hk, h⟩ := (Option.any_eq_true _ _).mp hrun
  obtain ⟨hcur, h⟩ := Bool.and_eq_true_iff.mp h
  have hcur := of_decide_eq_true hcur
  obtain ⟨k', hk', h⟩ := (Option.any_eq_true _ _).mp h
  obtain ⟨hcur', hfresh, hflags, hcs⟩ := of_decide_eq_true h
  have hown := (hall _ k _ k' (Run.of_exec (fun _ _ _ => KernelStep.of_exec) hk) (.of_exec hk')).2
  rw [hcur, hcur'] at hown
  have huser := (hown (by decide) ⟨by decide, by rw [hfresh]; decide⟩).user (by rw [hflags]; rfl)
  omega

/-! ### Privilege -/

/-- Code that loads neither `CR3` nor selectors. -/
def QuietStep (k : Kernel) (op : KernelOp) (k' : Kernel) : Prop :=
  KernelStep k op k' ∧ k'.cr3 = k.cr3 ∧
    ∀ regs, op = .call (.compute regs) → regs.cs = k.sched.cpu.cs ∧ regs.ss = k.sched.cpu.ss

theorem QuietStep.keeps (h : QuietStep k op k') :
    k'.sched.cpu.cs = k.sched.cpu.cs ∧ k'.sched.cpu.ss = k.sched.cpu.ss ∧ k'.cr3 = k.cr3 := by
  obtain ⟨hs, hcr3, hquiet⟩ := h
  rw [← and_assoc]
  refine ⟨?_, hcr3⟩
  cases hs with
  | @call op s hcall =>
      by_cases hop : ∃ regs, op = .compute regs
      · obtain ⟨regs, rfl⟩ := hop
        obtain ⟨fuel, hcall⟩ := hcall
        obtain rfl := Except.ok.inj hcall
        exact hquiet regs rfl
      · exact hcall.cpu_selectors fun regs he => hop ⟨regs, he⟩
  | loadCr3 => exact ⟨rfl, rfl⟩
  | setPml4 => exact ⟨rfl, rfl⟩

/-- **Privilege.**  As long as no code loads `CR3` or selectors, a process from `proc_create` executes as
itself exactly if it is a kernel thread and its page-table root is that of the boot code. -/
theorem privilege_kept {stack idleTask cr3 p : ℕ} {regs : CpuContext} {pml4Phys : ℕ → ℕ} {ops : List KernelOp}
    (hcs : regs.cs = 0x08) (hss : regs.ss = 0x10)
    (hrun : Run QuietStep (.boot stack idleTask regs cr3 pml4Phys) ops k) (hp : k.Created p) :
    k.RunsAs p ↔ (k.sched.procs p).flags &&& PROC_FLAG_KERNEL ≠ 0 ∧ cr3 = k.pml4Phys (k.sched.procs p).addrSpace := by
  have hselected := saved_selectors (hrun.mono fun _ _ _ hs => hs.1) p hp.1 hp.2
  obtain ⟨hcode, hstack, hroot⟩ : k.sched.cpu.cs = 0x08 ∧ k.sched.cpu.ss = 0x10 ∧ k.cr3 = cr3 := by
    refine hrun.invariant (I := fun k => k.sched.cpu.cs = 0x08 ∧ k.sched.cpu.ss = 0x10 ∧ k.cr3 = cr3) ?_ ⟨hcs, hss, rfl⟩
    rintro k op k' ⟨h1, h2, h3⟩ hs
    obtain ⟨h1', h2', h3'⟩ := hs.keeps
    exact ⟨h1'.trans h1, h2'.trans h2, h3'.trans h3⟩
  constructor
  · rintro ⟨hloaded, huser⟩
    refine ⟨fun h0 => ?_, hroot ▸ hloaded.root⟩
    have := (huser h0).1
    omega
  · rintro ⟨hkernel, hspace⟩
    refine ⟨⟨?_, ?_, hroot.trans hspace⟩, fun h0 => absurd h0 hkernel⟩
    · rw [hcode, hselected.code, if_pos hkernel]
    · rw [hstack, hselected.stack, if_pos hkernel]

end HeroOS
