import HeroOS.Process

/-! # The process table

Runs of `proc_create` after `proc_init`, with every allocation succeeding.  As long as a slot is
free, the `n`-th call takes slot `n` and the new process is found again under its PID
(`Filled.procCreate`).  When all 1023 slots are taken, `proc_create` is meant to return `NULL`;
but its test `pid < 0` is made on an unsigned type and never holds, so that the process is
created with PID `0xFFFFFFFF` and stored far behind the table (`procCreate_full`).  Hence
`create_well_iff`: a run of creations keeps the table in order exactly when it has at most 1023
calls. -/

namespace HeroOS.Sched

variable {s s' : Sched} {n : ℕ} {a : CreateArgs} {args : List CreateArgs}

/-- The calls of `proc_create` in turn: the final state and the returned pointers. -/
def createRun (s : Sched) : List CreateArgs → Sched × List ℕ
  | [] => (s, [])
  | a :: args => (((s.procCreate a).1.createRun args).1, (s.procCreate a).2 :: ((s.procCreate a).1.createRun args).2)

/-- What a run of creations promises. -/
structure CreatesWell (s : Sched) (args : List CreateArgs) : Prop where
  /-- PIDs of created processes are between 1 and 1023. -/
  pid_range : ∀ p ∈ (s.createRun args).2, p ≠ 0 →
    1 ≤ ((s.createRun args).1.procs p).pid ∧ ((s.createRun args).1.procs p).pid ≤ 1023
  /-- No two processes share a PID. -/
  pid_unique : ∀ p ∈ IDLE_PROC :: (s.createRun args).2, ∀ q ∈ IDLE_PROC :: (s.createRun args).2,
    p ≠ 0 → q ≠ 0 → p ≠ q → ((s.createRun args).1.procs p).pid ≠ ((s.createRun args).1.procs q).pid
  /-- A process is found under its PID. -/
  get : ∀ p ∈ (s.createRun args).2, p ≠ 0 →
    (s.createRun args).1.procGet ((s.createRun args).1.procs p).pid = p
  /-- Every write to the table is inside it. -/
  writes : ∀ i ∈ (s.createRun args).1.tableWrites, i < MAX_PROCESSES
  /-- A call returns `NULL` and keeps the table exactly when no slot is free. -/
  full : ∀ args₁ a args₂, args = args₁ ++ a :: args₂ →
    ((((s.createRun args₁).1.procCreate a).2 = 0 ∧
      ((s.createRun args₁).1.procCreate a).1.procTable = (s.createRun args₁).1.procTable) ↔
        ∀ i, 1 ≤ i → i < MAX_PROCESSES → (s.createRun args₁).1.procTable i ≠ 0)

/-- The slots `0` to `n` are taken in order, and nothing else has been written. -/
structure Filled (n : ℕ) (s : Sched) : Prop where
  table : ∀ i, s.procTable i = if i ≤ n then i + 1 else 0
  fresh : s.fresh = n + 2
  pid : ∀ i ≤ n, (s.procs (i + 1)).pid = i
  writes : ∀ i ∈ s.tableWrites, i ≤ n

theorem Filled.init (regs : CpuContext) (stack idleTask : ℕ) :
    Filled 0 ((powerOn regs).procInit stack idleTask) := by
  refine ⟨?_, rfl, ?_, ?_⟩
  · intro i
    by_cases h : i = 0
    · subst h
      rfl
    · simp [procInit, h]
  · intro i hi
    obtain rfl : i = 0 := Nat.le_zero.mp hi
    rfl
  · simp [procInit, powerOn]

/-! ### One call -/

theorem Filled.freeSlot (h : Filled n s) (hn : n + 1 < MAX_PROCESSES) : s.freeSlot = n + 1 := by
  obtain ⟨k, hk⟩ : ∃ k, MAX_PROCESSES - 1 = n + (k + 1) := ⟨MAX_PROCESSES - 1 - (n + 1), by omega⟩
  have hnone : (List.range' 1 n).find? (fun i => s.procTable i = 0) = none := by
    rw [List.find?_eq_none]
    intro i hi
    rw [List.mem_range'_1] at hi
    simp [h.table i, show i ≤ n by omega]
  unfold Sched.freeSlot
  rw [hk, ← List.range'_append_1, List.range'_succ, List.find?_append, hnone, Option.none_or,
    List.find?_cons_of_pos (by simp [h.table]), Option.getD_some, Nat.add_comm]

theorem freeSlot_full (h : Filled n s) (hn : n + 1 = MAX_PROCESSES) : s.freeSlot = 2 ^ 32 - 1 := by
  have hnone : (List.range' 1 (MAX_PROCESSES - 1)).find? (fun i => s.procTable i = 0) = none := by
    rw [List.find?_eq_none]
    intro i hi
    rw [List.mem_range'_1] at hi
    simp [h.table i, show i ≤ n by omega]
  unfold Sched.freeSlot
  rw [hnone]
  rfl

/-- With memory available, `proc_create` always creates: its test for a full table never holds. -/
theorem procCreate_eq (ha : a.allocated = true) : s.procCreate a =
    ({ s with
        procs := Function.update s.procs s.fresh (s.newProcess s.freeSlot a)
        procTable := Function.update s.procTable s.freeSlot s.fresh
        nextPid := (s.freeSlot + 1) % 2 ^ 32
        fresh := s.fresh + 1
        tableWrites := s.freeSlot :: s.tableWrites }, s.fresh) := by
  unfold procCreate
  simp [ha]

theorem Filled.procCreate (h : Filled n s) (hn : n + 1 < MAX_PROCESSES) (ha : a.allocated = true) :
    Filled (n + 1) (s.procCreate a).1 ∧ (s.procCreate a).2 = n + 2 := by
  rw [procCreate_eq ha, h.freeSlot hn, h.fresh]
  refine ⟨⟨?_, rfl, ?_, ?_⟩, rfl⟩
  · intro i
    by_cases hi : i = n + 1
    · subst hi
      simp
    · simp only [Function.update_of_ne hi, h.table i]
      split <;> split <;> omega
  · intro i hi
    dsimp only
    by_cases hi' : i = n + 1
    · subst hi'
      simp [newProcess]
    · rw [Function.update_of_ne (by omega)]
      exact h.pid i (by omega)
  · intro i hi
    obtain rfl | hi := List.mem_cons.mp hi
    · exact le_rfl
    · exact (h.writes i hi).trans (Nat.le_succ n)

/-- A creation with all slots taken writes behind the table. -/
theorem procCreate_full (h : Filled n s) (hn : n + 1 = MAX_PROCESSES) (ha : a.allocated = true) :
    2 ^ 32 - 1 ∈ (s.procCreate a).1.tableWrites := by
  rw [procCreate_eq ha, freeSlot_full h hn]
  exact List.mem_cons_self

/-! ### Runs of creations -/

theorem createRun_append (s : Sched) (args₁ args₂ : List CreateArgs) :
    s.createRun (args₁ ++ args₂) = (((s.createRun args₁).1.createRun args₂).1,
      (s.createRun args₁).2 ++ ((s.createRun args₁).1.createRun args₂).2) := by
  induction args₁ generalizing s with
  | nil => rfl
  | cons a args₁ ih => simp only [List.cons_append, createRun, ih]

theorem Filled.createRun (h : Filled n s) (args : List CreateArgs) (hn : n + args.length < MAX_PROCESSES)
    (ha : ∀ a ∈ args, a.allocated = true) :
    Filled (n + args.length) (s.createRun args).1 ∧
      (s.createRun args).2 = List.range' (n + 2) args.length := by
  induction args generalizing n s with
  | nil => exact ⟨h, rfl⟩
  | cons a args ih =>
      rw [List.length_cons] at hn
      obtain ⟨h1, hp⟩ := h.procCreate (by omega) (ha a List.mem_cons_self)
      obtain ⟨h2, hps⟩ := ih h1 (by omega) (fun b hb => ha b (List.mem_cons_of_mem _ hb))
      constructor
      · rw [List.length_cons, ← Nat.add_assoc, Nat.add_right_comm]
        exact h2
      · simp only [Sched.createRun, hp, hps, List.length_cons, List.range'_succ]

/-- Writes to the table are never forgotten. -/
theorem tableWrites_createRun (s : Sched) (args : List CreateArgs) {i : ℕ} (hi : i ∈ s.tableWrites) :
    i ∈ (s.createRun args).1.tableWrites := by
  induction args generalizing s with
  | nil => exact hi
  | cons a args ih =>
      refine ih _ ?_
      unfold Sched.procCreate
      dsimp only
      split
      · exact hi
      · split
        · exact hi
        · exact List.mem_cons_of_mem _ hi

/-- While the slots last, every promise is kept. -/
theorem Filled.createsWell (h : Filled 0 s) (hn : args.length < MAX_PROCESSES)
    (ha : ∀ a ∈ args, a.allocated = true) : CreatesWell s args := by
  obtain ⟨hf, hps⟩ := h.createRun args (by omega) ha
  rw [Nat.zero_add] at hf
  have hpid : ∀ p ∈ IDLE_PROC :: (s.createRun args).2,
      1 ≤ p ∧ p ≤ args.length + 1 ∧ ((s.createRun args).1.procs p).pid = p - 1 := by
    intro p hp
    have hle : 1 ≤ p ∧ p ≤ args.length + 1 := by
      rw [hps, List.mem_cons, List.mem_range'_1] at hp
      unfold IDLE_PROC at hp
      omega
    obtain ⟨k, rfl⟩ : ∃ k, p = k + 1 := ⟨p - 1, by omega⟩
    exact ⟨hle.1, hle.2, hf.pid k (by omega)⟩
  have hnew : ∀ p ∈ (s.createRun args).2, 2 ≤ p := by
    intro p hp
    rw [hps, List.mem_range'_1] at hp
    omega
  unfold MAX_PROCESSES at hn
  constructor
  · intro p hp _
    obtain ⟨_, hle, hpid⟩ := hpid p (List.mem_cons_of_mem _ hp)
    have := hnew p hp
    omega
  · intro p hp q hq _ _ hne
    obtain ⟨hp1, _, hp⟩ := hpid p hp
    obtain ⟨hq1, _, hq⟩ := hpid q hq
    omega
  · intro p hp _
    obtain ⟨hp1, hle, hpid⟩ := hpid p (List.mem_cons_of_mem _ hp)
    unfold procGet MAX_PROCESSES
    rw [hpid, if_neg (by omega), hf.table, if_pos (by omega)]
    omega
  · intro i hi
    have := hf.writes i hi
    unfold MAX_PROCESSES
    omega
  · rintro args₁ a args₂ rfl
    rw [List.length_append, List.length_cons] at hn
    obtain ⟨hf₁, _⟩ := h.createRun args₁ (by unfold MAX_PROCESSES; omega)
      (fun b hb => ha b (List.mem_append_left _ hb))
    rw [Nat.zero_add] at hf₁
    obtain ⟨_, hp⟩ := hf₁.procCreate (a := a) (by unfold MAX_PROCESSES; omega)
      (ha a (List.mem_append_right _ List.mem_cons_self))
    constructor
    · rintro ⟨hz, _⟩
      omega
    · intro hfull
      refine absurd ?_ (hfull (args₁.length + 1) (by omega) (by unfold MAX_PROCESSES; omega))
      rw [hf₁.table, if_neg (by omega)]

/-- A run with more creations than slots writes behind the table. -/
theorem Filled.exists_write (h : Filled 0 s) (args : List CreateArgs) (hn : MAX_PROCESSES ≤ args.length)
    (ha : ∀ a ∈ args, a.allocated = true) : 2 ^ 32 - 1 ∈ (s.createRun args).1.tableWrites := by
  have hlen : (args.take (MAX_PROCESSES - 1)).length = MAX_PROCESSES - 1 := by
    rw [List.length_take]
    omega
  obtain ⟨hf, _⟩ := h.createRun (args.take (MAX_PROCESSES - 1))
    (by rw [hlen]; decide) (fun a h => ha a (List.mem_of_mem_take h))
  rw [hlen, Nat.zero_add] at hf
  obtain ⟨a, rest, hdrop⟩ : ∃ a rest, args.drop (MAX_PROCESSES - 1) = a :: rest := by
    apply List.exists_cons_of_length_pos
    rw [List.length_drop]
    unfold MAX_PROCESSES at *
    omega
  have hmem : a ∈ args := List.mem_of_mem_drop (hdrop ▸ List.mem_cons_self)
  rw [← List.take_append_drop (MAX_PROCESSES - 1) args, createRun_append, hdrop]
  exact tableWrites_createRun _ rest (procCreate_full hf rfl (ha a hmem))

/-- **When the process table holds.**  A run of `proc_create` calls after `proc_init`, with memory
available, gives every process its own PID in range, finds it under that PID, writes only inside
the table and refuses exactly when the table is full, if and only if it has at most 1023 calls. -/
theorem create_well_iff (regs : CpuContext) (stack idleTask : ℕ) (ha : ∀ a ∈ args, a.allocated = true) :
    CreatesWell ((powerOn regs).procInit stack idleTask) args ↔ args.length ≤ 1023 := by
  have h := Filled.init regs stack idleTask
  constructor
  · intro hw
    by_contra hlen
    have hlt := hw.writes _ (h.exists_write args (by unfold MAX_PROCESSES; omega) ha)
    exact absurd hlt (by decide)
  · intro hlen
    exact h.createsWell (by unfold MAX_PROCESSES; omega) ha

/-- A kernel thread whose allocations succeed. -/
def someThread : CreateArgs := kernelThread 0x2000 0x100000 0x200000 true

/-- A thousand threads fit. -/
theorem create_well_thousand :
    CreatesWell ((powerOn {}).procInit 0x80000 0x1000) (List.replicate 1000 someThread) :=
  (create_well_iff {} 0x80000 0x1000 (fun a ha => by rw [List.eq_of_mem_replicate ha]; rfl)).mpr
    (by rw [List.length_replicate]; norm_num)

/-- The 1024th creation writes behind the table. -/
theorem create_writes_behind_table :
    2 ^ 32 - 1 ∈ (((powerOn {}).procInit 0x80000 0x1000).createRun
      (List.replicate 1024 someThread)).1.tableWrites ∧
    ¬ CreatesWell ((powerOn {}).procInit 0x80000 0x1000) (List.replicate 1024 someThread) := by
  have hmem := (Filled.init {} 0x80000 0x1000).exists_write (List.replicate 1024 someThread)
    (by rw [List.length_replicate]; decide) (fun a ha => by rw [List.eq_of_mem_replicate ha]; rfl)
  exact ⟨hmem, fun hw => absurd (hw.writes _ hmem) (by decide)⟩

end HeroOS.Sched
