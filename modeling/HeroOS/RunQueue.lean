import HeroOS.Pmm
import HeroOS.SchedRuns

/-! # The run queue as a doubly linked list

`RunQueue s xs` says that the run queue of `s` consists of the processes `xs`: linked in this order
in both directions between `head` and `tail`, each once, and as many as `count` says.

* `RunQueue.add`: `sched_add` appends a process;
* `RunQueue.remove`: `sched_remove` takes a process out, wherever it stands;
* `run_queue_well_linked`: over any sequence of both from the empty queue, the queue is the list of
  the processes in order of insertion. -/

namespace HeroOS

open LinkedList

variable {s s' : Sched} {p q : ℕ} {xs ys zs : List ℕ}

namespace Sched

/-! ### Links -/

section
variable (s : Sched) (p n q : ℕ)

@[simp]
theorem setNext_next : ((s.setNext p n).procs q).next = if q = p then n else (s.procs q).next := by
  unfold setNext
  by_cases h : q = p
  · subst h
    simp
  · simp [h]

@[simp]
theorem setNext_prev : ((s.setNext p n).procs q).prev = (s.procs q).prev :=
  update_field Process.prev s p q (fun q => { q with next := n }) (fun _ => rfl)

@[simp]
theorem setPrev_prev : ((s.setPrev p n).procs q).prev = if q = p then n else (s.procs q).prev := by
  unfold setPrev
  by_cases h : q = p
  · subst h
    simp
  · simp [h]

@[simp]
theorem setPrev_next : ((s.setPrev p n).procs q).next = (s.procs q).next :=
  update_field Process.next s p q (fun q => { q with prev := n }) (fun _ => rfl)

end

/-- A process is an object in the memory that the physical memory manager covers. -/
def IsProcess (p : ℕ) : Prop := p ≠ 0 ∧ p < PMM_MAX_PAGES * PAGE_SIZE

/-- The run queue consists of the processes `xs`. -/
structure RunQueue (s : Sched) (xs : List ℕ) : Prop where
  head_eq : s.head = xs.headD 0
  tail_eq : s.tail = xs.getLastD 0
  links : Seg (fun p => (s.procs p).next) (fun p => (s.procs p).prev) 0 xs 0
  process : ∀ p ∈ xs, IsProcess p
  nodup : xs.Nodup
  count : s.count = xs.length

/-- So many processes do not fit into memory that the 32-bit counter would wrap. -/
theorem length_lt (hnd : xs.Nodup) (hp : ∀ p ∈ xs, IsProcess p) : xs.length < 2 ^ 32 := by
  have hsub : xs.toFinset ⊆ Finset.Ico 1 (2 ^ 32) := by
    intro p hmem
    obtain ⟨h0, hlt⟩ := hp p (List.mem_toFinset.mp hmem)
    exact Finset.mem_Ico.mpr ⟨Nat.pos_of_ne_zero h0, hlt⟩
  have hcard := Finset.card_le_card hsub
  rw [List.toFinset_card_of_nodup hnd, Nat.card_Ico] at hcard
  omega

theorem RunQueue.queue (h : RunQueue s xs) : s.Queue xs := by
  unfold Queue
  rw [h.head_eq]
  exact h.links.chain_next (fun p hp => (h.process p hp).1)

/-! ### Adding -/

/-- What `sched_add` writes to the links. -/
theorem schedAdd_links (hp : p ≠ 0) (hr : (s.procs p).state = .READY) (ht : s.tail ≠ p) :
    (∀ q, ((s.schedAdd p).procs q).next = if q = p then 0 else if q = s.tail ∧ s.tail ≠ 0 then p else (s.procs q).next) ∧
      (∀ q, ((s.schedAdd p).procs q).prev = if q = p then s.tail else (s.procs q).prev) ∧
      (s.schedAdd p).head = (if s.tail = 0 then p else s.head) ∧ (s.schedAdd p).tail = p ∧
      (s.schedAdd p).count = (s.count + 1) % 2 ^ 32 := by
  unfold schedAdd
  rw [if_neg (by simp [hp, hr])]
  have htail : ((s.setNext p 0).setPrev p s.tail).tail = s.tail := rfl
  dsimp only
  rw [htail]
  by_cases h0 : s.tail = 0
  · refine ⟨fun q => ?_, fun q => ?_, ?_, rfl, ?_⟩
    · simp [h0]
    · simp [h0]
    · simp [h0]
    · simp [h0]
      rfl
  · refine ⟨fun q => ?_, fun q => ?_, ?_, rfl, ?_⟩
    · by_cases hq : q = p
      · subst hq
        simp [h0, Ne.symm ht]
      · simp [h0, hq]
    · simp [h0]
    · simp [h0]
      rfl
    · simp [h0]
      rfl

/-- **`sched_add`** appends a ready process. -/
theorem RunQueue.add (h : RunQueue s xs) (hp : IsProcess p) (hr : (s.procs p).state = .READY) (hnew : p ∉ xs) :
    RunQueue (s.schedAdd p) (xs ++ [p]) := by
  have hnonnull : ∀ q ∈ xs, q ≠ 0 := fun q hq => (h.process q hq).1
  have htail : s.tail ≠ p := by
    rw [h.tail_eq]
    rcases getLastD_eq_or_mem xs 0 with h0 | hmem
    · rw [h0]
      exact hp.1.symm
    · exact fun heq => hnew (heq ▸ hmem)
  obtain ⟨hnext, hprev, hhead, htail', hcount⟩ := schedAdd_links hp.1 hr htail
  have hprocess : ∀ q ∈ xs ++ [p], IsProcess q := by
    intro q hq
    rcases List.mem_append.mp hq with hq | hq
    · exact h.process q hq
    · rw [List.mem_singleton.mp hq]
      exact hp
  have hnodup : (xs ++ [p]).Nodup := by
    rw [List.nodup_append_comm]
    exact List.nodup_cons.mpr ⟨hnew, h.nodup⟩
  rw [h.tail_eq] at hnext hprev hhead
  refine ⟨?_, ?_, h.links.push h.nodup hnonnull hnew hnext hprev, hprocess, hnodup, ?_⟩
  · rw [hhead, h.head_eq]
    rcases List.eq_nil_or_concat xs with rfl | ⟨ys, a, rfl⟩
    · rfl
    · rw [List.concat_eq_append, List.getLastD_concat, if_neg (h.process a (by simp)).1]
      cases ys <;> rfl
  · rw [htail', List.getLastD_concat]
  · rw [hcount, h.count, List.length_append, List.length_singleton]
    have hlen := length_lt hnodup hprocess
    rw [List.length_append, List.length_singleton] at hlen
    exact Nat.mod_eq_of_lt hlen

/-! ### Removing -/

/-- The first half of `sched_remove`: the predecessor, or the head of the queue, skips `p`. -/
def skipNext (s : Sched) (p : ℕ) : Sched :=
  if (s.procs p).prev ≠ 0 then s.setNext (s.procs p).prev (s.procs p).next else { s with head := (s.procs p).next }

/-- The second half: the successor, or the tail of the queue, skips `p`. -/
def skipPrev (s : Sched) (p : ℕ) : Sched :=
  if (s.procs p).next ≠ 0 then s.setPrev (s.procs p).next (s.procs p).prev else { s with tail := (s.procs p).prev }

theorem skipNext_next : ((s.skipNext p).procs q).next =
    if q = (s.procs p).prev ∧ (s.procs p).prev ≠ 0 then (s.procs p).next else (s.procs q).next := by
  unfold skipNext
  by_cases h0 : (s.procs p).prev = 0 <;> simp [h0]

@[simp]
theorem skipNext_prev : ((s.skipNext p).procs q).prev = (s.procs q).prev := by
  unfold skipNext
  split <;> simp

theorem skipNext_head : (s.skipNext p).head = if (s.procs p).prev = 0 then (s.procs p).next else s.head := by
  unfold skipNext
  by_cases h0 : (s.procs p).prev = 0
  · simp [h0]
  · rw [if_pos h0, if_neg h0]
    rfl

@[simp]
theorem skipNext_tail : (s.skipNext p).tail = s.tail := by
  unfold skipNext
  split <;> rfl

@[simp]
theorem skipNext_count : (s.skipNext p).count = s.count := by
  unfold skipNext
  split <;> rfl

theorem skipPrev_prev : ((s.skipPrev p).procs q).prev =
    if q = (s.procs p).next ∧ (s.procs p).next ≠ 0 then (s.procs p).prev else (s.procs q).prev := by
  unfold skipPrev
  by_cases h0 : (s.procs p).next = 0 <;> simp [h0]

@[simp]
theorem skipPrev_next : ((s.skipPrev p).procs q).next = (s.procs q).next := by
  unfold skipPrev
  split <;> simp

@[simp]
theorem skipPrev_head : (s.skipPrev p).head = s.head := by
  unfold skipPrev
  split <;> rfl

theorem skipPrev_tail : (s.skipPrev p).tail = if (s.procs p).next = 0 then (s.procs p).prev else s.tail := by
  unfold skipPrev
  by_cases h0 : (s.procs p).next = 0
  · simp [h0]
  · rw [if_pos h0, if_neg h0]
    rfl

@[simp]
theorem skipPrev_count : (s.skipPrev p).count = s.count := by
  unfold skipPrev
  split <;> rfl

theorem schedRemove_eq (hp : p ≠ 0) : s.schedRemove p =
    { ((((s.skipNext p).skipPrev p).setPrev p 0).setNext p 0) with count := s.count - 1 } := by
  have hcount : ((((s.skipNext p).skipPrev p).setPrev p 0).setNext p 0).count = s.count := by
    show ((s.skipNext p).skipPrev p).count = s.count
    simp
  have hrm : s.schedRemove p =
      let s₂ := (((s.skipNext p).skipPrev p).setPrev p 0).setNext p 0
      if s₂.count > 0 then { s₂ with count := s₂.count - 1 } else s₂ := if_neg hp
  rw [hrm]
  dsimp only
  rw [hcount]
  split
  · rfl
  · rename_i h0
    rw [show s.count - 1 = s.count by omega, ← hcount]

/-- What `sched_remove` writes, where the process is not its own predecessor. -/
theorem schedRemove_links (hp : p ≠ 0) (hprevp : (s.procs p).prev ≠ p) :
    (∀ q, q ≠ p → ((s.schedRemove p).procs q).next =
      if q = (s.procs p).prev ∧ (s.procs p).prev ≠ 0 then (s.procs p).next else (s.procs q).next) ∧
    (∀ q, q ≠ p → ((s.schedRemove p).procs q).prev =
      if q = (s.procs p).next ∧ (s.procs p).next ≠ 0 then (s.procs p).prev else (s.procs q).prev) ∧
    (s.schedRemove p).head = (if (s.procs p).prev = 0 then (s.procs p).next else s.head) ∧
    (s.schedRemove p).tail = (if (s.procs p).next = 0 then (s.procs p).prev else s.tail) ∧
    (s.schedRemove p).count = s.count - 1 := by
  -- the first half leaves the link of `p` itself, which the second half reads
  have hnextp : ((s.skipNext p).procs p).next = (s.procs p).next := by
    rw [skipNext_next, if_neg (fun h => hprevp h.1.symm)]
  rw [schedRemove_eq hp]
  refine ⟨fun q hq => ?_, fun q hq => ?_, ?_, ?_, rfl⟩
  · show ((((s.skipNext p).skipPrev p).setPrev p 0).setNext p 0 |>.procs q).next = _
    rw [setNext_next, if_neg hq, setPrev_next, skipPrev_next, skipNext_next]
  · show ((((s.skipNext p).skipPrev p).setPrev p 0).setNext p 0 |>.procs q).prev = _
    rw [setNext_prev, setPrev_prev, if_neg hq, skipPrev_prev, hnextp, skipNext_prev, skipNext_prev]
  · show ((s.skipNext p).skipPrev p).head = _
    rw [skipPrev_head, skipNext_head]
  · show ((s.skipNext p).skipPrev p).tail = _
    rw [skipPrev_tail, hnextp, skipNext_prev, skipNext_tail]

/-- **`sched_remove`** takes a process out of the queue. -/
theorem RunQueue.remove (h : RunQueue s (ys ++ p :: zs)) : RunQueue (s.schedRemove p) (ys ++ zs) := by
  obtain ⟨hprev, hnext⟩ := h.links.links
  have hp0 : p ≠ 0 := (h.process p (by simp)).1
  have hnonnull : ∀ q ∈ ys ++ p :: zs, q ≠ 0 := fun q hq => (h.process q hq).1
  have hsub : (ys ++ zs).Sublist (ys ++ p :: zs) := (List.Sublist.refl ys).append (List.sublist_cons_self p zs)
  have hpys : p ∉ ys := fun hmem => (List.nodup_append.mp h.nodup).2.2 p hmem p List.mem_cons_self rfl
  have hprevp : (s.procs p).prev ≠ p := by
    rw [hprev]
    rcases getLastD_eq_or_mem ys 0 with h0 | hmem
    · rw [h0]
      exact hp0.symm
    · exact fun heq => hpys (heq ▸ hmem)
  obtain ⟨hn, hp, hhead, htail, hcount⟩ := schedRemove_links hp0 hprevp
  have hlinks := h.links.remove h.nodup hnonnull hn hp
  rw [hprev, hnext] at hhead htail
  refine ⟨?_, ?_, hlinks, fun q hq => h.process q (hsub.mem hq), h.nodup.sublist hsub, ?_⟩
  · rw [hhead, h.head_eq]
    rcases List.eq_nil_or_concat ys with rfl | ⟨ws, a, rfl⟩
    · rfl
    · rw [List.concat_eq_append, List.getLastD_concat, if_neg (h.process a (by simp)).1]
      cases ws <;> rfl
  · rw [htail, h.tail_eq]
    cases zs with
    | nil => simp
    | cons z zs =>
        rw [List.headD_cons, if_neg (h.process z (by simp)).1]
        simp [List.getLastD_eq_getLast?, List.getLast?_cons]
  · rw [hcount, h.count]
    simp only [List.length_append, List.length_cons]
    omega

/-! ### Runs -/

/-- The process is on the queue. -/
def Queued (s : Sched) (p : ℕ) : Prop := ∃ xs, s.Queue xs ∧ p ∈ xs

theorem RunQueue.queued_iff (h : RunQueue s xs) : s.Queued p ↔ p ∈ xs := by
  constructor
  · rintro ⟨ys, hq, hmem⟩
    rwa [hq.unique h.queue] at hmem
  · exact fun hmem => ⟨xs, h.queue, hmem⟩

/-- `sched_add` of a ready process that is not queued, or `sched_remove` of one that is. -/
def QueueStep (s : Sched) (op : SchedOp) (s' : Sched) : Prop :=
  SchedStep s op s' ∧ match op with
    | .add p => IsProcess p ∧ (s.procs p).state = .READY ∧ ¬ s.Queued p
    | .remove p => s.Queued p
    | _ => False

/-- The processes on the queue, in order of insertion. -/
def queueSpec (xs : List ℕ) : SchedOp → List ℕ
  | .add p => xs ++ [p]
  | .remove p => xs.erase p
  | _ => xs

theorem RunQueue.step {op : SchedOp} (h : RunQueue s xs) (hs : QueueStep s op s') : RunQueue s' (queueSpec xs op) := by
  obtain ⟨⟨fuel, hexec⟩, hop⟩ := hs
  cases op with
  | add p =>
      obtain ⟨hp, hr, hnew⟩ := hop
      cases hexec
      exact h.add hp hr (fun hmem => hnew (h.queued_iff.mpr hmem))
  | remove p =>
      have hmem := h.queued_iff.mp hop
      cases hexec
      obtain ⟨ys, zs, rfl⟩ := List.append_of_mem hmem
      have hpys : p ∉ ys := fun hy => (List.nodup_append.mp h.nodup).2.2 p hy p List.mem_cons_self rfl
      have herase : (ys ++ p :: zs).erase p = ys ++ zs := by
        rw [List.erase_append_right _ hpys, List.erase_cons_head]
      show RunQueue _ ((ys ++ p :: zs).erase p)
      rw [herase]
      exact h.remove
  | create | tick | yield | sleep | wake | exit | kill | signal | compute => exact hop.elim

/-- The links, the ends and the counter of the queue agree with the list `xs`. -/
structure WellLinked (s : Sched) (xs : List ℕ) : Prop where
  forward : Chain (fun p => (s.procs p).next) 0 s.head xs
  backward : Chain (fun p => (s.procs p).prev) 0 s.tail xs.reverse
  once : xs.Nodup
  head_prev : s.head ≠ 0 → (s.procs s.head).prev = 0
  tail_next : s.tail ≠ 0 → (s.procs s.tail).next = 0
  count : s.count = xs.length

theorem RunQueue.wellLinked (h : RunQueue s xs) : WellLinked s xs := by
  have hne : ∀ p ∈ xs, p ≠ 0 := fun p hp => (h.process p hp).1
  refine ⟨h.queue, ?_, h.nodup, ?_, ?_, h.count⟩
  · rw [h.tail_eq]
    exact h.links.chain_prev hne
  · rw [h.head_eq]
    cases xs with
    | nil => exact fun h0 => absurd rfl h0
    | cons x xs => exact fun _ => h.links.1
  · rw [h.tail_eq]
    rcases List.eq_nil_or_concat xs with rfl | ⟨ys, a, rfl⟩
    · exact fun h0 => absurd rfl h0
    · have hl := h.links
      rw [List.concat_eq_append] at *
      rw [List.getLastD_concat]
      exact fun _ => (seg_append.mp hl).2.2.1

/-- **The run queue is a well-formed doubly linked list** after any sequence of `sched_add` of ready
processes that are not queued and `sched_remove` of queued ones, from the empty queue: the walk from
`head` visits the queued processes in order of insertion, the walk from `tail` in the opposite
order, each once, and `count` is their number. -/
theorem run_queue_well_linked {ops : List SchedOp} (hhead : s.head = 0) (htail : s.tail = 0) (hcount : s.count = 0)
    (hrun : Run QueueStep s ops s') : WellLinked s' (ops.foldl queueSpec []) := by
  have h0 : RunQueue s [] := ⟨hhead, htail, trivial, by simp, List.nodup_nil, hcount⟩
  have hstep : ∀ s xs op s', RunQueue s xs → QueueStep s op s' → RunQueue s' (queueSpec xs op) :=
    fun _ _ _ _ h hs => h.step hs
  exact (hrun.simulation hstep h0).wellLinked

/-- Two ready processes are queued, and the first one is removed. -/
theorem run_queue_two_processes :
    let s : Sched := { boot 0x80000 0x1000 {} with procs := fun _ => { state := .READY } }
    ∃ s', Run QueueStep s [.add 5, .add 7, .remove 5] s' ∧ WellLinked s' [7] := by
  intro s
  have hp : ∀ p, p = 5 ∨ p = 7 → IsProcess p := by
    rintro p (rfl | rfl) <;> exact ⟨by decide, by decide⟩
  have h0 : RunQueue s [] := ⟨rfl, rfl, trivial, by simp, List.nodup_nil, rfl⟩
  have h1 : RunQueue (s.schedAdd 5) [5] := h0.add (hp 5 (.inl rfl)) rfl (by simp)
  have hready : ((s.schedAdd 5).procs 7).state = .READY := by decide +kernel
  have h2 : RunQueue ((s.schedAdd 5).schedAdd 7) [5, 7] := h1.add (hp 7 (.inr rfl)) hready (by simp)
  have hrun : Run QueueStep s [.add 5, .add 7, .remove 5] (((s.schedAdd 5).schedAdd 7).schedRemove 5) := by
    refine .cons ⟨⟨0, rfl⟩, hp 5 (.inl rfl), rfl, ?_⟩ (.cons ⟨⟨0, rfl⟩, hp 7 (.inr rfl), hready, ?_⟩
      (.single ⟨⟨0, rfl⟩, ?_⟩))
    · rw [h0.queued_iff]
      simp
    · rw [h1.queued_iff]
      simp
    · exact h2.queued_iff.mpr (by simp)
  exact ⟨_, hrun, run_queue_well_linked rfl rfl rfl hrun⟩

end Sched
end HeroOS
