import HeroOS.SchedRuns

/-! # Virtual time over whole runs

What ticks and yields do to the accounts of the processes, and how far two queued processes can
drift apart:

* `TimeStep.effect`: a tick charges the current process, and at the end of a time slice, as at
  every yield, the first runnable process with the lowest virtual time becomes the current one;
* `vruntime_spread_bounded`: the virtual times of runnable processes stay within one time slice at
  the largest weight, 2560, of their initial spread;
* `priority_served_while_tolerable`: the weight `255 - priority + 1` is the larger the higher the
  priority, so the process with the lower priority is served more; it is at most one time slice
  ahead only until the difference of the weights has added up to one of its own slices. -/

namespace HeroOS

open Word Sched

variable {s s' s₀ s₁ : Sched} {op : SchedOp} {p q r fuel : ℕ} {xs : List ℕ}

namespace Sched

/-! ### The accounts -/

/-- The fields of a process that the choice of the next process does not write. -/
def account (q : Process) : ℕ × ℕ × ℕ × ℕ := (q.priority, q.vruntime, q.runtimeTicks, q.next)

theorem account_eq_iff {a b : Process} : account a = account b ↔
    a.priority = b.priority ∧ a.vruntime = b.vruntime ∧ a.runtimeTicks = b.runtimeTicks ∧ a.next = b.next := by
  simp [account]

theorem setState_account (s : Sched) (p q : ℕ) (st : ProcState) :
    account ((s.setState p st).procs q) = account (s.procs q) :=
  update_field account s p q (fun q => { q with state := st }) (fun _ => rfl)

theorem contextSwitch_account (s : Sched) (site : CodeAddr) (old new p : ℕ) :
    account ((s.contextSwitch site old new).procs p) = account (s.procs p) :=
  update_field account s old p (fun q => { q with context := s.cpu.save q.context site }) (fun _ => rfl)

theorem switchTo_account (s : Sched) (site : CodeAddr) (next p : ℕ) :
    account ((s.switchTo site next).procs p) = account (s.procs p) := by
  unfold switchTo
  rw [contextSwitch_account, setState_account]

theorem preempt_account (s : Sched) (p : ℕ) : account (s.preempt.procs p) = account (s.procs p) := by
  unfold preempt
  split
  · exact setState_account s s.current p .READY
  · rfl

theorem tickAccount_account (h : s.tickAccount fuel = .ok s') (p : ℕ) :
    account (s'.procs p) = account (if p = s.current then charge (s.procs p) else s.procs p) := by
  obtain ⟨procs, rfl, hprocs⟩ := tickAccount_spec h
  have hu : (s.update s.current charge).procs p = if p = s.current then charge (s.procs p) else s.procs p := by
    by_cases hp : p = s.current
    · subst hp
      simp
    · simp [hp]
  dsimp only
  rw [← hu]
  obtain hp | ⟨_, hp⟩ := hprocs p
  · rw [hp]
  · rw [hp]
    rfl

/-- A queue depends on its head and on the links. -/
theorem Queue.congr (h : s.Queue xs) (hhead : s'.head = s.head)
    (hnext : ∀ p, (s'.procs p).next = (s.procs p).next) : s'.Queue xs := by
  unfold Queue
  rw [hhead]
  exact LinkedList.Chain.congr h (fun p _ => hnext p)

/-! ### The first process with the lowest virtual time -/

variable {procs : ℕ → Process} {best : ℕ}

/-- A candidate that has been replaced is later in virtual time, and so is every ready process
before the one that is chosen. -/
theorem foldl_better_first (hne : ∀ x ∈ xs, x ≠ 0) (hr : xs.foldl (better procs) best ≠ best) :
    (best ≠ 0 → (procs (xs.foldl (better procs) best)).vruntime < (procs best).vruntime) ∧
    ∃ ys zs, xs = ys ++ xs.foldl (better procs) best :: zs ∧
      ∀ y ∈ ys, (procs y).state = .READY → (procs (xs.foldl (better procs) best)).vruntime < (procs y).vruntime := by
  induction xs generalizing best with
  | nil => exact absurd rfl hr
  | cons y ys ih =>
      have hne' : ∀ x ∈ ys, x ≠ 0 := fun x hx => hne x (List.mem_cons_of_mem _ hx)
      have hy : y ≠ 0 := hne y List.mem_cons_self
      rw [List.foldl_cons] at hr ⊢
      by_cases hlast : ys.foldl (better procs) (better procs best y) = better procs best y
      · rw [hlast] at hr ⊢
        unfold better at hr ⊢
        split at hr
        · rename_i hb
          rw [if_pos hb]
          exact ⟨fun h0 => hb.2.resolve_left h0, [], ys, rfl, by simp⟩
        · exact absurd rfl hr
      · obtain ⟨hlt, zs, ws, hsplit, hzs⟩ := ih hne' hlast
        generalize ys.foldl (better procs) (better procs best y) = r at *
        refine ⟨fun h0 => ?_, y :: zs, ws, by rw [hsplit]; rfl, ?_⟩
        · obtain ⟨hne, hle⟩ := better_le_best hy h0
          exact (hlt hne).trans_le hle
        · intro z hz hs
          obtain rfl | hz := List.mem_cons.mp hz
          · obtain ⟨hne, hle⟩ := better_le_ready hy hs
            exact (hlt hne).trans_le hle
          · exact hzs z hz hs

/-- With a ready process in the queue, `pick_next` returns the first one with the lowest virtual
time. -/
theorem pickNext_first (h : s.pickNext fuel = .ok r) (hq : s.Queue xs) (hp : p ∈ xs)
    (hready : (s.procs p).state = .READY) : r ∈ xs ∧ (s.procs r).vruntime ≤ (s.procs p).vruntime ∧
      (xs.idxOf p < xs.idxOf r → (s.procs r).vruntime < (s.procs p).vruntime) := by
  have hhead : s.head ≠ 0 := by
    intro h0
    have hnil : s.Queue [] := h0
    rw [hq.unique hnil] at hp
    cases hp
  unfold pickNext at h
  rw [if_neg hhead] at h
  obtain ⟨best, hb, h⟩ := bind_eq_ok.mp h
  obtain ⟨xs', hx, _, hfold⟩ := pickLoop_eq_ok.mp hb
  obtain rfl := LinkedList.Chain.unique hx hq
  have hne : ∀ x ∈ xs', x ≠ 0 := fun x hx' => hx.ne_null hx'
  obtain ⟨hb0, hle⟩ := (foldl_better_spec s.procs 0 hne).2.2 p hp hready
  obtain ⟨_, ys, zs, hsplit, hys⟩ := foldl_better_first hne hb0
  rw [← hfold] at hb0 hle hsplit hys
  obtain rfl : best = r := by
    rw [if_pos hb0] at h
    exact Except.ok.inj h
  refine ⟨?_, hle, ?_⟩
  · rw [hsplit]
    simp
  · intro hlt
    apply hys p _ hready
    rw [hsplit] at hlt
    by_contra hnot
    have hp' : ys.length ≤ (ys ++ best :: zs).idxOf p := by
      rw [List.idxOf_append_of_notMem hnot]
      exact Nat.le_add_right _ _
    have hr' : (ys ++ best :: zs).idxOf best ≤ ys.length := by
      by_cases hm : best ∈ ys
      · rw [List.idxOf_append_of_mem hm]
        exact List.idxOf_le_length
      · rw [List.idxOf_append_of_notMem hm]
        simp
    omega

/-! ### What a tick and a yield do -/

/-- The process can be chosen, or runs. -/
def Runnable (s : Sched) (p : ℕ) : Prop :=
  (s.procs p).state = .READY ∨ (s.procs p).state = .RUNNING ∧ p = s.current

/-- Once the current process gives up the CPU, all runnable processes are ready. -/
theorem Runnable.yield (h : s.Runnable p) : ((s.setState s.current .READY).procs p).state = .READY := by
  rw [setState_state]
  split
  · rfl
  · rename_i hne
    exact h.resolve_right (fun h => hne h.2)

/-- At the end of a time slice, all runnable processes are ready. -/
theorem Runnable.preempt (h : s.Runnable p) : (s.preempt.procs p).state = .READY := by
  unfold Sched.preempt
  split
  · exact h.yield
  · rename_i hr
    obtain h | ⟨h, rfl⟩ := h
    · exact h
    · exact absurd h hr

/-- The wake-up loop does not touch the runnable processes. -/
theorem Runnable.tickAccount {t : ℕ} (h : s.Runnable p) (ht : Sched.tickAccount fuel { s with tick := t } = .ok s₁) :
    s₁.Runnable p := by
  have hsame : (s₁.procs p).state = (s.procs p).state := by
    apply (tickAccount_state ht p).resolve_right
    rintro ⟨hs, _⟩
    have hs : (s.procs p).state = .SLEEPING := hs
    unfold Runnable at h
    rw [hs] at h
    simp at h
  obtain ⟨procs, rfl, _⟩ := tickAccount_spec ht
  unfold Runnable
  rw [hsame]
  exact h

/-- The current process is the first one with the lowest virtual time among the processes `P`. -/
def Earliest (s : Sched) (P : ℕ → Prop) : Prop :=
  ∀ xs, s.Queue xs → ∀ p ∈ xs, P p → s.current ∈ xs ∧
    (s.procs s.current).vruntime ≤ (s.procs p).vruntime ∧
    (xs.idxOf p < xs.idxOf s.current → (s.procs s.current).vruntime < (s.procs p).vruntime)

/-- The end of a tick or a yield, when the processes `P` are ready. -/
theorem reschedule_effect {site : CodeAddr} {P : ℕ → Prop} (h : s.reschedule fuel site = .ok s')
    (hP : ∀ p, P p → (s.procs p).state = .READY) :
    (∀ p, account (s'.procs p) = account (s.procs p)) ∧ s'.head = s.head ∧
      (∀ p, P p → s'.Runnable p) ∧ s'.Earliest P := by
  unfold reschedule at h
  obtain ⟨next, hn, h⟩ := bind_eq_ok.mp h
  have hpick : ∀ xs, s.Queue xs → ∀ p ∈ xs, P p → next ∈ xs ∧ (s.procs next).vruntime ≤ (s.procs p).vruntime ∧
      (xs.idxOf p < xs.idxOf next → (s.procs next).vruntime < (s.procs p).vruntime) :=
    fun xs hq p hp hPp => pickNext_first hn hq hp (hP p hPp)
  obtain rfl := Except.ok.inj h
  split
  · have hacc := switchTo_account s site next
    refine ⟨hacc, rfl, ?_, ?_⟩
    · intro p hPp
      unfold Runnable
      rw [switchTo_state, switchTo_current]
      by_cases hp : p = next
      · exact .inr ⟨if_pos hp, hp⟩
      · rw [if_neg hp]
        exact .inl (hP p hPp)
    · intro xs hq p hp hPp
      have hq : s.Queue xs := hq.congr rfl (fun p => (account_eq_iff.mp (hacc p)).2.2.2.symm)
      have hv : ∀ p, ((s.switchTo site next).procs p).vruntime = (s.procs p).vruntime :=
        fun p => (account_eq_iff.mp (hacc p)).2.1
      rw [switchTo_current, hv, hv]
      exact hpick xs hq p hp hPp
  · rename_i hstay
    refine ⟨fun _ => rfl, rfl, fun p hPp => .inl (hP p hPp), ?_⟩
    intro xs hq p hp hPp
    have hnext := hpick xs hq p hp hPp
    have hcur : next = s.current := by
      by_contra hne
      exact hstay ⟨LinkedList.Chain.ne_null hq hnext.1, hne⟩
    rwa [hcur] at hnext

/-- The process `p` after the charge of the call `op`. -/
def charged (s : Sched) (op : SchedOp) (p : ℕ) : Process :=
  if op = .tick ∧ p = s.current ∧ p ≠ 0 then charge (s.procs p) else s.procs p

/-- What a tick or a yield does to the accounts, the queue and the choice of the current process. -/
structure TimeEffect (s : Sched) (op : SchedOp) (s' : Sched) : Prop where
  account : ∀ p, account (s'.procs p) = account (s.charged op p)
  head : s'.head = s.head
  runnable : ∀ p, s.Runnable p → s'.Runnable p
  choice : (s'.current = s.current ∧ (op = .tick → s.current ≠ 0 →
      (s'.procs s.current).runtimeTicks % SCHED_DEFAULT_QUANTUM ≠ 0)) ∨
    ((op = .tick → (s'.procs s.current).runtimeTicks % SCHED_DEFAULT_QUANTUM = 0) ∧ s'.Earliest s.Runnable)

end Sched

open Sched

/-- The timer interrupt and the voluntary yield. -/
def TimeStep (s : Sched) (op : SchedOp) (s' : Sched) : Prop := (op = .tick ∨ op = .yield) ∧ SchedStep s op s'

theorem yield_effect (h : SchedStep s .yield s') : TimeEffect s .yield s' := by
  obtain ⟨fuel, h⟩ := h
  have hch : ∀ p, s.charged .yield p = s.procs p := fun p => if_neg (by simp)
  rw [exec, schedYield] at h
  split at h
  · cases h
    exact ⟨fun p => by rw [hch], rfl, fun _ h => h, .inl ⟨rfl, by simp⟩⟩
  · obtain ⟨hacc, hhead, hrun, hcur⟩ := reschedule_effect h (fun p (hp : s.Runnable p) => hp.yield)
    refine ⟨fun p => ?_, hhead, hrun, .inr ⟨by simp, hcur⟩⟩
    rw [hacc, hch, setState_account]

theorem tick_effect (h : SchedStep s .tick s') : TimeEffect s .tick s' := by
  obtain ⟨fuel, h⟩ := h
  rw [exec, schedTick] at h
  dsimp only at h
  split at h
  · rename_i h0
    cases h
    refine ⟨fun p => ?_, rfl, fun _ h => h, .inl ⟨rfl, fun _ h => absurd h0 h⟩⟩
    unfold charged
    rw [if_neg (by rw [h0]; simp)]
  · rename_i h0
    obtain ⟨s₁, ht, h⟩ := bind_eq_ok.mp h
    have hacc₁ : ∀ p, account (s₁.procs p) = account (s.charged .tick p) := by
      intro p
      rw [tickAccount_account ht]
      unfold charged
      by_cases hp : p = s.current
      · rw [if_pos hp, if_pos ⟨rfl, hp, hp ▸ h0⟩]
      · rw [if_neg hp, if_neg (by simp [hp])]
    have hrun₁ : ∀ p, s.Runnable p → s₁.Runnable p := fun p hp => hp.tickAccount ht
    obtain ⟨procs, rfl, _⟩ := tickAccount_spec ht
    have hticks : ∀ {s'' : Sched}, (∀ p, account (s''.procs p) = account (procs p)) →
        (s''.procs s.current).runtimeTicks = (procs s.current).runtimeTicks :=
      fun h => (account_eq_iff.mp (h s.current)).2.2.1
    split at h
    · rename_i hexp
      obtain ⟨hacc, hhead, hrun, hcur⟩ := reschedule_effect h (fun p hp => (hrun₁ p hp).preempt)
      have hacc' : ∀ p, account (s'.procs p) = account (procs p) := by
        intro p
        rw [hacc, preempt_account]
      refine ⟨fun p => (hacc' p).trans (hacc₁ p), ?_, hrun, .inr ⟨fun _ => ?_, hcur⟩⟩
      · rw [hhead]
        unfold preempt
        split <;> rfl
      · rw [hticks hacc']
        exact hexp
    · rename_i hexp
      cases h
      exact ⟨hacc₁, rfl, hrun₁, .inl ⟨rfl, fun _ _ => hexp⟩⟩

theorem TimeStep.effect (h : TimeStep s op s') : TimeEffect s op s' := by
  obtain ⟨rfl | rfl, h⟩ := h
  · exact tick_effect h
  · exact yield_effect h

/-! ### Calls return -/

theorem wakeLoop_returns (tick : ℕ) {cur : ℕ} {procs : ℕ → Process}
    (h : LinkedList.Chain (fun p => (procs p).next) 0 cur xs) (hlen : xs.length < fuel) :
    ∃ procs', wakeLoop tick fuel procs cur = .ok procs' := by
  induction xs generalizing fuel procs cur with
  | nil =>
      obtain ⟨k, rfl⟩ : ∃ k, fuel = k + 1 := ⟨fuel - 1, by omega⟩
      have h0 : cur = 0 := h
      exact ⟨procs, if_pos h0⟩
  | cons x xs ih =>
      obtain ⟨k, rfl⟩ : ∃ k, fuel = k + 1 := ⟨fuel - 1, by omega⟩
      obtain ⟨rfl, hx, h⟩ := h
      rw [wakeLoop, if_neg hx]
      have hnext : ∀ (p : ℕ) (b : Prop) [Decidable b],
          ((if b then Function.update procs cur { procs cur with state := .READY } else procs) p).next =
            (procs p).next := by
        intro p b _
        split
        · by_cases hp : p = cur
          · subst hp
            simp
          · simp [hp]
        · rfl
      apply ih
      · rw [hnext]
        exact h.congr (fun p _ => hnext p _)
      · exact Nat.lt_of_succ_lt_succ hlen

theorem reschedule_returns (site : CodeAddr) (hq : s.Queue xs) (hlen : xs.length < fuel) :
    ∃ s', s.reschedule fuel site = .ok s' := by
  have hpick : ∃ next, s.pickNext fuel = .ok next := by
    unfold pickNext
    split
    · exact ⟨_, rfl⟩
    · exact ⟨_, bind_eq_ok.mpr ⟨_, pickLoop_eq_ok.mpr ⟨xs, hq, hlen, rfl⟩, rfl⟩⟩
  obtain ⟨next, hn⟩ := hpick
  exact ⟨_, bind_eq_ok.mpr ⟨next, hn, rfl⟩⟩

/-- Ticks and yields return on every queue that ends. -/
theorem timeStep_returns (hq : s.Queue xs) (hop : op = .tick ∨ op = .yield) : ∃ s', TimeStep s op s' := by
  have hlen : xs.length < xs.length + 1 := Nat.lt_succ_self _
  obtain rfl | rfl := hop
  · by_cases h0 : s.current = 0
    · exact ⟨_, .inl rfl, 0, by rw [exec, schedTick]; exact if_pos h0⟩
    · let s₁ : Sched := ({ s with tick := wadd s.tick 1 } : Sched).update s.current charge
      have hq₁ : s₁.Queue xs := hq.congr rfl (fun p => update_field Process.next _ _ p charge (fun _ => rfl))
      obtain ⟨procs, hw⟩ := wakeLoop_returns s₁.tick hq₁ hlen
      have ht : ({ s with tick := wadd s.tick 1 } : Sched).tickAccount (xs.length + 1) =
          .ok { s₁ with procs := procs } := bind_eq_ok.mpr ⟨procs, hw, rfl⟩
      have hq₂ : ({ s₁ with procs := procs } : Sched).preempt.Queue xs := by
        refine hq.congr ?_ ?_
        · unfold preempt
          split <;> rfl
        · intro p
          have hp := (account_eq_iff.mp (preempt_account { s₁ with procs := procs } p)).2.2.2
          rw [hp]
          exact tickAccount_field Process.next (fun _ => rfl) (fun _ => rfl) ht p
      obtain ⟨s', hs'⟩ := reschedule_returns .schedTick hq₂ hlen
      by_cases hexp : Sched.sliceExpired { s₁ with procs := procs }
      · refine ⟨s', .inl rfl, xs.length + 1, ?_⟩
        rw [exec, schedTick]
        exact (if_neg h0).trans (bind_eq_ok.mpr ⟨_, ht, (if_pos hexp).trans hs'⟩)
      · refine ⟨{ s₁ with procs := procs }, .inl rfl, xs.length + 1, ?_⟩
        rw [exec, schedTick]
        exact (if_neg h0).trans (bind_eq_ok.mpr ⟨_, ht, if_neg hexp⟩)
  · by_cases h0 : s.current = 0
    · exact ⟨s, .inr rfl, 0, if_pos h0⟩
    · have hq₁ : (s.setState s.current .READY).Queue xs :=
        hq.congr rfl (fun p => (account_eq_iff.mp (setState_account s s.current p .READY)).2.2.2)
      obtain ⟨s', hs'⟩ := reschedule_returns .schedYield hq₁ hlen
      exact ⟨s', .inr rfl, xs.length + 1, (if_neg h0).trans hs'⟩

/-! ### The spread of the virtual times -/

/-- What one tick adds to the virtual time of a process. -/
def weight (q : Process) : ℕ := 256 - q.priority

theorem charge_vruntime {q : Process} (hp : q.priority ≤ 255) (hfit : q.vruntime + weight q < 2 ^ 32) :
    (charge q).vruntime = q.vruntime + weight q := by
  unfold weight at hfit ⊢
  unfold charge
  dsimp only
  omega

/-- Inside a time slice the counter of ticks moves on by one, also where it wraps. -/
theorem tick_in_slice {n : ℕ} (hn : n < 2 ^ 64) (h : wadd n 1 % SCHED_DEFAULT_QUANTUM ≠ 0) :
    wadd n 1 % 10 = n % 10 + 1 := by
  have hlt : n + 1 < 2 ^ 64 := by
    by_contra hge
    obtain rfl : n = 2 ^ 64 - 1 := by omega
    exact h rfl
  rw [wadd_of_lt hlt] at h ⊢
  unfold SCHED_DEFAULT_QUANTUM at h
  omega

/-- A run queue of runnable processes with valid priorities. -/
structure ReadyQueue (s : Sched) (xs : List ℕ) : Prop where
  queue : s.Queue xs
  runnable : ∀ p ∈ xs, s.Runnable p
  priority : ∀ p ∈ xs, (s.procs p).priority ≤ 255
  ticks : ∀ p ∈ xs, (s.procs p).runtimeTicks < 2 ^ 64

/-- A tick or a yield that takes no virtual time of the processes `xs` to `2 ^ 32`. -/
def FairStep (xs : List ℕ) (s : Sched) (op : SchedOp) (s' : Sched) : Prop :=
  TimeStep s op s' ∧ (op = .tick → s.current ∈ xs →
    (s.procs s.current).vruntime + weight (s.procs s.current) < 2 ^ 32)

theorem Sched.TimeEffect.queue (e : TimeEffect s op s') (hq : s.Queue xs) : s'.Queue xs := by
  refine hq.congr e.head fun p => ?_
  rw [(account_eq_iff.mp (e.account p)).2.2.2]
  unfold charged
  split <;> rfl

theorem Sched.TimeEffect.priority (e : TimeEffect s op s') (p : ℕ) : (s'.procs p).priority = (s.procs p).priority := by
  rw [(account_eq_iff.mp (e.account p)).1]
  unfold charged
  split <;> rfl

/-- Only a tick changes an account, and only that of the current process. -/
theorem Sched.TimeEffect.unchanged (e : TimeEffect s op s') (h : ¬ (op = .tick ∧ p = s.current)) :
    (s'.procs p).vruntime = (s.procs p).vruntime ∧ (s'.procs p).runtimeTicks = (s.procs p).runtimeTicks := by
  have hch : s.charged op p = s.procs p := if_neg (fun hc => h ⟨hc.1, hc.2.1⟩)
  obtain ⟨_, hv, ht, _⟩ := account_eq_iff.mp (e.account p)
  rw [hv, ht, hch]
  exact ⟨rfl, rfl⟩

theorem Sched.TimeEffect.charged_current (e : TimeEffect s .tick s') (h0 : s.current ≠ 0) :
    (s'.procs s.current).vruntime = (charge (s.procs s.current)).vruntime ∧
      (s'.procs s.current).runtimeTicks = wadd (s.procs s.current).runtimeTicks 1 := by
  have hch : s.charged .tick s.current = charge (s.procs s.current) := if_pos ⟨rfl, rfl, h0⟩
  obtain ⟨_, hv, ht, _⟩ := account_eq_iff.mp (e.account s.current)
  rw [hv, ht, hch]
  exact ⟨rfl, rfl⟩

theorem ReadyQueue.step (h : ReadyQueue s xs) (e : TimeEffect s op s') : ReadyQueue s' xs := by
  refine ⟨e.queue h.queue, fun p hp => e.runnable p (h.runnable p hp), ?_, ?_⟩
  · intro p hp
    rw [e.priority]
    exact h.priority p hp
  · intro p hp
    by_cases hc : op = .tick ∧ p = s.current
    · obtain ⟨rfl, rfl⟩ := hc
      rw [(e.charged_current (h.queue.ne_null hp)).2]
      exact wadd_lt _ _
    · rw [(e.unchanged hc).2]
      exact h.ticks p hp

/-- Pairs of queued processes are within the bound, and the current process stays within it for
the rest of its time slice. -/
structure Spread (D : ℕ) (xs : List ℕ) (s : Sched) : Prop where
  ready : ReadyQueue s xs
  pairs : ∀ i ∈ xs, ∀ j ∈ xs, (s.procs i).vruntime ≤ (s.procs j).vruntime + D + 2560
  slice : s.current ∈ xs → ∀ j ∈ xs, (s.procs s.current).vruntime +
    256 * (10 - (s.procs s.current).runtimeTicks % 10) ≤ (s.procs j).vruntime + D + 2560

theorem Spread.step {D : ℕ} (h : Spread D xs s) (hs : FairStep xs s op s') : Spread D xs s' := by
  obtain ⟨hstep, hfit⟩ := hs
  have e := hstep.effect
  have hcharge : op = .tick → s.current ∈ xs → ∃ w, w ≤ 256 ∧
      (s'.procs s.current).vruntime = (s.procs s.current).vruntime + w ∧
      (s'.procs s.current).runtimeTicks = wadd (s.procs s.current).runtimeTicks 1 := by
    rintro rfl hc
    obtain ⟨hv, ht⟩ := e.charged_current (h.ready.queue.ne_null hc)
    rw [charge_vruntime (h.ready.priority _ hc) (hfit rfl hc)] at hv
    exact ⟨_, Nat.sub_le _ _, hv, ht⟩
  have hmono : ∀ p ∈ xs, (s.procs p).vruntime ≤ (s'.procs p).vruntime := by
    intro p hp
    by_cases hc : op = .tick ∧ p = s.current
    · obtain ⟨hop, rfl⟩ := hc
      obtain ⟨w, _, hv, _⟩ := hcharge hop hp
      omega
    · exact (e.unchanged hc).1.ge
  refine ⟨h.ready.step e, ?_, ?_⟩
  · intro i hi j hj
    have hj' := hmono j hj
    by_cases hc : op = .tick ∧ i = s.current
    · obtain ⟨hop, rfl⟩ := hc
      obtain ⟨w, hw, hv, _⟩ := hcharge hop hi
      have hslice := h.slice hi j hj
      omega
    · have hi' := (e.unchanged hc).1
      have hpair := h.pairs i hi j hj
      omega
  · intro hc j hj
    have hj' := hmono j hj
    obtain ⟨hcur, hslice⟩ | ⟨_, hmin⟩ := e.choice
    · rw [hcur] at hc ⊢
      have hold := h.slice hc j hj
      by_cases hop : op = .tick
      · obtain ⟨w, hw, hv, ht⟩ := hcharge hop hc
        have hne := hslice hop (h.ready.queue.ne_null hc)
        have hlt := h.ready.ticks _ hc
        rw [ht] at hne ⊢
        rw [tick_in_slice hlt hne]
        have hmod := Nat.mod_lt (s.procs s.current).runtimeTicks (y := 10) (by norm_num)
        omega
      · obtain ⟨hv, ht⟩ := e.unchanged (p := s.current) (fun h => hop h.1)
        rw [hv, ht]
        omega
    · obtain ⟨_, hle, _⟩ := hmin xs (e.queue h.ready.queue) j hj (h.ready.runnable j hj)
      omega

/-- **No runnable process falls behind.**  From every state whose run queue `xs` ends and holds
runnable processes of priority at most 255, whatever the current process is: after any ticks and
yields that take no virtual time to `2 ^ 32`, the queue is the same and the virtual times of two
queued processes differ by at most 2560 more than the largest initial difference `D`. -/
theorem vruntime_spread_bounded {D : ℕ} {ops : List SchedOp} (h : ReadyQueue s xs)
    (hD : ∀ i ∈ xs, ∀ j ∈ xs, (s.procs i).vruntime ≤ (s.procs j).vruntime + D)
    (hrun : Run (FairStep xs) s ops s') :
    s'.Queue xs ∧ ∀ i ∈ xs, ∀ j ∈ xs,
      ((s'.procs i).vruntime : ℤ) - (s'.procs j).vruntime ≤ D + 2560 := by
  have h0 : Spread D xs s := by
    refine ⟨h, ?_, ?_⟩
    · intro i hi j hj
      exact (hD i hi j hj).trans (Nat.le_add_right _ _)
    · intro hc j hj
      have := hD _ hc j hj
      omega
  have hI : Spread D xs s' := hrun.invariant (fun _ _ _ => Spread.step) h0
  refine ⟨hI.ready.queue, fun i hi j hj => ?_⟩
  have := hI.pairs i hi j hj
  omega

/-- Two threads with the given priorities, created and queued after the start of the kernel. -/
def twoThreads (prio prio' : ℕ) : Sched :=
  ((((boot 0x80000 0x1000 {}).procCreate { thread with priority := prio }).1.procCreate
    { thread with priority := prio' }).1.schedAdd 2).schedAdd 3
where
  thread : CreateArgs := kernelThread 0x2000 0x100000 0x200000 true

theorem queue_twoThreads (prio prio' : ℕ) : (twoThreads prio prio').Queue [2, 3] :=
  ⟨rfl, by decide, rfl, by decide, rfl⟩

/-- Executable form of `FairStep`. -/
def fairExec (fuel : ℕ) (xs : List ℕ) (s : Sched) (op : SchedOp) : Option Sched :=
  if (op = .tick ∨ op = .yield) ∧ (op = .tick → s.current ∈ xs →
      (s.procs s.current).vruntime + weight (s.procs s.current) < 2 ^ 32) then (s.exec fuel op).toOption
  else none

theorem FairStep.of_fairExec (h : fairExec fuel xs s op = some s') : FairStep xs s op s' := by
  unfold fairExec at h
  split at h
  · rename_i hc
    exact ⟨⟨hc.1, fuel, toOption_eq_some.mp h⟩, hc.2⟩
  · cases h

/-- Two threads of different priorities, and a yield in the middle of a time slice. -/
theorem vruntime_spread_two_threads :
    ∃ s', Run (FairStep [2, 3]) (twoThreads 0 200) (List.replicate 14 .tick ++ .yield :: List.replicate 15 .tick) s' ∧
      (s'.procs 2).vruntime = 1024 ∧ (s'.procs 3).vruntime = 840 ∧
      ((s'.procs 2).vruntime : ℤ) - (s'.procs 3).vruntime ≤ 2560 := by
  have h : (List.foldlM (fairExec 8 [2, 3]) (twoThreads 0 200)
      (List.replicate 14 .tick ++ .yield :: List.replicate 15 .tick)).any
      (fun s' => decide ((s'.procs 2).vruntime = 1024 ∧ (s'.procs 3).vruntime = 840)) = true := by decide +kernel
  obtain ⟨s', hs', hv⟩ := (Option.any_eq_true _ _).mp h
  have hv := of_decide_eq_true hv
  have hrun : Run (FairStep [2, 3]) (twoThreads 0 200) _ s' := Run.of_exec (fun _ _ _ => FairStep.of_fairExec) hs'
  have hready : ReadyQueue (twoThreads 0 200) [2, 3] := by
    refine ⟨queue_twoThreads 0 200, fun p hp => .inl ?_, ?_, ?_⟩
    · revert p
      decide +kernel
    · decide +kernel
    · decide +kernel
  have hD : ∀ i ∈ [2, 3], ∀ j ∈ [2, 3],
      ((twoThreads 0 200).procs i).vruntime ≤ ((twoThreads 0 200).procs j).vruntime + 0 := by decide +kernel
  exact ⟨s', hrun, hv.1, hv.2, (vruntime_spread_bounded hready hD hrun).2 2 (by simp) 3 (by simp)⟩

/-! ### Priorities -/

/-- The ticks that a process has been charged since the state `s₀`. -/
def gained (s₀ s : Sched) (p : ℕ) : ℕ := (s.procs p).runtimeTicks - (s₀.procs p).runtimeTicks

/-- Two queued runnable processes, the first with the higher priority (the lower number), that
start even. -/
structure EvenStart (s : Sched) (xs : List ℕ) (a b : ℕ) : Prop where
  queue : s.Queue xs
  mem_a : a ∈ xs
  mem_b : b ∈ xs
  runnable_a : s.Runnable a
  runnable_b : s.Runnable b
  priority_lt : (s.procs a).priority < (s.procs b).priority
  priority_le : (s.procs b).priority ≤ 255
  vruntime_eq : (s.procs a).vruntime = (s.procs b).vruntime
  ticks_eq : (s.procs a).runtimeTicks = (s.procs b).runtimeTicks

/-- The virtual time of `g` ticks of `a` is below that of one time slice more of `b`; where it is the
same, `a` comes first in the queue. -/
def Tolerable (s : Sched) (xs : List ℕ) (a b g : ℕ) : Prop :=
  weight (s.procs a) * g < weight (s.procs b) * (g + 10) ∨
    xs.idxOf a < xs.idxOf b ∧ weight (s.procs a) * g = weight (s.procs b) * (g + 10)

instance (s : Sched) (xs : List ℕ) (a b g : ℕ) : Decidable (Tolerable s xs a b g) :=
  inferInstanceAs (Decidable (_ ∨ _))

/-- A tick that wraps no counter of `a` and `b`. -/
def CountedTick (a b : ℕ) (s : Sched) (op : SchedOp) (s' : Sched) : Prop :=
  op = .tick ∧ SchedStep s op s' ∧ (s.current = a ∨ s.current = b →
    (s.procs s.current).runtimeTicks + 1 < 2 ^ 64 ∧
      (s.procs s.current).vruntime + weight (s.procs s.current) < 2 ^ 32)

/-- Such a tick in a state where the difference of the weights is tolerable. -/
def TolerableTick (s₀ : Sched) (xs : List ℕ) (a b : ℕ) (s : Sched) (op : SchedOp) (s' : Sched) : Prop :=
  CountedTick a b s op s' ∧ Tolerable s₀ xs a b (gained s₀ s a)

/-- What a process has gained since `s₀`, and where its time slices ended. -/
structure Earned (s₀ s : Sched) (p : ℕ) : Prop where
  runnable : s.Runnable p
  priority : (s.procs p).priority = (s₀.procs p).priority
  ticks : (s.procs p).runtimeTicks = (s₀.procs p).runtimeTicks + gained s₀ s p
  vruntime : (s.procs p).vruntime = (s₀.procs p).vruntime + weight (s₀.procs p) * gained s₀ s p
  aligned : s.current ≠ p → gained s₀ s p = 0 ∨ (s.procs p).runtimeTicks % 10 = 0

theorem Earned.refl (h : s.Runnable p) : Earned s s p := by
  have hg : gained s s p = 0 := Nat.sub_self _
  exact ⟨h, rfl, by rw [hg, Nat.add_zero], by rw [hg, Nat.mul_zero, Nat.add_zero], fun _ => .inl hg⟩

/-- The ticks gained by the current process and by the others. -/
theorem Earned.gained_step (h : Earned s₀ s p) (e : TimeEffect s .tick s') (h0 : p ≠ 0)
    (hfit : s.current = p → (s.procs p).runtimeTicks + 1 < 2 ^ 64) :
    gained s₀ s' p = if s.current = p then gained s₀ s p + 1 else gained s₀ s p := by
  have ht := h.ticks
  unfold gained at ht ⊢
  split
  · rename_i hc
    subst hc
    rw [(e.charged_current h0).2, wadd_of_lt (hfit rfl)]
    omega
  · rename_i hc
    rw [(e.unchanged (fun h => hc h.2.symm)).2]

theorem Earned.step (h : Earned s₀ s p) (e : TimeEffect s .tick s') (h0 : p ≠ 0) (hp : (s.procs p).priority ≤ 255)
    (hfit : s.current = p → (s.procs p).runtimeTicks + 1 < 2 ^ 64 ∧ (s.procs p).vruntime + weight (s.procs p) < 2 ^ 32) :
    Earned s₀ s' p := by
  have hg := h.gained_step e h0 (fun hc => (hfit hc).1)
  have hw : weight (s.procs p) = weight (s₀.procs p) := by
    unfold weight
    rw [h.priority]
  have hprio := (e.priority p).trans h.priority
  by_cases hc : s.current = p
  · rw [if_pos hc] at hg
    obtain ⟨hticks, hvr⟩ := hfit hc
    obtain ⟨hv, ht⟩ := hc ▸ e.charged_current (hc.symm ▸ h0)
    rw [charge_vruntime hp hvr, h.vruntime, hw] at hv
    rw [wadd_of_lt hticks, h.ticks] at ht
    refine ⟨e.runnable p h.runnable, hprio, ?_, ?_, ?_⟩
    · rw [ht, hg, Nat.add_assoc]
    · rw [hv, hg, Nat.mul_add, Nat.mul_one, Nat.add_assoc]
    · intro hne
      obtain ⟨hsame, _⟩ | ⟨hexp, _⟩ := e.choice
      · exact absurd (hsame.trans hc) hne
      · exact .inr (hc ▸ hexp rfl)
  · rw [if_neg hc] at hg
    obtain ⟨hv, ht⟩ := e.unchanged (p := p) (fun h => hc h.2.symm)
    refine ⟨e.runnable p h.runnable, hprio, ?_, ?_, ?_⟩
    · rw [ht, hg, h.ticks]
    · rw [hv, hg, h.vruntime]
    · intro _
      rw [hg, ht]
      exact h.aligned hc

/-- When the next process is chosen, no process is inside a time slice. -/
theorem Earned.aligned_of_choice (h : Earned s₀ s p) (e : TimeEffect s .tick s') (h0 : p ≠ 0)
    (hfit : s.current = p → (s.procs p).runtimeTicks + 1 < 2 ^ 64)
    (hexp : (s'.procs s.current).runtimeTicks % SCHED_DEFAULT_QUANTUM = 0) :
    gained s₀ s' p = 0 ∨ (s'.procs p).runtimeTicks % 10 = 0 := by
  by_cases hc : s.current = p
  · exact .inr (hc ▸ hexp)
  · rw [h.gained_step e h0 hfit, if_neg hc, (e.unchanged (fun h => hc h.2.symm)).2]
    exact h.aligned hc

/-- The queue is as at the start and the two processes have earned what their counters say. -/
structure Counted (s₀ : Sched) (xs : List ℕ) (a b : ℕ) (s : Sched) : Prop where
  start : EvenStart s₀ xs a b
  queue : s.Queue xs
  earned_a : Earned s₀ s a
  earned_b : Earned s₀ s b

variable {a b : ℕ}

theorem EvenStart.ne (h : EvenStart s xs a b) : a ≠ b := by
  rintro rfl
  exact lt_irrefl _ h.priority_lt

theorem CountedTick.fits (h : CountedTick a b s op s') (hp : p = a ∨ p = b) (hc : s.current = p) :
    (s.procs p).runtimeTicks + 1 < 2 ^ 64 ∧ (s.procs p).vruntime + weight (s.procs p) < 2 ^ 32 := by
  have hfit := h.2.2
  rw [hc] at hfit
  exact hfit hp

theorem CountedTick.effect (h : CountedTick a b s op s') : TimeEffect s .tick s' := by
  obtain ⟨rfl, h, _⟩ := h
  exact tick_effect h

theorem Counted.step (h : Counted s₀ xs a b s) (hs : CountedTick a b s op s') : Counted s₀ xs a b s' := by
  have e := hs.effect
  have ha := h.start.priority_lt
  have hb := h.start.priority_le
  refine ⟨h.start, e.queue h.queue, ?_, ?_⟩
  · apply h.earned_a.step e (h.queue.ne_null h.start.mem_a) _ (hs.fits (.inl rfl))
    rw [h.earned_a.priority]
    omega
  · apply h.earned_b.step e (h.queue.ne_null h.start.mem_b) _ (hs.fits (.inr rfl))
    rw [h.earned_b.priority]
    exact hb

/-- At the end of a time slice a process with the lower virtual time has not gained more, as long
as the difference of the weights is tolerable. -/
theorem gained_le_of_tolerable {w w' g g' t v : ℕ} {P : Prop} (hw' : 0 < w')
    (hg : g = 0 ∨ (t + g) % 10 = 0) (hg' : g' = 0 ∨ (t + g') % 10 = 0)
    (hle : v + w' * g' ≤ v + w * g) (hlt : P → v + w' * g' < v + w * g)
    (htol : w * g < w' * (g + 10) ∨ P ∧ w * g = w' * (g + 10)) : g' ≤ g := by
  by_contra hgt
  have hgt : g < g' := not_le.mp hgt
  by_cases h0 : g = 0
  · subst h0
    have hpos : 0 < w' * g' := Nat.mul_pos hw' hgt
    omega
  · have hslice : g + 10 ≤ g' := by omega
    have hmul : w' * (g + 10) ≤ w' * g' := Nat.mul_le_mul_left w' hslice
    obtain h | ⟨hP, h⟩ := htol
    · omega
    · have := hlt hP
      omega

/-- The lower priority is at most one time slice ahead, and stays so for the rest of its own. -/
structure Lead (s₀ : Sched) (xs : List ℕ) (a b : ℕ) (s : Sched) : Prop where
  counted : Counted s₀ xs a b s
  lead : gained s₀ s b ≤ gained s₀ s a + 10
  slice : s.current = b → Tolerable s₀ xs a b (gained s₀ s a) →
    gained s₀ s b + (10 - (s.procs b).runtimeTicks % 10) ≤ gained s₀ s a + 10

/-- The lower priority is chosen only when it has not gained more. -/
theorem Counted.chosen (h : Counted s₀ xs a b s) (hs : CountedTick a b s op s')
    (hexp : (s'.procs s.current).runtimeTicks % SCHED_DEFAULT_QUANTUM = 0) (hmin : s'.Earliest s.Runnable)
    (hb : s'.current = b) (htol : Tolerable s₀ xs a b (gained s₀ s' a)) : gained s₀ s' b ≤ gained s₀ s' a := by
  have h' := h.step hs
  have hfit := hs.fits (p := a) (.inl rfl)
  have hfit' := hs.fits (p := b) (.inr rfl)
  have haa := h.earned_a.aligned_of_choice hs.effect (h.queue.ne_null h.start.mem_a) (fun hc => (hfit hc).1) hexp
  have hab := h.earned_b.aligned_of_choice hs.effect (h.queue.ne_null h.start.mem_b) (fun hc => (hfit' hc).1) hexp
  obtain ⟨_, hle, hlt⟩ := hmin xs h'.queue a h.start.mem_a h.earned_a.runnable
  rw [hb, h'.earned_a.vruntime, h'.earned_b.vruntime, h.start.vruntime_eq] at hle hlt
  rw [h'.earned_a.ticks, h.start.ticks_eq] at haa
  rw [h'.earned_b.ticks] at hab
  refine gained_le_of_tolerable ?_ haa hab hle hlt htol
  have := h.start.priority_le
  unfold weight
  omega

theorem Lead.step (h : Lead s₀ xs a b s) (hs : TolerableTick s₀ xs a b s op s') : Lead s₀ xs a b s' := by
  obtain ⟨hs, htol⟩ := hs
  have hc := h.counted
  have hc' := hc.step hs
  have e := hs.effect
  have hb0 : b ≠ 0 := hc.queue.ne_null hc.start.mem_b
  have hga := hc.earned_a.gained_step e (hc.queue.ne_null hc.start.mem_a) (fun h => (hs.fits (.inl rfl) h).1)
  have hgb := hc.earned_b.gained_step e hb0 (fun h => (hs.fits (.inr rfl) h).1)
  have hne := hc.start.ne
  have hlead := h.lead
  refine ⟨hc', ?_, ?_⟩
  · by_cases hcur : s.current = b
    · have hslice := h.slice hcur htol
      rw [if_neg (fun h => hne (h.symm.trans hcur))] at hga
      rw [if_pos hcur] at hgb
      omega
    · rw [if_neg hcur] at hgb
      split at hga <;> omega
  · intro hcur htol'
    obtain ⟨hsame, hin⟩ | ⟨hexp, hmin⟩ := e.choice
    · have hcur : s.current = b := hsame.symm.trans hcur
      have hslice := h.slice hcur htol
      rw [if_neg (fun h => hne (h.symm.trans hcur))] at hga
      rw [if_pos hcur] at hgb
      have hmod := hin rfl (hcur.symm ▸ hb0)
      rw [hcur] at hmod
      have ht := hc.earned_b.ticks
      have ht' := hc'.earned_b.ticks
      unfold SCHED_DEFAULT_QUANTUM at hmod
      omega
    · have := hc.chosen hs (hexp rfl) hmin hcur htol'
      omega

/-- **How long priorities are respected.**  Two runnable processes start even, the first with the
higher priority.  As long as the ticks that it gains weigh less than one time slice more of the
other (or the same, when it is first in the queue), the other is never more than 10 ticks ahead.
And no longer: whenever the first is given the CPU back and the other is not more than 10 ticks
ahead, the condition still holds. -/
theorem priority_served_while_tolerable (h : EvenStart s xs a b) :
    (∀ ops s', Run (TolerableTick s xs a b) s ops s' → gained s s' b ≤ gained s s' a + 10) ∧
    ∀ ops s₁ s', Run (CountedTick a b) s ops s₁ → CountedTick a b s₁ .tick s' → s₁.current ≠ a →
      s'.current = a → gained s s' b ≤ gained s s' a + 10 → Tolerable s xs a b (gained s s' a) := by
  have h0 : Counted s xs a b s := ⟨h, h.queue, .refl h.runnable_a, .refl h.runnable_b⟩
  have hg : ∀ p, gained s s p = 0 := fun p => Nat.sub_self _
  constructor
  · intro ops s' hrun
    have hlead : Lead s xs a b s := by
      refine ⟨h0, ?_, fun _ _ => ?_⟩
      · rw [hg, hg]
        omega
      · rw [hg, hg]
        omega
    have hI : Lead s xs a b s' := hrun.invariant (fun _ _ _ => Lead.step) hlead
    exact hI.lead
  · intro ops s₁ s' hrun hs hne hcur hle
    have h1 : Counted s xs a b s₁ := hrun.invariant (fun _ _ _ => Counted.step) h0
    have h' := h1.step hs
    obtain ⟨hsame, _⟩ | ⟨_, hmin⟩ := hs.effect.choice
    · exact absurd (hsame.symm.trans hcur) hne
    · obtain ⟨_, hv, hlt⟩ := hmin xs h'.queue b h.mem_b h1.earned_b.runnable
      rw [hcur, h'.earned_a.vruntime, h'.earned_b.vruntime, h.vruntime_eq] at hv hlt
      have hmul := Nat.mul_le_mul_left (weight (s.procs b)) hle
      obtain hlt' | heq : weight (s.procs a) * gained s s' a < weight (s.procs b) * (gained s s' a + 10) ∨
          weight (s.procs a) * gained s s' a = weight (s.procs b) * (gained s s' a + 10) := by omega
      · exact .inl hlt'
      · refine .inr ⟨?_, heq⟩
        by_contra hidx
        have hinj : xs.idxOf b ≠ xs.idxOf a := fun hi => h.ne ((List.idxOf_inj h.mem_b).mp hi).symm
        have := hlt (by omega)
        omega

theorem evenStart_twoThreads {prio prio' : ℕ} (h : prio < prio') (h' : prio' ≤ 255) :
    EvenStart (twoThreads prio prio') [2, 3] 2 3 :=
  ⟨queue_twoThreads prio prio', by simp, by simp, .inl rfl, .inl rfl, h, h', rfl, rfl⟩

/-- Executable form of `TolerableTick`. -/
def tolerableExec (fuel : ℕ) (s₀ : Sched) (xs : List ℕ) (a b : ℕ) (s : Sched) (op : SchedOp) : Option Sched :=
  if op = .tick ∧ (s.current = a ∨ s.current = b → (s.procs s.current).runtimeTicks + 1 < 2 ^ 64 ∧
      (s.procs s.current).vruntime + weight (s.procs s.current) < 2 ^ 32) ∧
      Tolerable s₀ xs a b (gained s₀ s a) then (s.exec fuel op).toOption
  else none

theorem TolerableTick.of_tolerableExec (h : tolerableExec fuel s₀ xs a b s op = some s') :
    TolerableTick s₀ xs a b s op s' := by
  unfold tolerableExec at h
  split at h
  · rename_i hc
    exact ⟨⟨hc.1, ⟨fuel, toOption_eq_some.mp h⟩, hc.2.1⟩, hc.2.2⟩
  · cases h

/-- With priorities 10 and 20 the second of two threads is a full time slice ahead after 40 ticks. -/
theorem priority_served_ten_twenty :
    ∃ s', Run (TolerableTick (twoThreads 10 20) [2, 3] 2 3) (twoThreads 10 20) (List.replicate 40 .tick) s' ∧
      gained (twoThreads 10 20) s' 3 = 20 ∧ gained (twoThreads 10 20) s' 3 ≤ gained (twoThreads 10 20) s' 2 + 10 := by
  have h : (List.foldlM (tolerableExec 8 (twoThreads 10 20) [2, 3] 2 3) (twoThreads 10 20)
      (List.replicate 40 .tick)).any (fun s' => decide (gained (twoThreads 10 20) s' 3 = 20)) = true := by
    decide +kernel
  obtain ⟨s', hs', hg⟩ := (Option.any_eq_true _ _).mp h
  have hrun : Run (TolerableTick (twoThreads 10 20) [2, 3] 2 3) (twoThreads 10 20) _ s' :=
    Run.of_exec (fun _ _ _ => TolerableTick.of_tolerableExec) hs'
  have heven : EvenStart (twoThreads 10 20) [2, 3] 2 3 := evenStart_twoThreads (by norm_num) (by norm_num)
  exact ⟨s', hrun, of_decide_eq_true hg, (priority_served_while_tolerable heven).1 _ s' hrun⟩

/-- With priorities 10 and 200 the second of two threads has run for 21 ticks when the first has run
for 10. -/
theorem lower_priority_served_more :
    ¬ ∀ (s : Sched) (xs : List ℕ) (a b : ℕ), EvenStart s xs a b → ∀ n s',
      Run SchedStep s (List.replicate n .tick) s' → gained s s' b ≤ gained s s' a + 10 := by
  intro hall
  have h : (schedRun 8 (twoThreads 10 200) (List.replicate 41 .tick)).any
      (fun s' => decide (gained (twoThreads 10 200) s' 3 = 21 ∧ gained (twoThreads 10 200) s' 2 = 10)) = true := by
    decide +kernel
  obtain ⟨s', hs', hg⟩ := (Option.any_eq_true _ _).mp h
  obtain ⟨h3, h2⟩ := of_decide_eq_true hg
  have heven : EvenStart (twoThreads 10 200) [2, 3] 2 3 := evenStart_twoThreads (by norm_num) (by norm_num)
  have hle := hall _ _ 2 3 heven 41 s' (Run.of_schedRun hs')
  omega

end HeroOS
