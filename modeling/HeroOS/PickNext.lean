import HeroOS.RunQueue
import HeroOS.SchedFairness

/-! # The choice of `pick_next`

`pick_next` walks over the run queue once, with a candidate that only a ready process of strictly lower
virtual time replaces.

* `Chosen s xs r`: on the queue `xs` the choice is the earliest ready process with the lowest virtual
  time, or the process with PID 0 where no process of the queue is ready;
* `Chosen.unique`: this is one process;
* `pick_next_earliest`: `pick_next` returns on every queue that ends, and with that process. -/

namespace HeroOS.Sched

open LinkedList

variable {s : Sched} {p q r fuel : ℕ} {xs : List ℕ}

/-- A ready process, later than which no ready process is in virtual time, and earlier than which none of
those before it in the queue is. -/
def EarliestLowest (s : Sched) (xs : List ℕ) (r : ℕ) : Prop :=
  ∃ ys zs, xs = ys ++ r :: zs ∧ (s.procs r).state = .READY ∧
    (∀ y ∈ ys, (s.procs y).state = .READY → (s.procs r).vruntime < (s.procs y).vruntime) ∧
    ∀ z ∈ zs, (s.procs z).state = .READY → (s.procs r).vruntime ≤ (s.procs z).vruntime

/-- What `pick_next` is to return on the queue `xs`. -/
structure Chosen (s : Sched) (xs : List ℕ) (r : ℕ) : Prop where
  lowest : (∃ p ∈ xs, (s.procs p).state = .READY) → EarliestLowest s xs r
  idle : (∀ p ∈ xs, (s.procs p).state ≠ .READY) → r = s.procGet 0

/-- The earliest of the lowest is one process. -/
theorem EarliestLowest.unique (hr : EarliestLowest s xs r) (hq : EarliestLowest s xs q) : r = q := by
  obtain ⟨ys, zs, rfl, hs, hbefore, hbehind⟩ := hr
  obtain ⟨ys', zs', heq, hs', hbefore', hbehind'⟩ := hq
  obtain ⟨as, hys, hzs⟩ | ⟨as, hys, hzs⟩ := List.append_eq_append_iff.mp heq
  · -- `r` stands before `q` or is `q`
    cases as with
    | nil => exact (List.cons.inj hzs).1
    | cons a as =>
        obtain ⟨rfl, rfl⟩ := List.cons.inj hzs
        have hlt := hbefore' r (by rw [hys]; simp) hs
        have hle := hbehind q (by simp) hs'
        omega
  · cases as with
    | nil => exact (List.cons.inj hzs).1.symm
    | cons a as =>
        obtain ⟨rfl, rfl⟩ := List.cons.inj hzs
        have hlt := hbefore q (by rw [hys]; simp) hs'
        have hle := hbehind' r (by simp) hs
        omega

theorem Chosen.unique (hr : Chosen s xs r) (hq : Chosen s xs q) : r = q := by
  by_cases h : ∃ p ∈ xs, (s.procs p).state = .READY
  · exact (hr.lowest h).unique (hq.lowest h)
  · have hnone : ∀ p ∈ xs, (s.procs p).state ≠ .READY := fun p hp hs => h ⟨p, hp, hs⟩
    exact (hr.idle hnone).trans (hq.idle hnone).symm

/-- The candidate at the end of the walk. -/
theorem foldl_better_earliest (hne : ∀ x ∈ xs, x ≠ 0) (hready : ∃ p ∈ xs, (s.procs p).state = .READY) :
    xs.foldl (better s.procs) 0 ≠ 0 ∧ EarliestLowest s xs (xs.foldl (better s.procs) 0) := by
  obtain ⟨hkeep, _, hlowest⟩ := foldl_better_spec s.procs 0 hne
  obtain ⟨p, hp, hs⟩ := hready
  have h0 := (hlowest p hp hs).1
  obtain ⟨_, ys, zs, hsplit, hbefore⟩ := foldl_better_first hne h0
  have hbehind : ∀ z ∈ zs, (s.procs z).state = .READY →
      (s.procs (xs.foldl (better s.procs) 0)).vruntime ≤ (s.procs z).vruntime := by
    intro z hz
    have hmem : z ∈ xs := by
      rw [hsplit]
      exact List.mem_append_right _ (List.mem_cons_of_mem _ hz)
    exact fun hs => (hlowest z hmem hs).2
  exact ⟨h0, ys, zs, hsplit, (hkeep.resolve_left h0).2, hbefore, hbehind⟩

/-- The value of `pick_next` on a queue that ends. -/
theorem pickNext_eq (hq : s.Queue xs) (hfuel : xs.length < fuel) : s.pickNext fuel =
    .ok (if xs.foldl (better s.procs) 0 ≠ 0 then xs.foldl (better s.procs) 0 else s.procGet 0) := by
  unfold pickNext
  split
  · rename_i h0
    have hnil : s.Queue [] := h0
    rw [hq.unique hnil]
    rfl
  · exact bind_eq_ok.mpr ⟨_, pickLoop_eq_ok.mpr ⟨xs, hq, hfuel, rfl⟩, rfl⟩

/-- **`pick_next`** returns on every queue that ends, of any length and in any states, and returns the
earliest ready process with the lowest virtual time, or the process with PID 0 where none is ready. -/
theorem pick_next_earliest (hq : s.Queue xs) (hfuel : xs.length < fuel) :
    ∃ r, s.pickNext fuel = .ok r ∧ Chosen s xs r := by
  have hne : ∀ x ∈ xs, x ≠ 0 := fun x hx => hq.ne_null hx
  refine ⟨_, pickNext_eq hq hfuel, fun hready => ?_, fun hnone => ?_⟩
  · obtain ⟨h0, hlowest⟩ := foldl_better_earliest hne hready
    rwa [if_pos h0]
  · -- without a ready process the candidate stays null
    have h0 : xs.foldl (better s.procs) 0 = 0 := by
      obtain h0 | ⟨hmem, hs⟩ := (foldl_better_spec s.procs 0 hne).1
      · exact h0
      · exact absurd hs (hnone _ hmem)
    rw [if_neg (not_not.mpr h0)]

/-- Three processes are queued: the first one sleeps, and the other two are ready at the same virtual time. -/
theorem pick_next_earliest_tie :
    let procs : ℕ → Process := fun p =>
      if p = 5 then { state := .SLEEPING, next := 7 } else if p = 7 then { state := .READY, vruntime := 3, next := 9 }
      else { state := .READY, vruntime := 3 }
    let s : Sched := { boot 0x80000 0x1000 {} with procs := procs, head := 5, tail := 9, count := 3 }
    s.pickNext 4 = .ok 7 ∧ Chosen s [5, 7, 9] 7 := by
  intro procs s
  have hq : s.Queue [5, 7, 9] := ⟨rfl, by decide, rfl, by decide, rfl, by decide, rfl⟩
  obtain ⟨r, hr, hchosen⟩ : ∃ r, s.pickNext 4 = .ok r ∧ Chosen s [5, 7, 9] r := pick_next_earliest hq (by decide)
  have hseven : s.pickNext 4 = .ok 7 := by decide +kernel
  obtain rfl : 7 = r := Except.ok.inj (hseven.symm.trans hr)
  exact ⟨hseven, hchosen⟩

end HeroOS.Sched
