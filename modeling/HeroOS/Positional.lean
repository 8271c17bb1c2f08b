import Mathlib

/-! # Positional notation

A numeral is the list of the digits of a number, the first one of the highest weight, each written as a
value of any type `α`.

* `IsNumeral dig b n s`: the digits of `s` are below the base, spell `n`, and start with a zero only where
  `s` is the numeral of zero; there is exactly one such list, `numeral dig b n` (`isNumeral_iff`);
* `length_numeral_le`: its length, from a bound on the number;
* `positional_numeral`: reading a numeral back gives the number. -/

namespace HeroOS.Positional

variable {α : Type} {dig : ℕ → α} {value : α → ℕ} {b n k : ℕ} {s : List α}

/-- The numeral of `n` in base `b`. -/
def numeral (dig : ℕ → α) (b n : ℕ) : List α := if n = 0 then [dig 0] else ((Nat.digits b n).map dig).reverse

/-- `s` spells `n` in base `b` without leading zeros. -/
def IsNumeral (dig : ℕ → α) (b n : ℕ) (s : List α) : Prop :=
  ∃ ds : List ℕ, s = ds.map dig ∧ (∀ d ∈ ds, d < b) ∧ Nat.ofDigits b ds.reverse = n ∧ ds ≠ [] ∧
    (ds.head? = some 0 → ds = [0])

/-- The number that a list of digits spells. -/
def positional (value : α → ℕ) (b : ℕ) (s : List α) : ℕ := s.foldl (fun n c => n * b + value c) 0

theorem numeral_zero : numeral dig b 0 = [dig 0] := if_pos rfl

theorem numeral_of_ne_zero (h : n ≠ 0) : numeral dig b n = ((Nat.digits b n).map dig).reverse := if_neg h

theorem isNumeral_numeral (hb : 1 < b) (n : ℕ) : IsNumeral dig b n (numeral dig b n) := by
  by_cases h : n = 0
  · subst h
    refine ⟨[0], numeral_zero, ?_, rfl, List.cons_ne_nil _ _, fun _ => rfl⟩
    intro d hd
    rw [List.mem_singleton.mp hd]
    omega
  · have hne : Nat.digits b n ≠ [] := Nat.digits_ne_nil_iff_ne_zero.mpr h
    refine ⟨(Nat.digits b n).reverse, ?_, ?_, ?_, ?_, ?_⟩
    · rw [numeral_of_ne_zero h, List.map_reverse]
    · exact fun d hd => Nat.digits_lt_base hb (List.mem_reverse.mp hd)
    · rw [List.reverse_reverse, Nat.ofDigits_digits]
    · exact fun h => hne (List.reverse_eq_nil_iff.mp h)
    · -- the digit of the highest weight is not zero
      intro h0
      rw [List.head?_reverse, List.getLast?_eq_some_getLast hne] at h0
      exact absurd (Option.some.inj h0) (Nat.getLast_digit_ne_zero b h)

/-- **There is one numeral** of every number. -/
theorem isNumeral_iff (hb : 1 < b) : IsNumeral dig b n s ↔ s = numeral dig b n := by
  constructor
  · rintro ⟨ds, rfl, hlt, rfl, hne, hzero⟩
    by_cases h0 : ds.head? = some 0
    · rw [hzero h0]
      rfl
    · have hlast : ∀ h : ds.reverse ≠ [], ds.reverse.getLast h ≠ 0 := by
        intro h hz
        apply h0
        rw [← List.getLast?_reverse, List.getLast?_eq_some_getLast h, hz]
      have hdigits := Nat.digits_ofDigits b hb ds.reverse (fun d hd => hlt d (List.mem_reverse.mp hd)) hlast
      have hn : Nat.ofDigits b ds.reverse ≠ 0 := by
        intro hz
        rw [hz, Nat.digits_zero] at hdigits
        exact hne (List.reverse_eq_nil_iff.mp hdigits.symm)
      rw [numeral_of_ne_zero hn, hdigits, ← List.map_reverse, List.reverse_reverse]
  · rintro rfl
    exact isNumeral_numeral hb n

theorem length_numeral (h : n ≠ 0) : (numeral dig b n).length = (Nat.digits b n).length := by
  rw [numeral_of_ne_zero h, List.length_reverse, List.length_map]

/-- A number below `b ^ k` has at most `k` digits. -/
theorem length_numeral_le (hb : 1 < b) (hk : 0 < k) (h : n < b ^ k) : (numeral dig b n).length ≤ k := by
  by_cases h0 : n = 0
  · subst h0
    rw [numeral_zero]
    exact hk
  · rw [length_numeral h0]
    exact (Nat.digits_length_le_iff hb n).mpr h

theorem positional_concat (s : List α) (c : α) :
    positional value b (s ++ [c]) = positional value b s * b + value c := by
  unfold positional
  rw [List.foldl_append]
  rfl

theorem positional_reverse_map (hval : ∀ d < b, value (dig d) = d) :
    ∀ ds : List ℕ, (∀ d ∈ ds, d < b) → positional value b (ds.map dig).reverse = Nat.ofDigits b ds
  | [], _ => rfl
  | d :: ds, hlt => by
      have ih := positional_reverse_map hval ds (fun d hd => hlt d (List.mem_cons_of_mem _ hd))
      rw [List.map_cons, List.reverse_cons, positional_concat, ih, hval d (hlt d List.mem_cons_self),
        Nat.ofDigits_cons]
      exact (Nat.add_comm _ _).trans (congrArg (d + ·) (Nat.mul_comm _ _))

/-- **Reading back.** -/
theorem positional_numeral (hb : 1 < b) (hval : ∀ d < b, value (dig d) = d) (n : ℕ) :
    positional value b (numeral dig b n) = n := by
  by_cases h : n = 0
  · subst h
    rw [numeral_zero, ← List.nil_append [dig 0], positional_concat, hval 0 (by omega)]
    exact Nat.zero_mul b
  · rw [numeral_of_ne_zero h, positional_reverse_map hval _ (fun d hd => Nat.digits_lt_base hb hd),
      Nat.ofDigits_digits]

end HeroOS.Positional
