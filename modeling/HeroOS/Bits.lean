import HeroOS.Memory

/-! # Bit fields and packed records

A packed record is a block of memory to which fields of whole bytes are written (`Mem.storeFields`).
Hardware reads the block as one little-endian number and takes bit fields out of it (`bits`), which
may be parts of one field or span several.

* `bits_bits`: a bit field of a bit field;
* `bits_append`: two adjacent bit fields;
* `Mem.bits_readLE`: a bit field of whole bytes is the number at these bytes;
* `Mem.readLE_storeFields`: a field is read back, where no two fields overlap.

Records of one size in a row are a table.  What writes one record updates the table at one index
(`Mem.slots_update`), and after a sequence of such writes the last one for an index decides
(`foldl_update_of_last`). -/

namespace HeroOS

/-- The `n` bits of `x` from bit `lo` on. -/
def bits (x lo n : ℕ) : ℕ := x / 2 ^ lo % 2 ^ n

variable {x lo n k j r s : ℕ}

theorem bits_lt (x lo n : ℕ) : bits x lo n < 2 ^ n := Nat.mod_lt _ (Nat.two_pow_pos n)

theorem bits_zero_of_lt (h : x < 2 ^ n) : bits x 0 n = x := by
  unfold bits
  rw [pow_zero, Nat.div_one, Nat.mod_eq_of_lt h]

/-- A bit field of a bit field. -/
theorem bits_bits (x lo : ℕ) (h : r + s ≤ n) : bits (bits x lo n) r s = bits x (lo + r) s := by
  have hle : r ≤ n := le_trans (Nat.le_add_right r s) h
  have hsplit : 2 ^ n = 2 ^ r * 2 ^ (n - r) := by rw [← pow_add, Nat.add_sub_cancel' hle]
  have hdvd : 2 ^ s ∣ 2 ^ (n - r) := Nat.pow_dvd_pow 2 (by omega)
  unfold bits
  rw [hsplit, Nat.mod_mul_right_div_self, Nat.mod_mod_of_dvd _ hdvd, Nat.div_div_eq_div_mul, ← pow_add]

/-- Two adjacent bit fields. -/
theorem bits_append (x lo k n : ℕ) : bits x lo k + 2 ^ k * bits x (lo + k) n = bits x lo (k + n) := by
  unfold bits
  rw [pow_add, pow_add, ← Nat.div_div_eq_div_mul, Nat.mod_mul]

/-- The upper bits that are left over. -/
theorem bits_of_lt (h : x < 2 ^ (lo + n)) : bits x lo n = x / 2 ^ lo := by
  unfold bits
  apply Nat.mod_eq_of_lt
  rw [Nat.div_lt_iff_lt_mul (Nat.two_pow_pos lo), ← pow_add, Nat.add_comm n lo]
  exact h

/-- A number put together from its low bits and the rest. -/
theorem bits_add_div (h : x < 2 ^ (k + n)) : bits x 0 k + 2 ^ k * bits x k n = x := by
  have happ := bits_append x 0 k n
  rw [Nat.zero_add] at happ
  rw [happ, bits_zero_of_lt h]

/-- Masking. -/
theorem and_eq_bits (x n : ℕ) : x &&& (2 ^ n - 1) = bits x 0 n := by
  unfold bits
  rw [Nat.and_two_pow_sub_one_eq_mod, pow_zero, Nat.div_one]

/-- Shifting and masking. -/
theorem shiftRight_and_eq_bits (x k n : ℕ) : x >>> k &&& (2 ^ n - 1) = bits x k n := by
  unfold bits
  rw [Nat.and_two_pow_sub_one_eq_mod, Nat.shiftRight_eq_div_pow]

/-- Bits that fit a field of bytes. -/
theorem bits_mod (x k : ℕ) (h : n ≤ 8 * s) : bits x k n % 256 ^ s = bits x k n := by
  apply Nat.mod_eq_of_lt
  rw [show 256 = 2 ^ 8 from rfl, ← pow_mul]
  exact lt_of_lt_of_le (bits_lt x k n) (Nat.pow_le_pow_right (by norm_num) h)

namespace Mem

variable {m : Mem} {a : ℕ}

theorem readLE_mod (m : Mem) (a : ℕ) (h : j ≤ n) : m.readLE a n % 256 ^ j = m.readLE a j := by
  induction n generalizing a j with
  | zero =>
      obtain rfl : j = 0 := Nat.le_zero.mp h
      simp [readLE]
  | succ n ih =>
      cases j with
      | zero => simp [readLE, Nat.mod_one]
      | succ j =>
          have hb := (m a).toNat_lt
          have hmod : ((m a).toNat + 256 * m.readLE (a + 1) n) % 256 = (m a).toNat := by omega
          have hdiv : ((m a).toNat + 256 * m.readLE (a + 1) n) / 256 = m.readLE (a + 1) n := by omega
          rw [readLE, readLE, pow_succ', Nat.mod_mul, hmod, hdiv, ih (a + 1) (Nat.le_of_succ_le_succ h)]

theorem readLE_div (m : Mem) (a : ℕ) (h : k ≤ n) : m.readLE a n / 256 ^ k = m.readLE (a + k) (n - k) := by
  induction k generalizing a n with
  | zero => simp
  | succ k ih =>
      cases n with
      | zero => cases h
      | succ n =>
          have hb := (m a).toNat_lt
          have hdiv : ((m a).toNat + 256 * m.readLE (a + 1) n) / 256 = m.readLE (a + 1) n := by omega
          rw [readLE, pow_succ', ← Nat.div_div_eq_div_mul, hdiv, ih (a + 1) (Nat.le_of_succ_le_succ h), Nat.add_right_comm,
            Nat.add_sub_add_right]
          rfl

/-- A bit field of whole bytes. -/
theorem bits_readLE (m : Mem) (a : ℕ) (h : k + j ≤ n) : bits (m.readLE a n) (8 * k) (8 * j) = m.readLE (a + k) j := by
  have hpow : ∀ i, 2 ^ (8 * i) = 256 ^ i := fun i => pow_mul 2 8 i
  unfold bits
  rw [hpow, hpow, readLE_div m a (by omega), readLE_mod m (a + k) (by omega)]

/-- A bit field inside some of the bytes. -/
theorem bits_readLE_inside (m : Mem) (a : ℕ) (h : k + j ≤ n) (hs : r + s ≤ 8 * j) :
    bits (m.readLE a n) (8 * k + r) s = bits (m.readLE (a + k) j) r s := by
  rw [← bits_readLE m a h, bits_bits _ _ hs]

/-! ### Records -/

/-- A field of a packed record: its offset, its size in bytes, and the value that is written. -/
structure Field where
  off : ℕ
  size : ℕ
  value : ℕ

/-- Write fields of the record at `a` one after the other. -/
def storeFields (m : Mem) (a : ℕ) : List Field → Mem
  | [] => m
  | f :: fs => (m.writeLE (a + f.off) f.size f.value).storeFields a fs

/-- Two fields do not overlap. -/
def Field.Apart (f g : Field) : Prop := f.off + f.size ≤ g.off ∨ g.off + g.size ≤ f.off

instance (f g : Field) : Decidable (f.Apart g) := inferInstanceAs (Decidable (_ ∨ _))

variable {f : Field} {fs : List Field}

theorem storeFields_of_outside {y : ℕ} (h : ∀ f ∈ fs, y < a + f.off ∨ a + f.off + f.size ≤ y) : m.storeFields a fs y = m y := by
  induction fs generalizing m with
  | nil => rfl
  | cons f fs ih =>
      rw [storeFields, ih fun g hg => h g (List.mem_cons_of_mem _ hg)]
      exact writeLE_of_outside (h f List.mem_cons_self)

/-- A record of `size` bytes is written inside its block. -/
theorem storeFields_outside_block {size y : ℕ} (hfs : ∀ f ∈ fs, f.off + f.size ≤ size) (h : y < a ∨ a + size ≤ y) :
    m.storeFields a fs y = m y := by
  apply storeFields_of_outside
  intro f hf
  have hle := hfs f hf
  omega

theorem readLE_writeLE_of_disjoint {b v : ℕ} (h : a + n ≤ b ∨ b + j ≤ a) : (m.writeLE a n v).readLE b j = m.readLE b j := by
  apply readLE_congr
  intro y hy
  have h1 := hy.1
  have h2 := hy.2
  exact writeLE_of_outside (by omega)

/-- **Reading back**: a field that no other overlaps. -/
theorem readLE_storeFields (h : fs.Pairwise Field.Apart) (hf : f ∈ fs) :
    (m.storeFields a fs).readLE (a + f.off) f.size = f.value % 256 ^ f.size := by
  induction fs generalizing m with
  | nil => cases hf
  | cons g fs ih =>
      obtain ⟨hg, hfs⟩ := List.pairwise_cons.mp h
      rcases List.mem_cons.mp hf with rfl | hf
      · have hkeep : (m.storeFields a (f :: fs)).readLE (a + f.off) f.size =
            (m.writeLE (a + f.off) f.size f.value).readLE (a + f.off) f.size := by
          apply readLE_congr
          intro y hy
          have h1 := hy.1
          have h2 := hy.2
          rw [storeFields]
          apply storeFields_of_outside
          intro g hg'
          have hapart := hg g hg'
          unfold Field.Apart at hapart
          omega
        rw [hkeep, readLE_writeLE_same]
      · exact ih hfs hf

/-! ### Tables -/

variable {α : Type} {read : Mem → ℕ → α} {size base i : ℕ} {m' : Mem} {v : α}

/-- The records of a table, each read by `read`. -/
def slots (read : Mem → ℕ → α) (size base : ℕ) (m : Mem) (i : ℕ) : α := read m (base + size * i)

/-- The record depends on its own bytes only. -/
def Local (read : Mem → ℕ → α) (size : ℕ) : Prop :=
  ∀ m m' a, Set.EqOn m' m (Set.Ico a (a + size)) → read m' a = read m a

/-- Two records of a table do not overlap. -/
theorem slot_apart {j y : ℕ} (hij : i ≠ j) (hy : y ∈ Set.Ico (base + size * j) (base + size * j + size)) :
    y < base + size * i ∨ base + size * i + size ≤ y := by
  have h1 := hy.1
  have h2 := hy.2
  rcases Nat.lt_or_gt_of_ne hij with h | h
  · have hle := Nat.mul_le_mul_left size (Nat.succ_le_of_lt h)
    rw [Nat.mul_succ] at hle
    omega
  · have hle := Nat.mul_le_mul_left size (Nat.succ_le_of_lt h)
    rw [Nat.mul_succ] at hle
    omega

/-- **Writing one record** of a table. -/
theorem slots_update (hread : Local read size) (hslot : read m' (base + size * i) = v)
    (hout : ∀ y, y < base + size * i ∨ base + size * i + size ≤ y → m' y = m y) :
    slots read size base m' = Function.update (slots read size base m) i v := by
  funext j
  by_cases hij : i = j
  · subst hij
    rw [Function.update_self]
    exact hslot
  · rw [Function.update_of_ne (Ne.symm hij)]
    apply hread
    intro y hy
    exact hout y (slot_apart hij hy)

end Mem

variable {α ι κ : Type} [DecidableEq κ] {key : ι → κ} {val : ι → α}

/-- Writes for other indices do not change an entry. -/
theorem foldl_update_of_ne {k : κ} (calls : List ι) {t : κ → α} (h : ∀ d ∈ calls, key d ≠ k) :
    calls.foldl (fun t d => Function.update t (key d) (val d)) t k = t k := by
  induction calls generalizing t with
  | nil => rfl
  | cons d calls ih =>
      rw [List.foldl_cons, ih fun d' hd => h d' (List.mem_cons_of_mem _ hd)]
      exact Function.update_of_ne (h d List.mem_cons_self).symm _ _

/-- **The last write for an index decides.** -/
theorem foldl_update_of_last {t : κ → α} {before later : List ι} {e : ι} (hlater : ∀ d ∈ later, key d ≠ key e) :
    (before ++ e :: later).foldl (fun t d => Function.update t (key d) (val d)) t (key e) = val e := by
  rw [List.foldl_append, List.foldl_cons, foldl_update_of_ne later hlater, Function.update_self]

/-- Where every index is written once, every write is found. -/
theorem foldl_update_of_mem {calls : List ι} {t : κ → α} {e : ι} (h : (calls.map key).Nodup) (he : e ∈ calls) :
    calls.foldl (fun t d => Function.update t (key d) (val d)) t (key e) = val e := by
  obtain ⟨before, later, rfl⟩ := List.append_of_mem he
  rw [List.map_append, List.map_cons] at h
  have hnot := (List.nodup_cons.mp (List.nodup_append.mp h).2.1).1
  apply foldl_update_of_last
  exact fun d hd heq => hnot (heq ▸ List.mem_map_of_mem hd)

end HeroOS
