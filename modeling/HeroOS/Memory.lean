import HeroOS.Moves

/-! # Byte-addressed memory

Memory is a function from addresses to bytes.  A field of `n` bytes is read and written in
little-endian order (`readLE`, `writeLE`); sixty-four-bit fields are the case `n = 8`.

* Reading back a field gives the value written (`read64_write64_same`).
* Fields on disjoint byte ranges do not disturb each other (`read64_write64_of_disjoint`).
* Every operation leaves the bytes outside its range alone (`write64_of_outside`,
  `fill_of_outside`, `copy_of_outside`), and a field depends only on its own bytes
  (`read64_congr`).
* Copying byte by byte moves a range, where no byte is overwritten before it is read (`copy_apply`); `memmove`
  takes the direction in which this is so (`memmove_apply`). -/

namespace HeroOS

open Moves

/-- Memory: a byte at every address. -/
abbrev Mem := ℕ → UInt8

namespace Mem

/-- The `n`-byte little-endian number at `a`. -/
def readLE (m : Mem) : ℕ → ℕ → ℕ
  | _, 0 => 0
  | a, n + 1 => (m a).toNat + 256 * readLE m (a + 1) n

/-- Store the low `n` bytes of `v` at `a`. -/
def writeLE (m : Mem) (a n v : ℕ) : Mem := fun x =>
  if a ≤ x ∧ x < a + n then UInt8.ofNat (v / 256 ^ (x - a)) else m x

/-- The 64-bit word at `a`. -/
def read64 (m : Mem) (a : ℕ) : ℕ := m.readLE a 8

/-- The 32-bit word at `a`. -/
def read32 (m : Mem) (a : ℕ) : ℕ := m.readLE a 4

/-- Store a 64-bit word at `a`. -/
def write64 (m : Mem) (a v : ℕ) : Mem := m.writeLE a 8 v

/-- Store a 32-bit word at `a`. -/
def write32 (m : Mem) (a v : ℕ) : Mem := m.writeLE a 4 v

/-- Store one byte at `a`. -/
def write8 (m : Mem) (a : ℕ) (b : UInt8) : Mem := fun x => if x = a then b else m x

/-- Fill `n` bytes from `a` with `b`. -/
def fill (m : Mem) (a n : ℕ) (b : UInt8) : Mem := fun x =>
  if a ≤ x ∧ x < a + n then b else m x

/-- Copy bytes from `src` to `dst` one by one, upwards. -/
def copy (m : Mem) : ℕ → ℕ → ℕ → Mem
  | _, _, 0 => m
  | dst, src, n + 1 => copy (m.write8 dst (m src)) (dst + 1) (src + 1) n

/-- The same, downwards from the end. -/
def copyDown (m : Mem) (dst src : ℕ) : ℕ → Mem
  | 0 => m
  | n + 1 => copyDown (m.write8 (dst + n) (m (src + n))) dst src n

/-- `memmove` -/
def memmove (m : Mem) (dst src n : ℕ) : Mem :=
  if dst < src then m.copy dst src n
  else if dst > src then m.copyDown dst src n
  else m

variable {m m' : Mem} {a b n v : ℕ}

/-! ### Fields -/

theorem readLE_lt (m : Mem) : ∀ (a n : ℕ), m.readLE a n < 256 ^ n
  | _, 0 => by simp [readLE]
  | a, n + 1 => by
      have h := readLE_lt m (a + 1) n
      have hb := (m a).toNat_lt
      have hp : 256 ^ (n + 1) = 256 * 256 ^ n := by ring
      rw [readLE, hp]
      omega

theorem read64_lt (m : Mem) (a : ℕ) : m.read64 a < 2 ^ 64 := m.readLE_lt a 8

theorem read32_lt (m : Mem) (a : ℕ) : m.read32 a < 2 ^ 32 := m.readLE_lt a 4

/-- A field that has been moved. -/
theorem readLE_moved : ∀ (n : ℕ) {a b : ℕ}, (∀ i < n, m' (a + i) = m (b + i)) → m'.readLE a n = m.readLE b n
  | 0, _, _, _ => rfl
  | n + 1, a, b, h => by
      have h0 : m' a = m b := h 0 (Nat.succ_pos n)
      have ht : m'.readLE (a + 1) n = m.readLE (b + 1) n := by
        apply readLE_moved n
        intro i hi
        rw [Nat.add_assoc, Nat.add_assoc, Nat.add_comm 1]
        exact h (i + 1) (Nat.succ_lt_succ hi)
      rw [readLE, readLE, h0, ht]

theorem readLE_congr (n : ℕ) {a : ℕ} (h : Set.EqOn m' m (Set.Ico a (a + n))) : m'.readLE a n = m.readLE a n :=
  readLE_moved n (fun _ hi => h ⟨Nat.le_add_right _ _, Nat.add_lt_add_left hi _⟩)

theorem read64_congr (h : Set.EqOn m' m (Set.Ico a (a + 8))) : m'.read64 a = m.read64 a :=
  readLE_congr 8 h

theorem write64_of_outside {x : ℕ} (h : x < a ∨ a + 8 ≤ x) : m.write64 a v x = m x :=
  if_neg (by omega)

theorem write8_of_ne {x : ℕ} {c : UInt8} (h : x ≠ a) : m.write8 a c x = m x := if_neg h

@[simp] theorem write8_same (c : UInt8) : m.write8 a c a = c := if_pos rfl

theorem writeLE_of_outside {x : ℕ} (h : x < a ∨ a + n ≤ x) : m.writeLE a n v x = m x := if_neg (by omega)

theorem readLE_writeLE_same : ∀ (n : ℕ) (m : Mem) (a v : ℕ),
    (m.writeLE a n v).readLE a n = v % 256 ^ n
  | 0, _, _, _ => by simp [readLE, Nat.mod_one]
  | n + 1, m, a, v => by
      have h0 : (m.writeLE a (n + 1) v a).toNat = v % 256 := by
        simp [writeLE]
      -- the upper bytes form the field of `v / 256` one address further
      have ht : (m.writeLE a (n + 1) v).readLE (a + 1) n =
          (m.writeLE (a + 1) n (v / 256)).readLE (a + 1) n := by
        apply readLE_congr n
        intro x hx
        have h1 := hx.1
        have h2 := hx.2
        have e : x - a = x - (a + 1) + 1 := by omega
        simp only [writeLE]
        rw [if_pos ⟨by omega, by omega⟩, if_pos ⟨by omega, by omega⟩, e, pow_succ', Nat.div_div_eq_div_mul]
      rw [readLE, h0, ht, readLE_writeLE_same n, pow_succ', Nat.mod_mul]

theorem read64_write64_same (m : Mem) (a : ℕ) (h : v < 2 ^ 64) :
    (m.write64 a v).read64 a = v := by
  rw [read64, write64, readLE_writeLE_same]
  exact Nat.mod_eq_of_lt h

theorem read32_write32_same (m : Mem) (a : ℕ) (h : v < 2 ^ 32) : (m.write32 a v).read32 a = v := by
  rw [read32, write32, readLE_writeLE_same]
  exact Nat.mod_eq_of_lt h

theorem read32_write32_of_disjoint (h : a + 4 ≤ b ∨ b + 4 ≤ a) : (m.write32 a v).read32 b = m.read32 b := by
  apply readLE_congr 4
  intro x hx
  have := hx.1
  have := hx.2
  exact writeLE_of_outside (by omega)

theorem read64_write64_of_disjoint (h : a + 8 ≤ b ∨ b + 8 ≤ a) :
    (m.write64 a v).read64 b = m.read64 b := by
  apply read64_congr
  intro x hx
  have := hx.1
  have := hx.2
  exact write64_of_outside (by omega)

theorem read64_write8_of_disjoint {c : UInt8} (h : a < b ∨ b + 8 ≤ a) :
    (m.write8 a c).read64 b = m.read64 b := by
  apply read64_congr
  intro x hx
  exact write8_of_ne (by have := hx.1; have := hx.2; omega)

/-- Storing a 32-bit word below four zero bytes stores it as a 64-bit word. -/
theorem write32_eq_write64 (hv : v < 2 ^ 32) (hz : ∀ x, a + 4 ≤ x → x < a + 8 → m x = 0) :
    m.write32 a v = m.write64 a v := by
  funext x
  simp only [write32, write64, writeLE]
  by_cases h4 : a ≤ x ∧ x < a + 4
  · rw [if_pos h4, if_pos ⟨h4.1, by omega⟩]
  · rw [if_neg h4]
    by_cases h8 : a ≤ x ∧ x < a + 8
    · have hp : 2 ^ 32 ≤ 256 ^ (x - a) := by
        rw [show (2 : ℕ) ^ 32 = 256 ^ 4 by norm_num]
        exact Nat.pow_le_pow_right (by norm_num) (by omega)
      rw [if_pos h8, hz x (by omega) (by omega), Nat.div_eq_of_lt (by omega)]
      rfl
    · rw [if_neg h8]

/-- The bytes of a field. -/
theorem readLE_byte : ∀ {n k : ℕ} {a : ℕ}, k < n → m.readLE a n / 256 ^ k % 256 = (m (a + k)).toNat
  | n + 1, 0, a, _ => by
      have hb := (m a).toNat_lt
      rw [readLE, pow_zero, Nat.div_one, show a + 0 = a from rfl]
      omega
  | n + 1, k + 1, a, h => by
      have hb := (m a).toNat_lt
      have hdiv : ((m a).toNat + 256 * m.readLE (a + 1) n) / 256 = m.readLE (a + 1) n := by omega
      rw [readLE, pow_succ', ← Nat.div_div_eq_div_mul, hdiv, readLE_byte (Nat.lt_of_succ_lt_succ h),
        Nat.add_right_comm]
      rfl

/-- Storing what is there changes nothing. -/
theorem writeLE_readLE (m : Mem) (a n : ℕ) : m.writeLE a n (m.readLE a n) = m := by
  funext x
  unfold writeLE
  split
  · rename_i hx
    have hbyte := m.readLE_byte (show x - a < n by omega) (a := a)
    rw [show a + (x - a) = x by omega] at hbyte
    apply UInt8.toNat_inj.mp
    rw [UInt8.toNat_ofNat']
    exact hbyte
  · rfl

/-! ### Several fields -/

/-- Store words at several addresses, one after the other. -/
def writeWords (m : Mem) : List (ℕ × ℕ) → Mem
  | [] => m
  | (a, v) :: fs => (m.write64 a v).writeWords fs

variable {fs : List (ℕ × ℕ)}

theorem writeWords_of_outside {x : ℕ} (h : ∀ p ∈ fs, x < p.1 ∨ p.1 + 8 ≤ x) : m.writeWords fs x = m x := by
  induction fs generalizing m with
  | nil => rfl
  | cons p fs ih =>
      obtain ⟨a, v⟩ := p
      rw [writeWords, ih fun q hq => h q (List.mem_cons_of_mem _ hq)]
      exact write64_of_outside (h (a, v) List.mem_cons_self)

theorem read64_writeWords_of_disjoint (h : ∀ p ∈ fs, p.1 + 8 ≤ b ∨ b + 8 ≤ p.1) :
    (m.writeWords fs).read64 b = m.read64 b := by
  apply read64_congr
  intro x hx
  have h1 := hx.1
  have h2 := hx.2
  refine writeWords_of_outside fun p hp => ?_
  have := h p hp
  omega

/-- Words that do not overlap are all stored. -/
theorem read64_writeWords (h : fs.Pairwise (fun p q => p.1 + 8 ≤ q.1 ∨ q.1 + 8 ≤ p.1)) (hv : v < 2 ^ 64)
    (hmem : (a, v) ∈ fs) : (m.writeWords fs).read64 a = v := by
  induction fs generalizing m with
  | nil => cases hmem
  | cons p fs ih =>
      obtain ⟨hp, hfs⟩ := List.pairwise_cons.mp h
      rcases List.mem_cons.mp hmem with rfl | hmem
      · rw [writeWords, read64_writeWords_of_disjoint fun q hq => (hp q hq).symm]
        exact read64_write64_same m a hv
      · exact ih hfs hmem

/-! ### Ranges -/

theorem fill_of_outside {x : ℕ} {c : UInt8} (h : x < a ∨ a + n ≤ x) : m.fill a n c x = m x :=
  if_neg (by omega)

theorem write8_eq_update (m : Mem) (a : ℕ) (c : UInt8) : m.write8 a c = Function.update m a c := by
  funext x
  rw [Function.update_apply]
  rfl

theorem copy_eq_moves : ∀ (n : ℕ) {m : Mem} {a b : ℕ}, m.copy a b n = moves m ((List.range n).map fun i => (a + i, b + i))
  | 0, _, _, _ => rfl
  | n + 1, m, a, b => by
      have hstep : (fun i => (a + 1 + i, b + 1 + i)) = (fun i => (a + i, b + i)) ∘ Nat.succ := by
        funext i
        simp only [Function.comp, Nat.succ_eq_one_add, Nat.add_assoc]
      rw [copy, copy_eq_moves n, hstep, write8_eq_update, List.range_succ_eq_map, List.map_cons, List.map_map]
      rfl

theorem copyDown_eq_moves : ∀ (n : ℕ) {m : Mem}, m.copyDown a b n = moves m ((List.range n).reverse.map fun i => (a + i, b + i))
  | 0, _ => rfl
  | n + 1, m => by
      rw [copyDown, copyDown_eq_moves n, write8_eq_update, List.range_succ, List.reverse_append]
      rfl

/-- Upwards no byte is overwritten before it is read, unless the range begins inside the one that is copied. -/
theorem ordered_up (h : a ≤ b ∨ b + n ≤ a) : Ordered ((List.range n).map fun i => (a + i, b + i)) := by
  refine ordered_map List.pairwise_lt_range fun i hi j hj hlt => ?_
  rw [List.mem_range] at hi hj
  omega

/-- Downwards, unless it ends there. -/
theorem ordered_down (h : b ≤ a ∨ a + n ≤ b) : Ordered ((List.range n).reverse.map fun i => (a + i, b + i)) := by
  refine ordered_map (List.pairwise_reverse.mpr List.pairwise_lt_range) fun i hi j hj hlt => ?_
  rw [List.mem_reverse, List.mem_range] at hi hj
  omega

/-- The bytes after the moves of a range. -/
theorem moves_range {is : List ℕ} (his : ∀ i, i ∈ is ↔ i < n) (h : Ordered (is.map fun i => (a + i, b + i))) (x : ℕ) :
    moves m (is.map fun i => (a + i, b + i)) x = if x ∈ Set.Ico a (a + n) then m (b + (x - a)) else m x := by
  split
  · rename_i hx
    obtain ⟨i, rfl⟩ : ∃ i, x = a + i := Nat.exists_eq_add_of_le hx.1
    rw [Nat.add_sub_cancel_left]
    exact moves_of_mem h (List.mem_map.mpr ⟨i, (his i).mpr (Nat.lt_of_add_lt_add_left hx.2), rfl⟩)
  · rename_i hx
    refine moves_of_notMem fun p hp => ?_
    obtain ⟨i, hi, rfl⟩ := List.mem_map.mp hp
    rintro rfl
    exact hx ⟨Nat.le_add_right a i, Nat.add_lt_add_left ((his i).mp hi) a⟩

/-- Copying upwards. -/
theorem copy_apply (m : Mem) (h : a ≤ b ∨ b + n ≤ a) (x : ℕ) :
    m.copy a b n x = if x ∈ Set.Ico a (a + n) then m (b + (x - a)) else m x := by
  rw [copy_eq_moves]
  exact moves_range (fun _ => List.mem_range) (ordered_up h) x

/-- Copying downwards. -/
theorem copyDown_apply (m : Mem) (h : b ≤ a ∨ a + n ≤ b) (x : ℕ) :
    m.copyDown a b n x = if x ∈ Set.Ico a (a + n) then m (b + (x - a)) else m x := by
  rw [copyDown_eq_moves]
  exact moves_range (fun _ => List.mem_reverse.trans List.mem_range) (ordered_down h) x

/-- **`memmove`** moves the range, however the two ranges overlap. -/
theorem memmove_apply (m : Mem) (a b n x : ℕ) :
    m.memmove a b n x = if x ∈ Set.Ico a (a + n) then m (b + (x - a)) else m x := by
  unfold memmove
  split
  · rename_i hlt
    exact copy_apply m (.inl hlt.le) x
  · split
    · rename_i hgt
      exact copyDown_apply m (.inl (Nat.le_of_lt hgt)) x
    · obtain rfl : a = b := by omega
      split
      · rename_i hx
        rw [Nat.add_sub_cancel' hx.1]
      · rfl

/-- Whatever the ranges are, copying writes nothing outside its own. -/
theorem copy_of_outside {x : ℕ} (n : ℕ) {m : Mem} {a b : ℕ} (h : x < a ∨ a + n ≤ x) : m.copy a b n x = m x := by
  rw [copy_eq_moves]
  refine moves_of_notMem fun p hp => ?_
  obtain ⟨i, hi, rfl⟩ := List.mem_map.mp hp
  rw [List.mem_range] at hi
  omega

/-- The bytes that are copied upwards. -/
theorem copy_of_inside (n : ℕ) {m : Mem} {a b i : ℕ} (h : a ≤ b ∨ b + n ≤ a) (hi : i < n) :
    m.copy a b n (a + i) = m (b + i) := by
  rw [copy_apply m h, if_pos ⟨Nat.le_add_right a i, Nat.add_lt_add_left hi a⟩, Nat.add_sub_cancel_left]

theorem readLE_eq_zero : ∀ (n : ℕ) {a : ℕ}, (∀ x ∈ Set.Ico a (a + n), m x = 0) → m.readLE a n = 0
  | 0, _, _ => rfl
  | n + 1, a, h => by
      have h0 : m a = 0 := h a ⟨le_rfl, by omega⟩
      have ht : m.readLE (a + 1) n = 0 :=
        readLE_eq_zero n (fun x hx => h x ⟨by have := hx.1; omega, by have := hx.2; omega⟩)
      rw [readLE, h0, ht]
      rfl

/-- Every word inside a range filled with zeros is zero. -/
theorem read64_fill_zero (m : Mem) (h1 : a ≤ b) (h2 : b + 8 ≤ a + n) :
    (m.fill a n 0).read64 b = 0 :=
  readLE_eq_zero 8 (fun _ hx => if_pos ⟨h1.trans hx.1, lt_of_lt_of_le hx.2 h2⟩)

end Mem
end HeroOS
