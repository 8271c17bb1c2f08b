import HeroOS.Ring
import HeroOS.Shell

/-! # The history of the shell

`hist_add` writes a line into a ring of 256 rows of 1024 bytes, which grows from the front and then drops its oldest row
for every new one; `hist_get` counts back from the latest.

* `HistoryOf s lines`: the rows in use hold the latest of the lines, in order and cut to 1023 characters;
* `hist_get_recent`: after any lines, `hist_get` finds exactly the latest 256 of them. -/

namespace HeroOS.Shell

open CString

variable {s : Shell} {lines : List (List UInt8)} {line : List UInt8}

/-- What a row of `hist_buf` holds as a string. -/
def histRow (s : Shell) (i : ℕ) : Except Halt (List UInt8) := cstr (s.histBuf i) SHELL_LINE_MAX

/-- The rows in use, the oldest first. -/
def histRows (s : Shell) : List (Except Halt (List UInt8)) :=
  Ring.contents SHELL_HIST_SIZE s.histRow s.histHead s.histCount

/-- A line as it is kept. -/
def keptLine (line : List UInt8) : Except Halt (List UInt8) := .ok (line.take (SHELL_LINE_MAX - 1))

/-- The calls of `hist_add`, one for each line. -/
def addLines (s : Shell) (lines : List (List UInt8)) : Shell := lines.foldl (fun s line => s.histAdd (ofList line)) s

/-- The history holds the latest of the lines. -/
structure HistoryOf (s : Shell) (lines : List (List UInt8)) : Prop where
  head_lt : s.histHead < SHELL_HIST_SIZE
  count : s.histCount = min lines.length SHELL_HIST_SIZE
  rows : s.histRows = (lines.drop (lines.length - SHELL_HIST_SIZE)).map keptLine

theorem HistoryOf.empty (hhead : s.histHead = 0) (hcount : s.histCount = 0) : HistoryOf s [] := by
  refine ⟨?_, hcount, ?_⟩
  · rw [hhead]
    decide
  · unfold histRows
    rw [hcount]
    rfl

/-- The row that `hist_add` writes holds the line, cut to the size of a row. -/
theorem histRow_histAdd (s : Shell) (hl : NoNul line) : (s.histAdd (ofList line)).histRow =
    Function.update s.histRow ((s.histHead + s.histCount) % SHELL_HIST_SIZE) (keptLine line) := by
  have hbuf : (s.histAdd (ofList line)).histBuf = Function.update s.histBuf ((s.histHead + s.histCount) % SHELL_HIST_SIZE)
      (Function.update (strncpyBuf (s.histBuf ((s.histHead + s.histCount) % SHELL_HIST_SIZE)) (ofList line)
        (SHELL_LINE_MAX - 1)) (SHELL_LINE_MAX - 1) 0) := by
    unfold histAdd
    dsimp only
    split <;> rfl
  funext i
  unfold histRow
  rw [hbuf]
  by_cases hi : i = (s.histHead + s.histCount) % SHELL_HIST_SIZE
  · subst hi
    rw [Function.update_self, Function.update_self, cstr_strncpyBuf _ _ (by decide), strn_ofList hl, keptLine]
  · rw [Function.update_of_ne hi, Function.update_of_ne hi]

/-- **`hist_add`** appends the line, and drops the oldest one from a full history. -/
theorem HistoryOf.add (h : HistoryOf s lines) (hl : NoNul line) : HistoryOf (s.histAdd (ofList line)) (lines ++ [line]) := by
  have hcount := h.count
  have hrows := h.rows
  unfold histRows at hrows
  by_cases hfull : s.histCount < SHELL_HIST_SIZE
  · have hlen : lines.length < SHELL_HIST_SIZE := by omega
    have hadd : (s.histAdd (ofList line)).histHead = s.histHead ∧ (s.histAdd (ofList line)).histCount = s.histCount + 1 := by
      unfold histAdd
      dsimp only
      rw [if_pos hfull]
      exact ⟨rfl, rfl⟩
    refine ⟨?_, ?_, ?_⟩
    · rw [hadd.1]
      exact h.head_lt
    · rw [hadd.2, List.length_append, List.length_singleton]
      omega
    · unfold histRows
      rw [histRow_histAdd s hl, hadd.1, hadd.2, Ring.contents_push hfull, hrows, List.length_append, List.length_singleton,
        Nat.sub_eq_zero_of_le hlen.le, Nat.sub_eq_zero_of_le hlen, List.drop_zero, List.drop_zero, List.map_append]
      rfl
  · have hsize : s.histCount = SHELL_HIST_SIZE := by omega
    have hlen : SHELL_HIST_SIZE ≤ lines.length := by omega
    have hadd : (s.histAdd (ofList line)).histHead = (s.histHead + 1) % SHELL_HIST_SIZE ∧
        (s.histAdd (ofList line)).histCount = SHELL_HIST_SIZE := by
      unfold histAdd
      dsimp only
      rw [if_neg hfull]
      exact ⟨rfl, hsize⟩
    refine ⟨?_, ?_, ?_⟩
    · rw [hadd.1]
      exact Nat.mod_lt _ (by decide)
    · rw [hadd.2, List.length_append, List.length_singleton]
      omega
    · -- the new row takes the place of the oldest one
      have hcell : (s.histHead + s.histCount) % SHELL_HIST_SIZE = s.histHead % SHELL_HIST_SIZE := by
        rw [hsize, Nat.add_mod_right]
      have hdrop : (lines ++ [line]).length - SHELL_HIST_SIZE = lines.length - SHELL_HIST_SIZE + 1 := by
        rw [List.length_append, List.length_singleton]
        omega
      have hpos : 0 < SHELL_HIST_SIZE := by decide
      have hle : lines.length - SHELL_HIST_SIZE + 1 ≤ lines.length := by omega
      rw [hsize] at hrows
      unfold histRows
      rw [histRow_histAdd s hl, hadd.1, hadd.2, hcell, Ring.contents_congr (Nat.mod_mod _ _),
        Ring.contents_overwrite (by decide), hrows, hdrop, List.drop_append_of_le_length hle, List.map_append,
        ← List.map_tail, List.tail_drop]
      rfl

theorem HistoryOf.addLines (h : HistoryOf s lines) {more : List (List UInt8)} (hl : ∀ line ∈ more, NoNul line) :
    HistoryOf (s.addLines more) (lines ++ more) := by
  induction more generalizing s lines with
  | nil => rwa [List.append_nil]
  | cons line more ih =>
      have hnext := h.add (hl line List.mem_cons_self)
      rw [← List.singleton_append, ← List.append_assoc]
      exact ih hnext fun line hmem => hl line (List.mem_cons_of_mem _ hmem)

/-- **`hist_get`** counts back from the latest line. -/
theorem HistoryOf.get (h : HistoryOf s lines) (k : ℤ) : (s.histGet k).map (fun row => cstr row SHELL_LINE_MAX) =
    if 0 ≤ k ∧ k < min lines.length SHELL_HIST_SIZE then lines.reverse[k.toNat]?.map keptLine else none := by
  have hcount := h.count
  by_cases hk : 0 ≤ k ∧ k < min lines.length SHELL_HIST_SIZE
  · obtain ⟨j, rfl⟩ := Int.eq_ofNat_of_zero_le hk.1
    have hj : j < s.histCount := by omega
    have hrow := congrArg (fun rows => rows[s.histCount - 1 - j]?) h.rows
    unfold histRows at hrow
    rw [Ring.getElem?_contents, if_pos (by omega), List.getElem?_map, List.getElem?_drop] at hrow
    have hidx : lines.length - SHELL_HIST_SIZE + (s.histCount - 1 - j) = lines.length - 1 - j := by omega
    have hcell : s.histHead + s.histCount - 1 - j = s.histHead + (s.histCount - 1 - j) := by omega
    have hrev : lines.reverse[j]? = lines[lines.length - 1 - j]? := List.getElem?_reverse (by omega)
    rw [if_pos hk, histGet, if_neg (by omega), Int.toNat_natCast, hrev, ← hidx, ← hrow, hcell]
    rfl
  · rw [if_neg hk, histGet, if_pos (by omega)]
    rfl

/-- **The history is a list of lines.**  After any calls of `hist_add` from the empty history, `hist_get(k)` is the line
that was added as the last but `k`, cut to 1023 characters, for every `k` from `0` below the number of lines and 256, and
`NULL` for every other `k`. -/
theorem hist_get_recent (hhead : s.histHead = 0) (hcount : s.histCount = 0) (hl : ∀ line ∈ lines, NoNul line) (k : ℤ) :
    ((s.addLines lines).histGet k).map (fun row => cstr row SHELL_LINE_MAX) =
      if 0 ≤ k ∧ k < min lines.length SHELL_HIST_SIZE then lines.reverse[k.toNat]?.map keptLine else none :=
  ((HistoryOf.empty hhead hcount).addLines hl).get k

/-- Of 257 lines, the oldest one left is the second. -/
theorem hist_get_recent_many :
    (((bootShell fun _ => 0).addLines ([1] :: [2] :: List.replicate 255 [3])).histGet 255).map
      (fun row => cstr row SHELL_LINE_MAX) = some (.ok [2]) := by
  have hl : ∀ line ∈ [1] :: [2] :: List.replicate 255 ([3] : List UInt8), NoNul line := by
    intro line hmem
    simp only [List.mem_cons, List.mem_replicate] at hmem
    obtain rfl | rfl | ⟨_, rfl⟩ := hmem <;> decide +kernel
  rw [hist_get_recent rfl rfl hl]
  decide +kernel

end HeroOS.Shell
