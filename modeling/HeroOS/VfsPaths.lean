import HeroOS.Vfs

/-! # What a path means

A path of fewer than 4095 characters fits the buffer of `vfs_resolve_path` with its terminator.
Then lookup is a walk along the components of the path (`vfsResolvePath_eq`): one leading slash is
dropped, the rest is split at the slashes, and one empty component at the end is dropped.

`vfs_path_dirname` and `vfs_path_basename` split a path at its last slash.  `tokens_relative_slash`
compares the components of the path with those of its directory part: the directory part loses one
more empty component than the path when the last slash follows another one. -/

namespace HeroOS

open CString

namespace Vfs

variable {ν : Type} {finddir : ν → Buf → Option ν} {buf stale : Buf} {c s rest path d b : List UInt8}
  {i n tok fuel : ℕ} {node root : ν}

/-- Drop one empty component at the end. -/
def dropEmpty (cs : List (List UInt8)) : List (List UInt8) := if cs.getLast? = some [] then cs.dropLast else cs

/-- The components of a path that lookup walks along. -/
def tokens (s : List UInt8) : List (List UInt8) := dropEmpty (s.splitOn SLASH)

/-- The path behind one leading slash. -/
def relative (path : List UInt8) : List UInt8 := if path.head? = some SLASH then path.tail else path

/-- The node that a list of components leads to. -/
def walk (finddir : ν → Buf → Option ν) (node : ν) (cs : List (List UInt8)) : Option ν :=
  cs.foldlM (fun node c => finddir node (ofList c)) node

theorem walk_append (node : ν) (cs cs' : List (List UInt8)) :
    walk finddir node (cs ++ cs') = (walk finddir node cs).bind fun node' => walk finddir node' cs' := by
  unfold walk
  rw [List.foldlM_append]
  rfl

@[simp]
theorem walk_nil (node : ν) : walk finddir node [] = some node := rfl

@[simp]
theorem walk_singleton (node : ν) (c : List UInt8) : walk finddir node [c] = finddir node (ofList c) := by
  unfold walk
  simp

theorem walk_cons (node : ν) (c : List UInt8) (cs : List (List UInt8)) :
    walk finddir node (c :: cs) = (finddir node (ofList c)).bind fun node' => walk finddir node' cs := by
  rw [← List.singleton_append, walk_append, walk_singleton]

/-! ### Components -/

theorem splitOn_of_noSlash (h : SLASH ∉ c) : c.splitOn SLASH = [c] := by
  rw [List.splitOn_eq_splitOnP]
  apply List.splitOnP_eq_singleton
  intro x hx
  simpa using fun h' : x = SLASH => h (h' ▸ hx)

theorem splitOn_slash (c rest : List UInt8) :
    (c ++ SLASH :: rest).splitOn SLASH = c.splitOn SLASH ++ rest.splitOn SLASH := by
  simp only [List.splitOn_eq_splitOnP]
  exact List.splitOnP_append_cons c rest (by simp)

@[simp]
theorem tokens_nil : tokens [] = [] := by simp [tokens, dropEmpty]

theorem tokens_of_noSlash (h : SLASH ∉ c) (hne : c ≠ []) : tokens c = [c] := by
  simp [tokens, dropEmpty, splitOn_of_noSlash h, hne]

theorem tokens_slash (h : SLASH ∉ c) : tokens (c ++ SLASH :: rest) = c :: tokens rest := by
  have hne : rest.splitOn SLASH ≠ [] := List.splitOn_ne_nil SLASH rest
  unfold tokens dropEmpty
  rw [splitOn_slash, splitOn_of_noSlash h, List.singleton_append, List.getLast?_cons_of_ne_nil hne]
  split
  · exact List.dropLast_cons_of_ne_nil hne
  · rfl

/-- The first slash of a path. -/
theorem exists_first_slash (h : SLASH ∈ s) : ∃ c rest, s = c ++ SLASH :: rest ∧ SLASH ∉ c := by
  obtain ⟨c, rest, hs, hc⟩ := List.eq_append_cons_of_mem h
  exact ⟨c, rest, hs, hc⟩

/-- The last slash of a path. -/
theorem exists_last_slash (h : SLASH ∈ s) : ∃ d b, s = d ++ SLASH :: b ∧ SLASH ∉ b := by
  obtain ⟨c, rest, hs, hc⟩ := List.eq_append_cons_of_mem (List.mem_reverse.mpr h)
  refine ⟨rest.reverse, c.reverse, ?_, by simpa using hc⟩
  rw [← List.reverse_reverse s, hs]
  simp

theorem noNul_splitOn (s : List UInt8) (hs : NoNul s) : ∀ c ∈ s.splitOn SLASH, NoNul c := by
  by_cases h : SLASH ∈ s
  · obtain ⟨c, rest, rfl, hc⟩ := exists_first_slash h
    have ih := noNul_splitOn rest fun x hx => hs x (List.mem_append_right _ (List.mem_cons_of_mem _ hx))
    rw [splitOn_slash, splitOn_of_noSlash hc]
    intro c' hc'
    rw [List.singleton_append, List.mem_cons] at hc'
    obtain rfl | hc' := hc'
    · exact fun x hx => hs x (List.mem_append_left _ hx)
    · exact ih c' hc'
  · rw [splitOn_of_noSlash h]
    intro c hc
    rwa [List.mem_singleton.mp hc]
termination_by s.length
decreasing_by
  subst s
  simp only [List.length_append, List.length_cons]
  omega

/-- The components of a string are strings. -/
theorem noNul_tokens (hnul : NoNul path) : ∀ c ∈ tokens (relative path), NoNul c := by
  have hrel : NoNul (relative path) := by
    unfold relative
    split
    · exact fun x hx => hnul x (List.mem_of_mem_tail hx)
    · exact hnul
  intro c hc
  apply noNul_splitOn _ hrel
  unfold tokens dropEmpty at hc
  split at hc
  · exact List.mem_of_mem_dropLast hc
  · exact hc

/-! ### The loop of `vfs_resolve_path` -/

/-- The string `s` and its terminator stand at offset `i` of the buffer. -/
def StringAt (buf : Buf) (i : ℕ) (s : List UInt8) : Prop := ∀ k ≤ s.length, buf (i + k) = s.getD k 0

theorem StringAt.head {x : UInt8} (h : StringAt buf i (x :: s)) : buf i = x := h 0 (Nat.zero_le _)

theorem StringAt.tail {x : UInt8} (h : StringAt buf i (x :: s)) : StringAt buf (i + 1) s := by
  intro k hk
  have hx := h (k + 1) (Nat.succ_le_succ hk)
  rwa [List.getD_cons_succ, ← Nat.add_assoc, Nat.add_right_comm] at hx

theorem StringAt.drop (h : StringAt buf i (c ++ rest)) : StringAt buf (i + c.length) rest := by
  induction c generalizing i with
  | nil => exact h
  | cons x c ih =>
      rw [List.length_cons, Nat.add_comm c.length, ← Nat.add_assoc]
      exact ih h.tail

theorem StringAt.nil (h : StringAt buf i []) : buf i = 0 := h 0 le_rfl

theorem stringAt_strncpy (stale : Buf) (h : path.length < n) : StringAt (strncpy stale path n) 0 path := by
  intro k hk
  rw [Nat.zero_add]
  exact if_pos (by omega)

/-- A component begins with the characters before the next slash or terminator. -/
theorem component_append (h : StringAt buf i (c ++ rest)) (hnul : NoNul c) (hc : SLASH ∉ c) (hn : c.length < n) :
    component buf n i = (do let r ← component buf (n - c.length) (i + c.length); .ok (c ++ r.1, r.2)) := by
  induction c generalizing i n with
  | nil =>
      show component buf n i = (do let r ← component buf n i; .ok (r.1, r.2))
      cases component buf n i <;> rfl
  | cons x c ih =>
      cases n with
      | zero => cases hn
      | succ n =>
          have hx : x ≠ 0 := hnul x List.mem_cons_self
          have hs : x ≠ SLASH := fun e => hc (e ▸ List.mem_cons_self)
          have hrest := ih h.tail (fun y hy => hnul y (List.mem_cons_of_mem _ hy))
            (fun hy => hc (List.mem_cons_of_mem _ hy)) (Nat.lt_of_succ_lt_succ hn)
          rw [component, h.head, if_neg hx, if_neg hs, hrest, List.length_cons, Nat.succ_sub_succ,
            show i + (c.length + 1) = i + 1 + c.length by omega]
          cases component buf (n - c.length) (i + 1 + c.length) <;> rfl

theorem component_of_noSlash (h : StringAt buf i c) (hnul : NoNul c) (hc : SLASH ∉ c) (hn : c.length < n) :
    component buf n i = .ok (c, none) := by
  rw [← List.append_nil c] at h
  obtain ⟨m, hm⟩ : ∃ m, n - c.length = m + 1 := ⟨n - c.length - 1, by omega⟩
  rw [component_append h hnul hc hn, hm, component, if_pos h.drop.nil]
  simp [bind, Except.bind]

theorem component_of_slash (h : StringAt buf i (c ++ SLASH :: rest)) (hnul : NoNul c) (hc : SLASH ∉ c)
    (hn : c.length < n) : component buf n i = .ok (c, some (i + c.length + 1)) := by
  obtain ⟨m, hm⟩ : ∃ m, n - c.length = m + 1 := ⟨n - c.length - 1, by omega⟩
  rw [component_append h hnul hc hn, hm, component, h.drop.head, if_neg (by decide), if_pos rfl]
  simp [bind, Except.bind]

theorem resolveLoop_eq (h : StringAt buf tok s) (hnul : NoNul s) (hlen : tok + s.length < VFS_PATH_MAX)
    (hfuel : s.length < fuel) : resolveLoop finddir buf fuel node tok = .ok (walk finddir node (tokens s)) := by
  induction fuel generalizing s node tok with
  | zero => cases hfuel
  | succ fuel ih =>
      rw [resolveLoop, if_neg (by omega)]
      by_cases hs : s = []
      · subst hs
        rw [if_pos h.nil, tokens_nil, walk_nil]
      · obtain ⟨x, s', rfl⟩ := List.exists_cons_of_ne_nil hs
        rw [h.head, if_neg (hnul x List.mem_cons_self)]
        by_cases hslash : SLASH ∈ x :: s'
        · obtain ⟨c, rest, hc, hno⟩ := exists_first_slash hslash
          rw [hc] at h hnul hlen hfuel ⊢
          rw [List.length_append, List.length_cons] at hlen hfuel
          have hnulc : NoNul c := fun y hy => hnul y (List.mem_append_left _ hy)
          have hnulr : NoNul rest := fun y hy => hnul y (List.mem_append_right _ (List.mem_cons_of_mem _ hy))
          rw [component_of_slash h hnulc hno (by omega), tokens_slash hno, walk_cons]
          simp only [bind, Except.bind]
          cases finddir node (ofList c) with
          | none => rfl
          | some node' =>
              exact ih h.drop.tail hnulr (by omega) (by omega)
        · have hlen' : (x :: s').length < VFS_PATH_MAX - tok := by omega
          rw [component_of_noSlash h hnul hslash hlen', tokens_of_noSlash hslash hs, walk_singleton]
          simp only [bind, Except.bind]
          cases finddir node (ofList (x :: s')) with
          | none => rfl
          | some node' => rfl

/-- The whole loop, on a buffer that holds the string `s`. -/
theorem resolveLoop_from_start (hat : StringAt buf 0 s) (hnul : NoNul s) (hlen : s.length < VFS_PATH_MAX) :
    resolveLoop finddir buf (VFS_PATH_MAX + 1) root (if buf 0 = SLASH then 1 else 0) =
      .ok (walk finddir root (tokens (relative s))) := by
  cases s with
  | nil =>
      rw [hat.nil, if_neg (by decide), resolveLoop_eq hat hnul hlen (by decide)]
      rfl
  | cons x s =>
      rw [hat.head]
      unfold relative
      by_cases hx : x = SLASH
      · rw [if_pos hx, if_pos (by rw [hx]; rfl), List.tail_cons]
        rw [List.length_cons] at hlen
        exact resolveLoop_eq hat.tail (fun y hy => hnul y (List.mem_cons_of_mem _ hy)) (by omega) (by omega)
      · rw [if_neg hx, if_neg (by simpa using hx)]
        exact resolveLoop_eq hat hnul (by omega) (by omega)

/-- **Path lookup**: a path that fits its buffer is a walk along its components. -/
theorem vfsResolvePath_eq (hnul : NoNul path) (hlen : path.length < VFS_PATH_MAX - 1) :
    vfsResolvePath finddir (some root) stale path = .ok (walk finddir root (tokens (relative path))) := by
  rw [vfsResolvePath]
  by_cases hroot : path = [SLASH]
  · rw [if_pos hroot, hroot]
    rfl
  · rw [if_neg hroot]
    exact resolveLoop_from_start (stringAt_strncpy stale hlen) hnul (by omega)

/-! ### Directory and base name -/

theorem cstrFrom_eq (h : StringAt buf i s) (hnul : NoNul s) (hn : s.length < n) : cstrFrom buf n i = .ok s :=
  cstrFrom_eq_ok_iff.mpr ⟨hn, hnul, h⟩

theorem strrchr_of_noSlash (h : SLASH ∉ s) : strrchr SLASH s = none := by
  induction s with
  | nil => rfl
  | cons x s ih =>
      have hx : x ≠ SLASH := fun e => h (e ▸ List.mem_cons_self)
      rw [strrchr, ih fun hs => h (List.mem_cons_of_mem _ hs)]
      exact if_neg hx

theorem strrchr_slash (d : List UInt8) (hb : SLASH ∉ b) : strrchr SLASH (d ++ SLASH :: b) = some d.length := by
  induction d with
  | nil =>
      rw [List.nil_append, strrchr, strrchr_of_noSlash hb]
      rfl
  | cons x d ih =>
      rw [List.cons_append, strrchr, ih]
      rfl

/-- The directory part of a path, before its last slash. -/
def parentPath (d : List UInt8) : List UInt8 := if d = [] then [SLASH] else d

theorem vfsPathDirname_of_noSlash (hnul : NoNul path) (hlen : path.length < VFS_PATH_MAX - 1)
    (h : SLASH ∉ path) : vfsPathDirname stale path = .ok [DOT] := by
  have hcstr : cstr (strncpy stale path (VFS_PATH_MAX - 1)) VFS_PATH_MAX = .ok path :=
    cstrFrom_eq (stringAt_strncpy stale hlen) hnul (by omega)
  unfold vfsPathDirname
  rw [hcstr]
  simp only [bind, Except.bind, strrchr_of_noSlash h]

theorem vfsPathDirname_slash (stale : Buf) (hnul : NoNul (d ++ SLASH :: b)) (hlen : (d ++ SLASH :: b).length < VFS_PATH_MAX - 1)
    (hb : SLASH ∉ b) : vfsPathDirname stale (d ++ SLASH :: b) = .ok (parentPath d) := by
  have hcstr : cstr (strncpy stale (d ++ SLASH :: b) (VFS_PATH_MAX - 1)) VFS_PATH_MAX = .ok (d ++ SLASH :: b) :=
    cstrFrom_eq (stringAt_strncpy stale hlen) hnul (by omega)
  unfold vfsPathDirname parentPath
  rw [hcstr]
  simp only [bind, Except.bind, strrchr_slash d hb]
  cases d with
  | nil => rfl
  | cons x d => simp

theorem vfsPathBasename_of_noSlash (hlen : path.length < VFS_PATH_MAX - 1) (h : SLASH ∉ path) :
    vfsPathBasename path = path := by
  unfold vfsPathBasename
  rw [strrchr_of_noSlash h]
  exact List.take_of_length_le hlen.le

theorem vfsPathBasename_slash (hlen : (d ++ SLASH :: b).length < VFS_PATH_MAX - 1) (hb : SLASH ∉ b) :
    vfsPathBasename (d ++ SLASH :: b) = b := by
  rw [List.length_append, List.length_cons] at hlen
  unfold vfsPathBasename
  rw [strrchr_slash d hb]
  have hdrop : (d ++ SLASH :: b).drop (d.length + 1) = b := by
    rw [List.drop_append, List.drop_eq_nil_of_le (Nat.le_succ _)]
    simp
  dsimp only
  rw [hdrop]
  exact List.take_of_length_le (by omega)

theorem dropEmpty_append (cs : List (List UInt8)) (b : List UInt8) :
    dropEmpty (cs ++ [b]) = cs ++ if b = [] then [] else [b] := by
  unfold dropEmpty
  rw [List.getLast?_concat, List.dropLast_concat]
  by_cases hb : b = []
  · simp [hb]
  · simp [hb]

/-- A path that ends with a slash, and the empty path, have an empty last component, which is dropped. -/
theorem splitOn_eq_tokens (d : List UInt8) :
    d.splitOn SLASH = tokens d ++ if d = [] ∨ d.getLast? = some SLASH then [[]] else [] := by
  by_cases hd : SLASH ∈ d
  · obtain ⟨e, b, rfl, hb⟩ := exists_last_slash hd
    have hlast : (e ++ SLASH :: b).getLast? = some SLASH ↔ b = [] := by
      cases b with
      | nil => simp
      | cons x b =>
          have hne : (SLASH :: x :: b).getLast? = (x :: b).getLast? := List.getLast?_cons_cons
          rw [List.getLast?_append, hne]
          simp only [reduceCtorEq, iff_false]
          intro hl
          have hmem : (x :: b).getLast? = some SLASH := by simpa using hl
          exact hb (List.mem_of_getLast? hmem)
    unfold tokens
    rw [splitOn_slash, splitOn_of_noSlash hb, dropEmpty_append]
    simp only [hlast]
    by_cases h0 : b = []
    · simp [h0]
    · simp [h0]
  · have hlast : d.getLast? ≠ some SLASH := fun hl => hd (List.mem_of_getLast? hl)
    rw [splitOn_of_noSlash hd]
    by_cases h0 : d = []
    · simp [h0]
    · rw [tokens_of_noSlash hd h0]
      simp [h0, hlast]

theorem tokens_slash_last (d : List UInt8) (hb : SLASH ∉ b) :
    tokens (d ++ SLASH :: b) = d.splitOn SLASH ++ if b = [] then [] else [b] := by
  unfold tokens
  rw [splitOn_slash, splitOn_of_noSlash hb, dropEmpty_append]

/-- The components of a path are those of its directory part, an empty one if the last slash follows
another one, and the base name unless that is empty. -/
theorem tokens_relative_slash (d : List UInt8) (hb : SLASH ∉ b) :
    tokens (relative (d ++ SLASH :: b)) = tokens (relative (parentPath d)) ++
      ((if d.getLast? = some SLASH then [[]] else []) ++ if b = [] then [] else [b]) := by
  cases d with
  | nil =>
      have hroot : relative (parentPath []) = [] := rfl
      have hrel : relative ([] ++ SLASH :: b) = b := rfl
      rw [hroot, hrel, tokens_nil]
      by_cases h0 : b = []
      · simp [h0]
      · rw [tokens_of_noSlash hb h0]
        simp [h0]
  | cons x d =>
      have hpar : parentPath (x :: d) = x :: d := if_neg (List.cons_ne_nil x d)
      rw [hpar]
      by_cases hx : x = SLASH
      · subst hx
        have hrel : relative (SLASH :: d ++ SLASH :: b) = d ++ SLASH :: b := rfl
        have hrel' : relative (SLASH :: d) = d := rfl
        rw [hrel, hrel', tokens_slash_last d hb, splitOn_eq_tokens, List.append_assoc]
        have hiff : (d = [] ∨ d.getLast? = some SLASH) ↔ (SLASH :: d).getLast? = some SLASH := by
          cases d with
          | nil => simp
          | cons y d => simp [List.getLast?_cons_cons]
        simp only [hiff]
      · have hrel : relative (x :: d ++ SLASH :: b) = x :: d ++ SLASH :: b := if_neg (by simpa using hx)
        have hrel' : relative (x :: d) = x :: d := if_neg (by simpa using hx)
        rw [hrel, hrel', tokens_slash_last (x :: d) hb, splitOn_eq_tokens, List.append_assoc]
        simp

end Vfs
end HeroOS
