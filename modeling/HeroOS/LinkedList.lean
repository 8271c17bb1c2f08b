import Mathlib

/-! # Linked lists

`Chain next null a xs` says that following `next` from `a` visits exactly `xs` and then meets
`null`; a walk determines its list (`Chain.unique`), and linking one of its nodes to its beginning closes a
cycle (`Chain.not_closed`).

Nodes are values of any type; `next` and `prev` give the links of every node.
`Seg next prev p xs nx` says that `xs` are linked in this order, that the first of them points
back to `p` and that the last of them points on to `nx`.  Segments compose (`seg_append`), depend
only on the links of their own nodes (`Seg.congr`), and the back link of the first node and the
forward link of the last one can be redirected (`Seg.relink`, `Seg.retarget`).  Between two nulls a
segment takes a new last node (`Seg.push`), loses any node (`Seg.remove`), and is a walk in both
directions (`Seg.chain_next`, `Seg.chain_prev`). -/

namespace HeroOS.LinkedList

variable {α : Type}

/-- The nodes `xs` form a segment between `p` and `nx`. -/
def Seg (next prev : α → α) : α → List α → α → Prop
  | _, [], _ => True
  | p, a :: as, nx => prev a = p ∧ next a = as.headD nx ∧ Seg next prev a as nx

variable {next prev next' prev' : α → α} {p p' nx : α} {xs ys : List α}

theorem headD_append (xs ys : List α) (nx : α) : (xs ++ ys).headD nx = xs.headD (ys.headD nx) := by
  cases xs <;> rfl

theorem seg_append : Seg next prev p (xs ++ ys) nx ↔
    Seg next prev p xs (ys.headD nx) ∧ Seg next prev (xs.getLastD p) ys nx := by
  induction xs generalizing p with
  | nil => simp [Seg]
  | cons a as ih =>
      simp only [List.cons_append, Seg, ih, headD_append, List.getLastD_cons, and_assoc]

theorem Seg.congr (h : Seg next prev p xs nx) (hn : ∀ a ∈ xs, next' a = next a)
    (hp : ∀ a ∈ xs, prev' a = prev a) : Seg next' prev' p xs nx := by
  induction xs generalizing p with
  | nil => trivial
  | cons a as ih =>
      obtain ⟨h1, h2, h3⟩ := h
      refine ⟨(hp a List.mem_cons_self).trans h1, (hn a List.mem_cons_self).trans h2, ?_⟩
      exact ih h3 (fun b hb => hn b (List.mem_cons_of_mem _ hb))
        (fun b hb => hp b (List.mem_cons_of_mem _ hb))

/-- Redirecting the back link of the first node. -/
theorem Seg.relink (h : Seg next prev p xs nx) (hn : ∀ a ∈ xs, next' a = next a)
    (hp : ∀ a ∈ xs.tail, prev' a = prev a) (hfirst : ∀ a ∈ xs.head?, prev' a = p') :
    Seg next' prev' p' xs nx := by
  cases xs with
  | nil => trivial
  | cons a as =>
      obtain ⟨_, h2, h3⟩ := h
      refine ⟨hfirst a rfl, (hn a List.mem_cons_self).trans h2, ?_⟩
      exact h3.congr (fun b hb => hn b (List.mem_cons_of_mem _ hb)) hp

/-- Redirecting the forward link of the last node. -/
theorem Seg.retarget {nx' : α} (h : Seg next prev p xs nx) (hn : ∀ a ∈ xs.dropLast, next' a = next a)
    (hp : ∀ a ∈ xs, prev' a = prev a) (hlast : ∀ a ∈ xs.getLast?, next' a = nx') :
    Seg next' prev' p xs nx' := by
  rcases List.eq_nil_or_concat xs with rfl | ⟨ys, a, rfl⟩
  · trivial
  · rw [List.concat_eq_append] at *
    rw [List.dropLast_concat] at hn
    obtain ⟨hys, hprev, _, _⟩ := seg_append.mp h
    refine seg_append.mpr ⟨?_, ?_, ?_, trivial⟩
    · exact hys.congr hn (fun b hb => hp b (List.mem_append_left _ hb))
    · exact (hp a (by simp)).trans hprev
    · exact hlast a (by simp)

/-- The links around a node inside a segment. -/
theorem Seg.links {a : α} (h : Seg next prev p (xs ++ a :: ys) nx) :
    prev a = xs.getLastD p ∧ next a = ys.headD nx := by
  obtain ⟨_, h1, h2, _⟩ := seg_append.mp h
  exact ⟨h1, h2⟩

/-! ### The ends of a list -/

theorem headD_of_head? {a : α} (h : a ∈ xs.head?) : xs.headD p = a := by
  rw [List.headD_eq_head?_getD, h]
  rfl

theorem getLastD_of_getLast? {a : α} (h : a ∈ xs.getLast?) : xs.getLastD p = a := by
  rw [List.getLastD_eq_getLast?, h]
  rfl

theorem headD_eq_or_mem (xs : List α) (p : α) : xs.headD p = p ∨ xs.headD p ∈ xs := by
  cases xs with
  | nil => exact .inl rfl
  | cons a as => exact .inr List.mem_cons_self

theorem getLastD_eq_or_mem (xs : List α) (p : α) : xs.getLastD p = p ∨ xs.getLastD p ∈ xs :=
  List.mem_cons.mp List.getLastD_mem_cons

theorem ne_headD {a : α} (hnd : xs.Nodup) (ha : a ∈ xs.tail) : a ≠ xs.headD p := by
  cases xs with
  | nil => cases ha
  | cons b as =>
      rintro rfl
      exact (List.nodup_cons.mp hnd).1 ha

theorem ne_getLastD {a : α} (hnd : xs.Nodup) (ha : a ∈ xs.dropLast) : a ≠ xs.getLastD p := by
  rcases List.eq_nil_or_concat xs with rfl | ⟨ys, b, rfl⟩
  · cases ha
  · rw [List.concat_eq_append] at *
    rw [List.dropLast_concat] at ha
    rw [List.getLastD_concat]
    rintro rfl
    exact (List.nodup_append.mp hnd).2.2 a ha a (by simp) rfl

/-! ### A node more, a node less -/

section update

variable [DecidableEq α] {null a : α}

/-- A new node behind the last one. -/
theorem Seg.push (h : Seg next prev null xs null) (hnd : xs.Nodup) (hne : ∀ b ∈ xs, b ≠ null) (hnew : a ∉ xs)
    (hn : ∀ b, next' b = if b = a then null else if b = xs.getLastD null ∧ xs.getLastD null ≠ null then a else next b)
    (hp : ∀ b, prev' b = if b = a then xs.getLastD null else prev b) : Seg next' prev' null (xs ++ [a]) null := by
  have hother : ∀ b ∈ xs, b ≠ a := fun b hb heq => hnew (heq ▸ hb)
  refine seg_append.mpr ⟨?_, (hp a).trans (if_pos rfl), (hn a).trans (if_pos rfl), trivial⟩
  refine h.retarget (fun b hb => ?_) (fun b hb => ?_) (fun b hb => ?_)
  · have hmem := List.mem_of_mem_dropLast hb
    rw [hn, if_neg (hother b hmem), if_neg (fun hx => ne_getLastD hnd hb hx.1)]
  · rw [hp, if_neg (hother b hb)]
  · have hmem := List.mem_of_getLast? hb
    rw [hn, if_neg (hother b hmem), getLastD_of_getLast? hb, if_pos ⟨rfl, hne b hmem⟩]
    rfl

/-- The node `a` is taken out, and its neighbours are linked to each other. -/
theorem Seg.remove (h : Seg next prev null (xs ++ a :: ys) null) (hnd : (xs ++ a :: ys).Nodup)
    (hne : ∀ b ∈ xs ++ a :: ys, b ≠ null)
    (hn : ∀ b, b ≠ a → next' b = if b = prev a ∧ prev a ≠ null then next a else next b)
    (hp : ∀ b, b ≠ a → prev' b = if b = next a ∧ next a ≠ null then prev a else prev b) :
    Seg next' prev' null (xs ++ ys) null := by
  obtain ⟨hprev, hnext⟩ := h.links
  obtain ⟨hxs, _, _, hys⟩ := seg_append.mp h
  obtain ⟨hnxs, hncons, hdis⟩ := List.nodup_append.mp hnd
  obtain ⟨hays, hnys⟩ := List.nodup_cons.mp hncons
  have hxa : ∀ b ∈ xs, b ≠ a := fun b hb => hdis b hb a List.mem_cons_self
  have hya : ∀ b ∈ ys, b ≠ a := fun b hb heq => hays (heq ▸ hb)
  have hxy : ∀ b ∈ xs, b ∉ ys := fun b hx hy => hdis b hx b (List.mem_cons_of_mem _ hy) rfl
  rw [hprev, hnext] at hn hp
  refine seg_append.mpr ⟨?_, ?_⟩
  · refine hxs.retarget (fun b hb => ?_) (fun b hb => ?_) (fun b hb => ?_)
    · rw [hn b (hxa b (List.mem_of_mem_dropLast hb)), if_neg (fun hx => ne_getLastD hnxs hb hx.1)]
    · -- the node behind `a` is none of `xs`
      have hno : ¬ (b = ys.headD null ∧ ys.headD null ≠ null) := by
        rintro ⟨heq, h0⟩
        exact hxy b hb (heq ▸ (headD_eq_or_mem ys null).resolve_left h0)
      rw [hp b (hxa b hb), if_neg hno]
    · have hmem := List.mem_of_getLast? hb
      rw [hn b (hxa b hmem), getLastD_of_getLast? hb, if_pos ⟨rfl, hne b (by simp [hmem])⟩]
  · refine hys.relink (fun b hb => ?_) (fun b hb => ?_) (fun b hb => ?_)
    · -- the node before `a` is none of `ys`
      have hno : ¬ (b = xs.getLastD null ∧ xs.getLastD null ≠ null) := by
        rintro ⟨heq, h0⟩
        exact hxy b (heq ▸ (getLastD_eq_or_mem xs null).resolve_left h0) hb
      rw [hn b (hya b hb), if_neg hno]
    · rw [hp b (hya b (List.mem_of_mem_tail hb)), if_neg (fun hx => ne_headD hnys hb hx.1)]
    · have hmem := List.mem_of_mem_head? hb
      rw [hp b (hya b hmem), headD_of_head? hb, if_pos ⟨rfl, hne b (by simp [hmem])⟩]

end update

/-! ### Walks -/

/-- Following `next` from `a` visits `xs` and ends at `null`. -/
def Chain (next : α → α) (null : α) : α → List α → Prop
  | a, [] => a = null
  | a, x :: xs => a = x ∧ x ≠ null ∧ Chain next null (next x) xs

variable {null a b : α}

theorem Chain.ne_null (h : Chain next null a xs) (hb : b ∈ xs) : b ≠ null := by
  induction xs generalizing a with
  | nil => cases hb
  | cons x xs ih =>
      obtain ⟨_, hx, h⟩ := h
      obtain rfl | hb := List.mem_cons.mp hb
      · exact hx
      · exact ih h hb

theorem Chain.unique (h : Chain next null a xs) (h' : Chain next null a ys) : xs = ys := by
  induction xs generalizing a ys with
  | nil =>
      cases ys with
      | nil => rfl
      | cons y ys => exact absurd (h'.1.symm.trans h) h'.2.1
  | cons x xs ih =>
      obtain ⟨rfl, hx, h⟩ := h
      cases ys with
      | nil => exact absurd h' hx
      | cons y ys =>
          obtain ⟨rfl, _, h'⟩ := h'
          rw [ih h h']

theorem Chain.congr (h : Chain next null a xs) (hn : ∀ x ∈ xs, next' x = next x) :
    Chain next' null a xs := by
  induction xs generalizing a with
  | nil => exact h
  | cons x xs ih =>
      obtain ⟨ha, hx, h⟩ := h
      refine ⟨ha, hx, ?_⟩
      rw [hn x List.mem_cons_self]
      exact ih h (fun y hy => hn y (List.mem_cons_of_mem _ hy))

/-- A walk with the links of another one in front of a node goes through that node. -/
theorem Chain.through {zs : List α} (h : Chain next null a (xs ++ b :: ys)) (h' : Chain next' null a zs)
    (hn : ∀ x ∈ xs, next' x = next x) : ∃ ws, zs = xs ++ ws ∧ Chain next' null b ws := by
  induction xs generalizing a zs with
  | nil =>
      obtain ⟨rfl, _⟩ := h
      exact ⟨zs, rfl, h'⟩
  | cons x xs ih =>
      obtain ⟨rfl, hne, h⟩ := h
      cases zs with
      | nil => exact absurd h' hne
      | cons z zs =>
          obtain ⟨rfl, _, h'⟩ := h'
          rw [hn a List.mem_cons_self] at h'
          obtain ⟨ws, rfl, hws⟩ := ih h h' (fun y hy => hn y (List.mem_cons_of_mem _ hy))
          exact ⟨ws, rfl, hws⟩

/-- Linking a node of a walk to its beginning closes a cycle: the walk from the node does not end. -/
theorem Chain.not_closed [DecidableEq α] (h : Chain next null a xs) (hnd : xs.Nodup) (hb : b ∈ xs) :
    ¬ Chain (Function.update next b a) null b ys := by
  have hne := h.ne_null hb
  obtain ⟨pre, post, rfl⟩ := List.append_of_mem hb
  have hpre : ∀ x ∈ pre, x ≠ b := fun x hx heq =>
    (List.nodup_append.mp hnd).2.2 x hx b List.mem_cons_self heq
  intro hcycle
  cases ys with
  | nil => exact hne hcycle
  | cons y ys =>
      have hrest := hcycle
      obtain ⟨rfl, _, hrest⟩ := hrest
      rw [Function.update_self] at hrest
      obtain ⟨ws, rfl, hws⟩ := h.through hrest (fun x hx => Function.update_of_ne (hpre x hx) _ _)
      have hlen := congrArg List.length (hcycle.unique hws)
      rw [List.length_cons, List.length_append] at hlen
      omega

/-- Forwards, a segment that ends at `null` is a walk. -/
theorem Seg.chain_next (h : Seg next prev p xs null) (hne : ∀ x ∈ xs, x ≠ null) :
    Chain next null (xs.headD null) xs := by
  induction xs generalizing p with
  | nil => rfl
  | cons x xs ih =>
      obtain ⟨_, hn, h⟩ := h
      refine ⟨rfl, hne x List.mem_cons_self, ?_⟩
      rw [hn]
      exact ih h (fun y hy => hne y (List.mem_cons_of_mem _ hy))

/-- Backwards, a segment that starts at `null` is a walk. -/
theorem Seg.chain_prev (h : Seg next prev null xs nx) (hne : ∀ x ∈ xs, x ≠ null) :
    Chain prev null (xs.getLastD null) xs.reverse := by
  induction xs using List.reverseRecOn generalizing nx with
  | nil => rfl
  | append_singleton xs x ih =>
      obtain ⟨h, hp, _, _⟩ := seg_append.mp h
      rw [List.getLastD_concat, List.reverse_concat]
      refine ⟨rfl, hne x (by simp), ?_⟩
      rw [hp]
      exact ih h (fun y hy => hne y (List.mem_append_left _ hy))

end HeroOS.LinkedList
