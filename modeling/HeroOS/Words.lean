import Mathlib

/-! # Words of a text

`words sep s` are the maximal runs of elements of `s` that are no separators, in their order.  A text is
read from its front by three rules: separators are skipped (`words_skip`), a word may be the last thing in
the text (`words_last`), or a separator ends it (`words_word`). -/

namespace HeroOS.Words

variable {α : Type} {sep : α → Bool} {s w : List α} {c : α}

/-- The maximal runs of elements that are no separators. -/
def words (sep : α → Bool) (s : List α) : List (List α) := (s.splitOnP sep).filter (fun w => !w.isEmpty)

theorem words_append_sep (hc : sep c = true) (s t : List α) : words sep (s ++ c :: t) = words sep s ++ words sep t := by
  unfold words
  rw [List.splitOnP_append_cons s t hc, List.filter_append]

theorem words_nil : words sep ([] : List α) = [] := rfl

/-- **Separators** in front belong to no word. -/
theorem words_skip : ∀ {s t : List α}, (∀ c ∈ s, sep c = true) → words sep (s ++ t) = words sep t
  | [], _, _ => rfl
  | c :: s, t, h => by
      have hrest : words sep (s ++ t) = words sep t := words_skip fun d hd => h d (List.mem_cons_of_mem _ hd)
      have hc := words_append_sep (h c List.mem_cons_self) [] (s ++ t)
      rw [List.cons_append, ← hrest]
      exact hc

theorem words_sep (h : ∀ c ∈ s, sep c = true) : words sep s = [] := by
  have hskip : words sep (s ++ []) = words sep [] := words_skip h
  rwa [List.append_nil, words_nil] at hskip

/-- **The last word.** -/
theorem words_last (hw : w ≠ []) (h : ∀ c ∈ w, sep c = false) : words sep w = [w] := by
  unfold words
  rw [List.splitOnP_eq_singleton h]
  exact List.filter_cons_of_pos (by simp [hw])

/-- **A word** and the separator behind it. -/
theorem words_word (hw : w ≠ []) (h : ∀ c ∈ w, sep c = false) (hc : sep c = true) (s : List α) :
    words sep (w ++ c :: s) = w :: words sep s := by
  rw [words_append_sep hc, words_last hw h, List.singleton_append]

end HeroOS.Words
