/-
The words of a text: its maximal runs of characters that are no separators.
-/
import Mathlib.Data.List.TakeWhile

namespace Words

open List

variable {α : Type} {sep : α → Bool} {c : α} {s : List α}

def words (sep : α → Bool) (s : List α) : List (List α) := (s.splitOnP sep).filter fun w => !w.isEmpty

theorem words_nil : words sep [] = [] := by simp [words]

theorem words_cons_sep (h : sep c = true) : words sep (c :: s) = words sep s := by
  simp [words, splitOnP_cons_eq_if_modifyHead, h]

theorem words_dropWhile (sep : α → Bool) (s : List α) : words sep (s.dropWhile sep) = words sep s := by
  induction s with
  | nil => rfl
  | cons c s ih =>
    rw [dropWhile_cons]
    split_ifs with h
    · rw [ih, words_cons_sep h]
    · rfl

/-- The first word and what comes after it. -/
theorem words_cons (h : sep c = false) :
    words sep (c :: s) = (c :: s.takeWhile fun x => !sep x) :: words sep (s.dropWhile fun x => !sep x) := by
  have hword : ∀ x ∈ c :: s.takeWhile (fun x => !sep x), sep x = false := by
    rintro x (_ | ⟨_, hx⟩)
    · exact h
    · simpa using mem_takeWhile_imp hx
  have hsplit : c :: s = (c :: s.takeWhile fun x => !sep x) ++ s.dropWhile fun x => !sep x := by
    rw [cons_append, takeWhile_append_dropWhile]
  cases hrest : s.dropWhile (fun x => !sep x) with
  | nil =>
    rw [hrest, append_nil] at hsplit
    rw [words_nil, words, hsplit, splitOnP_eq_singleton hword]
    rfl
  | cons d rest =>
    have hd : sep d = true := by
      have := head?_dropWhile_not (fun x => !sep x) s
      rw [hrest] at this
      simpa using this
    rw [hrest] at hsplit
    rw [words_cons_sep hd, words, hsplit, splitOnP_append_cons_of_forall_mem hword d hd]
    rfl

/-- After the separators at its beginning, a text ends or goes on with its first word. -/
theorem dropWhile_cases (sep : α → Bool) (s : List α) : s.dropWhile sep = [] ∧ words sep s = [] ∨
    ∃ w rest, s.dropWhile sep = w ++ rest ∧ words sep s = w :: words sep rest ∧ w ≠ [] ∧ (∀ x ∈ w, sep x = false) ∧
      ∀ x ∈ rest.head?, sep x = true := by
  rw [← words_dropWhile]
  cases hs : s.dropWhile sep with
  | nil => exact .inl ⟨rfl, words_nil⟩
  | cons c t =>
    have hc : sep c = false := by
      have := head?_dropWhile_not sep s
      rw [hs] at this
      simpa using this
    refine .inr ⟨c :: t.takeWhile fun x => !sep x, t.dropWhile fun x => !sep x, ?_, words_cons hc, by simp, ?_, ?_⟩
    · rw [cons_append, takeWhile_append_dropWhile]
    · rintro x (_ | ⟨_, hx⟩)
      · exact hc
      · simpa using mem_takeWhile_imp hx
    · intro x hx
      have := head?_dropWhile_not (fun x => !sep x) t
      rw [Option.mem_def.1 hx] at this
      simpa using this

theorem mem_of_mem_words {w : List α} (hw : w ∈ words sep s) {x : α} (hx : x ∈ w) : x ∈ s := by
  induction hn : s.length using Nat.strong_induction_on generalizing s with
  | _ n ih =>
    cases s with
    | nil => simp [words_nil] at hw
    | cons c s =>
      simp only [length_cons] at hn
      cases hc : sep c with
      | true =>
        rw [words_cons_sep hc] at hw
        exact mem_cons_of_mem c (ih s.length (by omega) hw rfl)
      | false =>
        rw [words_cons hc] at hw
        rcases mem_cons.1 hw with rfl | hw
        · rcases mem_cons.1 hx with rfl | hx
          · exact mem_cons_self
          · exact mem_cons_of_mem c (takeWhile_subset _ hx)
        · have hlen : (s.dropWhile fun x => !sep x).length ≤ s.length := (dropWhile_sublist _).length_le
          exact mem_cons_of_mem c (dropWhile_subset _ (ih _ (by omega) hw rfl))

end Words
