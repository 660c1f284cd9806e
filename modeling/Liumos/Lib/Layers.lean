/-
A stack of layers seen from above at one point: the topmost layer that is visible there, and how it
changes when a layer is put into the stack or one layer changes.
-/
import Mathlib.Data.List.Basic

namespace Layers

open List

variable {α : Type} {vis vis' : α → Bool} {l l1 l2 : List α} {c d : α}

/-- The topmost visible layer of a stack, given from the bottom up. -/
def top (vis : α → Bool) (l : List α) : Option α := (l.filter vis).getLast?

@[simp] theorem top_nil : top vis [] = none := rfl

theorem top_append : top vis (l1 ++ l2) = (top vis l2).or (top vis l1) := by
  unfold top
  rw [filter_append, getLast?_append]

theorem top_cons : top vis (c :: l) = (top vis l).or (if vis c then some c else none) := by
  rw [← singleton_append, top_append]
  unfold top
  cases h : vis c <;> simp [h]

theorem mem_of_top (h : top vis l = some c) : c ∈ l ∧ vis c = true := mem_filter.1 (mem_of_getLast? h)

theorem top_congr (h : ∀ c ∈ l, vis c = vis' c) : top vis l = top vis' l := by
  unfold top
  rw [filter_congr h]

theorem top_congr_of_notMem (hv : ∀ e, e ≠ c → vis' e = vis e) (hc : c ∉ l) : top vis' l = top vis l :=
  top_congr fun e he => hv e fun hec => hc (hec ▸ he)

/-- A layer that is not visible may be put anywhere. -/
theorem top_insert_hidden (h : vis c = false) : top vis (l1 ++ c :: l2) = top vis (l1 ++ l2) := by
  rw [top_append, top_append, top_cons, h]
  simp

/-- A layer put into the stack shows itself or what was seen before. -/
theorem top_insert (h : top vis (l1 ++ c :: l2) = some d) (hd : d ≠ c) : top vis (l1 ++ l2) = some d := by
  cases hc : vis c with
  | false => rwa [top_insert_hidden hc] at h
  | true =>
    rw [top_append, top_cons, hc] at h
    rw [top_append]
    cases h2 : top vis l2 with
    | some e =>
      rw [h2] at h
      simpa using h
    | none =>
      rw [h2] at h
      exact absurd (Option.some_inj.1 h).symm hd

theorem top_eq_none : top vis l = none ↔ ∀ d ∈ l, vis d = false := by
  unfold top
  rw [getLast?_eq_none_iff, filter_eq_nil_iff]
  simp

/-- When one layer `c` changes, another layer that is seen afterwards was seen before, or lies below `c`
and was hidden by it. -/
theorem top_change (hv : ∀ e, e ≠ c → vis' e = vis e) (hc : c ∉ l1 ++ l2) (h : top vis' (l1 ++ c :: l2) = some d)
    (hd : d ≠ c) : top vis (l1 ++ c :: l2) = some d ∨ vis c = true ∧ d ∈ l1 := by
  rw [mem_append, not_or] at hc
  have h' := top_insert h hd
  rw [top_append, top_congr_of_notMem hv hc.1, top_congr_of_notMem hv hc.2] at h'
  rw [top_append, top_cons]
  cases h2 : top vis l2 with
  | some e =>
    rw [h2] at h'
    exact .inl (by simpa using h')
  | none =>
    rw [h2] at h'
    cases hvc : vis c with
    | true => exact .inr ⟨rfl, (mem_of_top (show top vis l1 = some d by simpa using h')).1⟩
    | false => exact .inl (by simpa using h')

/-- When one layer `c` may become visible, nothing changes exactly if it was visible before, is not visible, or is
covered. -/
theorem top_show_iff (hv : ∀ e, e ≠ c → vis' e = vis e) (hc : c ∉ l1 ++ l2) (hmono : vis c = true → vis' c = true) :
    top vis' (l1 ++ c :: l2) = top vis (l1 ++ c :: l2) ↔ (vis' c = true → vis c = false → ∃ d ∈ l2, vis d = true) := by
  rw [mem_append, not_or] at hc
  rw [top_append, top_append, top_cons, top_cons, top_congr_of_notMem hv hc.1, top_congr_of_notMem hv hc.2]
  cases h2 : top vis l2 with
  | some e =>
    have he := mem_of_top h2
    exact iff_of_true (by simp) fun _ _ => ⟨e, he⟩
  | none =>
    cases hvc : vis c with
    | true => simp [hmono hvc]
    | false =>
      cases hvc' : vis' c with
      | false => simp
      | true =>
        -- the layer shows, and nothing above it does
        refine iff_of_false (fun h => ?_) fun h => ?_
        · have hshown : top vis l1 = some c := by simpa using h.symm
          exact hc.1 (mem_of_top hshown).1
        · obtain ⟨d, hd, hvd⟩ := h rfl rfl
          rw [top_eq_none.1 h2 d hd] at hvd
          cases hvd

end Layers
