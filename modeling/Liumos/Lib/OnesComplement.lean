/-
One's complement sums: addition with end-around carry in a base `b`, and the checksum that makes such a sum
come out as `b - 1`.
-/
import Mathlib.Data.Nat.ModEq
import Mathlib.Tactic.Linarith

namespace OnesComplement

open Nat

variable {b s t k : Nat}

/-- The carry out of the lowest digit, added to it. -/
def carry (b s : Nat) : Nat := s % b + s / b

/-- At most `k` rounds of `while (s has a carry) s = carry s`. -/
def fold (b : Nat) : Nat → Nat → Nat
  | 0, s => s
  | k + 1, s => if s < b then s else fold b k (carry b s)

theorem carry_modEq (hb : 1 ≤ b) (s : Nat) : carry b s ≡ s [MOD (b - 1)] := by
  obtain ⟨d, rfl⟩ : ∃ d, b = d + 1 := ⟨b - 1, by omega⟩
  have h : s = carry (d + 1) s + d * (s / (d + 1)) := by
    have := mod_add_div s (d + 1)
    unfold carry
    linarith
  rw [Nat.add_sub_cancel]
  conv_rhs => rw [h]
  exact (modEq_iff_dvd' (le_add_right _ _)).2 (by simp)

theorem fold_modEq (hb : 1 ≤ b) : ∀ k s, fold b k s ≡ s [MOD (b - 1)]
  | 0, _ => rfl
  | k + 1, s => by
    rw [fold]
    split
    · rfl
    · exact (fold_modEq hb k _).trans (carry_modEq hb s)

@[simp] theorem carry_zero (b : Nat) : carry b 0 = 0 := by simp [carry]

theorem carry_pos_iff (hb : 1 ≤ b) : 0 < carry b s ↔ 0 < s := by
  constructor
  · intro h
    by_contra hs
    rw [show s = 0 by omega, carry_zero] at h
    exact lt_irrefl 0 h
  · intro hs
    unfold carry
    rcases lt_or_ge s b with h | h
    · rw [mod_eq_of_lt h]
      exact lt_of_lt_of_le hs (le_add_right _ _)
    · have := div_pos h (by omega)
      omega

theorem fold_pos_iff (hb : 1 ≤ b) : 0 < fold b k s ↔ 0 < s := by
  induction k generalizing s with
  | zero => rfl
  | succ k ih =>
    rw [fold]
    split
    · rfl
    · rw [ih, carry_pos_iff hb]

/-- Two rounds are enough for a sum of two digits. -/
theorem fold_lt (hb : 2 ≤ b) (hs : s < b * b) : fold b 2 s < b := by
  have hdiv : s / b < b := Nat.div_lt_of_lt_mul hs
  have hmod : s % b < b := mod_lt s (by omega)
  rw [fold]
  split
  · assumption
  · rw [fold]
    split
    · assumption
    · rename_i hc
      show carry b (carry b s) < b
      have hc' : carry b s = b + (carry b s - b) := by omega
      have hlt : carry b s - b < b - 1 := by
        unfold carry
        omega
      rw [hc', carry, add_mod_left, add_div_left _ (by omega), mod_eq_of_lt (by omega), div_eq_of_lt (by omega)]
      omega

variable {x y : Nat} {l : List Nat}

/-- Digits that count the same modulo `b - 1` are the same, but for the two ways of writing zero. -/
theorem eq_of_modEq (hx : x < b) (hy : y < b) (hpos : 0 < x ↔ 0 < y) (h : x ≡ y [MOD (b - 1)]) : x = y := by
  wlog hle : x ≤ y generalizing x y
  · exact (this hy hx hpos.symm h.symm (by omega)).symm
  · obtain ⟨d, hd⟩ := (modEq_iff_dvd' hle).1 h
    rcases Nat.eq_zero_or_pos d with rfl | hd'
    · omega
    · have := mul_le_mul_left (b - 1) hd'
      omega

theorem fold_eq_fold (hb : 2 ≤ b) (hs : s < b * b) (ht : t < b * b) (hpos : 0 < s ↔ 0 < t) (h : s ≡ t [MOD (b - 1)]) :
    fold b 2 s = fold b 2 t := by
  have hb' : 1 ≤ b := by omega
  refine eq_of_modEq (fold_lt hb hs) (fold_lt hb ht) ?_ ((fold_modEq hb' 2 s).trans (h.trans (fold_modEq hb' 2 t).symm))
  rw [fold_pos_iff hb', fold_pos_iff hb', hpos]

/-! ## Sums -/

/-- The one's complement sum of digits. -/
def sum (b : Nat) (l : List Nat) : Nat := l.foldl (fun acc x => carry b (acc + x)) 0

theorem carry_add_lt (hx : x < b) (hy : y < b) : carry b (x + y) < b := by
  unfold carry
  rcases lt_or_ge (x + y) b with h | h
  · rw [mod_eq_of_lt h, div_eq_of_lt h]
    exact h
  · rw [Nat.mod_eq_sub_mod h, Nat.mod_eq_of_lt (by omega), Nat.div_eq_of_lt_le (k := 1) (by omega) (by omega)]
    omega

/-- What adding digits to an accumulator keeps: it stays a digit, counts the same modulo `b - 1`, and is zero
exactly if everything was. -/
theorem foldl_carry (hb : 1 ≤ b) : ∀ (l : List Nat) (acc : Nat), acc < b → (∀ x ∈ l, x < b) →
    l.foldl (fun acc x => carry b (acc + x)) acc < b ∧
    l.foldl (fun acc x => carry b (acc + x)) acc ≡ acc + l.sum [MOD (b - 1)] ∧
    (0 < l.foldl (fun acc x => carry b (acc + x)) acc ↔ 0 < acc + l.sum)
  | [], acc, hacc, _ => ⟨hacc, by simp [Nat.ModEq], by simp⟩
  | x :: l, acc, hacc, hl => by
    have hx : x < b := hl x (by simp)
    obtain ⟨h1, h2, h3⟩ := foldl_carry hb l (carry b (acc + x)) (carry_add_lt hacc hx) fun y hy => hl y (by simp [hy])
    refine ⟨h1, h2.trans ?_, h3.trans ?_⟩
    · rw [List.sum_cons, ← add_assoc]
      exact (carry_modEq hb _).add_right _
    · rw [List.sum_cons, ← add_assoc, add_pos_iff_pos_or_pos, add_pos_iff_pos_or_pos, carry_pos_iff hb]

section

variable (hb : 1 ≤ b) (hl : ∀ x ∈ l, x < b)

include hb hl

theorem sum_lt : sum b l < b := (foldl_carry hb l 0 (by omega) hl).1

theorem sum_modEq : sum b l ≡ l.sum [MOD (b - 1)] := by
  have h := (foldl_carry hb l 0 (by omega) hl).2.1
  rwa [zero_add] at h

theorem sum_pos_iff : 0 < sum b l ↔ 0 < l.sum := by
  have h := (foldl_carry hb l 0 (by omega) hl).2.2
  rwa [zero_add] at h

/-- A sum of digits comes out as all ones exactly if it is a multiple of `b - 1`. -/
theorem sum_eq_top (hpos : 0 < l.sum) : sum b l = b - 1 ↔ b - 1 ∣ l.sum := by
  have hlt := sum_lt hb hl
  have hmod := sum_modEq hb hl
  have hp := (sum_pos_iff hb hl).2 hpos
  rw [← modEq_zero_iff_dvd]
  constructor
  · intro h
    rw [h] at hmod
    exact hmod.symm.trans (modEq_zero_iff_dvd.2 (dvd_refl _))
  · intro h
    have hdvd := modEq_zero_iff_dvd.1 (hmod.trans h)
    have := le_of_dvd hp hdvd
    omega

end

/-- Carrying at every addition or only at the end makes no difference. -/
theorem fold_eq_sum (hb : 2 ≤ b) (hl : ∀ x ∈ l, x < b) (hsum : l.sum < b * b) : fold b 2 l.sum = sum b l := by
  have hb' : 1 ≤ b := by omega
  refine eq_of_modEq (fold_lt hb hsum) (sum_lt hb' hl) ?_ ((fold_modEq hb' 2 _).trans (sum_modEq hb' hl).symm)
  rw [fold_pos_iff hb', sum_pos_iff hb' hl]

/-- The complement of a sum that was computed with `t` in it and reduced to two digits, put in the place of `t`: the
sum then is a multiple of `b - 1` exactly if `t` counted as what the reduction lost. -/
theorem dvd_complement (hb : 2 ≤ b) :
    b - 1 ∣ s + (b - 1 - fold b 2 ((s + t) % (b * b))) ↔ t ≡ (s + t) / (b * b) [MOD (b - 1)] := by
  have hlt := fold_lt hb (mod_lt (s + t) (mul_pos (show 0 < b by omega) (show 0 < b by omega)))
  have hfold := fold_modEq (by omega) 2 ((s + t) % (b * b)) (b := b)
  generalize fold b 2 ((s + t) % (b * b)) = c at hlt hfold ⊢
  have hone : b * b ≡ 1 [MOD (b - 1)] := by
    have h : b ≡ 1 [MOD (b - 1)] := (modEq_iff_dvd' (by omega)).2 (dvd_refl _) |>.symm
    exact h.mul h
  -- the sum, split into what is kept and what is lost
  have hsplit : s + t ≡ c + (s + t) / (b * b) [MOD (b - 1)] := by
    have h := hfold.symm.add (hone.mul_right ((s + t) / (b * b)))
    rw [mod_add_div, one_mul] at h
    exact h
  have hself : b - 1 ≡ 0 [MOD (b - 1)] := modEq_zero_iff_dvd.2 (dvd_refl _)
  have hkept : b - 1 ∣ s + (b - 1 - c) ↔ s ≡ c [MOD (b - 1)] := by
    rw [← modEq_zero_iff_dvd]
    constructor
    · intro h
      have h' := h.add_right c
      rw [Nat.add_assoc, Nat.sub_add_cancel (by omega), Nat.zero_add] at h'
      exact (hself.add_left s).symm.trans h'
    · intro h
      refine (h.add_right _).trans ?_
      rw [Nat.add_sub_cancel' (by omega)]
      exact hself
  rw [hkept]
  constructor
  · intro h
    exact Nat.ModEq.add_left_cancel h hsplit
  · intro h
    exact Nat.ModEq.add_right_cancel h hsplit

end OnesComplement
