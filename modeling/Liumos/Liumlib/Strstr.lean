/-
Substring search of the applications' library. `strncmp` also returns 0 when one of the strings ends early, so at the
end of the haystack `strstr` takes the beginning of the needle for all of it. Source: liumlib.c (`strstr`, `strncmp`).
-/
import Liumos.Machine.Basic

namespace Liumos.Liumlib

open List Nat

/-- A string, by the characters before its terminator. -/
abbrev CString := List (BitVec 8)

variable {haystack needle s : CString}

/-- `strncmp(s1, s2, n)`. -/
def strncmp : Nat → CString → CString → Int
  | 0, _, _ => 0
  | _ + 1, [], _ => 0
  | _ + 1, _, [] => 0
  | n + 1, a :: s₁, b :: s₂ => if a ≠ b then 1 else strncmp n s₁ s₂

/-- The loop of `strstr`, `i` characters into the haystack. -/
def strstrFrom (needleLen : Nat) (needle : CString) (i : Nat) : CString → Option Nat
  | [] => none
  | c :: cs => if strncmp needleLen (c :: cs) needle = 0 then some i else strstrFrom needleLen needle (i + 1) cs

/-- The `int` that has the length of the needle, as the `unsigned long` it is passed as. -/
def needleLen (needle : CString) : Nat := ((BitVec.ofNat 32 needle.length).signExtend 64).toNat

/-- `strstr(haystack, needle)`, as an offset into the haystack. -/
def strstr (haystack needle : CString) : Option Nat := strstrFrom (needleLen needle) needle 0 haystack

/-- What the search is for. -/
def FirstOccurrence (haystack needle : CString) : Option Nat → Prop
  | some i => needle <+: haystack.drop i ∧ ∀ j < i, ¬needle <+: haystack.drop j
  | none => ∀ j, ¬needle <+: haystack.drop j

/-- Equal in the first `n` characters, as far as both strings go. -/
def Agree (n : Nat) (s₁ s₂ : CString) : Prop := s₁.take n <+: s₂ ∨ s₂.take n <+: s₁

theorem strncmp_eq_zero_iff : ∀ {n : Nat} {s₁ s₂ : CString}, strncmp n s₁ s₂ = 0 ↔ Agree n s₁ s₂
  | 0, _, _ => iff_of_true rfl (.inl nil_prefix)
  | _ + 1, [], _ => iff_of_true rfl (.inl nil_prefix)
  | _ + 1, _ :: _, [] => iff_of_true rfl (.inr nil_prefix)
  | n + 1, a :: s₁, b :: s₂ => by
    rw [strncmp, Agree, take_succ_cons, take_succ_cons, cons_prefix_cons, cons_prefix_cons]
    by_cases hab : a = b
    · rw [if_neg (not_not.2 hab), strncmp_eq_zero_iff, Agree, and_iff_right hab, and_iff_right hab.symm]
    · rw [if_pos hab]
      exact iff_of_false one_ne_zero (by rintro (h | h) <;> exact hab (by simp [h.1]))

/-- The loop finds the first position where `strncmp` returns 0. -/
theorem strstrFrom_spec (needle : CString) (k : Nat) :
    ∀ i h, (∃ r, strstrFrom k needle i h = some (i + r) ∧ Agree k (h.drop r) needle ∧ r < h.length ∧
      ∀ j < r, ¬Agree k (h.drop j) needle) ∨
    (strstrFrom k needle i h = none ∧ ∀ j < h.length, ¬Agree k (h.drop j) needle)
  | i, [] => .inr ⟨rfl, nofun⟩
  | i, c :: cs => by
    rw [strstrFrom]
    by_cases hc : Agree k (c :: cs) needle
    · exact .inl ⟨0, if_pos (strncmp_eq_zero_iff.2 hc), hc, succ_pos _, nofun⟩
    · rw [if_neg fun h => hc (strncmp_eq_zero_iff.1 h)]
      rcases strstrFrom_spec needle k (i + 1) cs with ⟨r, hr, hag, hlt, hfirst⟩ | ⟨hr, hno⟩
      · refine .inl ⟨r + 1, by rw [hr, add_right_comm, add_assoc], hag, succ_lt_succ hlt, ?_⟩
        rintro (_ | j) hj
        · exact hc
        · exact hfirst j (lt_of_succ_lt_succ hj)
      · refine .inr ⟨hr, ?_⟩
        rintro (_ | j) hj
        · exact hc
        · exact hno j (lt_of_succ_lt_succ hj)

theorem agree_of_occurs {n : Nat} (h : needle <+: s) : Agree n s needle := .inr (.trans ( take_prefix n needle) h)

theorem needleLen_eq (h : needle.length < 2 ^ 31) : needleLen needle = needle.length := by
  have hnat : (BitVec.ofNat 32 needle.length).toNat = needle.length := by
    rw [BitVec.toNat_ofNat, mod_eq_of_lt (by omega)]
  have hmsb : (BitVec.ofNat 32 needle.length).msb = false := by
    rw [BitVec.msb_eq_false_iff_two_mul_lt, hnat]
    omega
  rw [needleLen, BitVec.signExtend_eq_setWidth_of_msb_false hmsb, BitVec.toNat_setWidth, hnat, mod_eq_of_lt (by omega)]

theorem agree_length_iff : Agree needle.length s needle ↔ s <+: needle ∨ needle <+: s := by
  rw [Agree, take_length]
  constructor
  · rintro (h | h)
    · rcases le_total s.length needle.length with hle | hle
      · exact .inl (by rwa [take_of_length_le hle] at h)
      · refine .inr ?_
        rw [← h.eq_of_length (by rw [length_take, min_eq_left hle])]
        exact take_prefix _ _
    · exact .inr h
  · exact Or.imp_left ( take_prefix _ _).trans

/-- The search is exact if and only if, wherever the rest of the haystack agrees with the needle as far as they go (and
as far as `needle_len` says), the needle occurs there or before. -/
theorem firstOccurrence_strstr_iff (hneedle : needle ≠ []) : FirstOccurrence haystack needle (strstr haystack needle) ↔
    ∀ i < haystack.length, Agree (needleLen needle) (haystack.drop i) needle → ∃ j ≤ i, needle <+: haystack.drop j := by
  have hlt : ∀ {j}, needle <+: haystack.drop j → j < haystack.length := by
    intro j hj
    by_contra hge
    rw [drop_eq_nil_of_le (Nat.le_of_not_lt hge), prefix_nil] at hj
    exact hneedle hj
  rcases strstrFrom_spec needle (needleLen needle) 0 haystack with ⟨r, hr, hag, hrlt, hfirst⟩ | ⟨hr, hno⟩
  · rw [strstr, hr, zero_add]
    constructor
    · rintro ⟨hocc, -⟩ i _ hi
      exact ⟨r, Nat.le_of_not_lt fun h => hfirst i h hi, hocc⟩
    · intro hall
      obtain ⟨j, hj, hocc⟩ := hall r hrlt hag
      obtain rfl : j = r := hj.antisymm (Nat.le_of_not_lt fun h => hfirst j h (agree_of_occurs hocc))
      exact ⟨hocc, fun i hi h => hfirst i hi (agree_of_occurs h)⟩
  · rw [strstr, hr]
    exact iff_of_true (fun j hj => hno j (hlt hj) (agree_of_occurs hj)) fun i hi h => absurd h (hno i hi)

/-- For a needle whose length is an `int`: it occurs, or no end of the haystack is a beginning of it. -/
theorem strstr_exact_iff (hneedle : needle ≠ []) :
    (FirstOccurrence haystack needle (strstr haystack needle) ↔ ∀ i < haystack.length,
      Agree (needleLen needle) (haystack.drop i) needle → ∃ j ≤ i, needle <+: haystack.drop j) ∧
    (needle.length < 2 ^ 31 → (FirstOccurrence haystack needle (strstr haystack needle) ↔
      (∃ j, needle <+: haystack.drop j) ∨ ∀ i < haystack.length, ¬haystack.drop i <+: needle)) := by
  refine ⟨firstOccurrence_strstr_iff hneedle, fun hlen => ?_⟩
  rw [firstOccurrence_strstr_iff hneedle, needleLen_eq hlen]
  simp only [agree_length_iff]
  constructor
  · intro h
    by_contra hno
    rw [not_or, not_exists] at hno
    obtain ⟨hno, hend⟩ := hno
    refine hend fun i hi hpre => ?_
    obtain ⟨j, -, hj⟩ := h i hi (.inl hpre)
    exact hno j hj
  · rintro (⟨j, hj⟩ | hend) i hi (hpre | hocc)
    · -- what is left of the haystack is no longer than at `j`
      refine ⟨j, ?_, hj⟩
      have hle := hpre.length_le.trans hj.length_le
      rw [length_drop, length_drop] at hle
      omega
    · exact ⟨i, le_refl i, hocc⟩
    · exact absurd hpre (hend i hi)
    · exact ⟨i, le_refl i, hocc⟩

/-- `ba` in `abab`. -/
theorem strstr_exact_ba :
    FirstOccurrence [97#8, 98#8, 97#8, 98#8] [98#8, 97#8] (strstr [97#8, 98#8, 97#8, 98#8] [98#8, 97#8]) :=
  ((strstr_exact_iff (by decide)).2 (by decide)).2 (.inl ⟨1, by decide⟩)

/-- `ab` is found in `a`. -/
theorem strstr_beyond : strstr [97#8] [97#8, 98#8] = some 0 ∧ ¬FirstOccurrence [97#8] [97#8, 98#8] (some 0) := by
  refine ⟨by decide, fun h => ?_⟩
  cases h.1.length_le.not_gt (by decide)

end Liumos.Liumlib
