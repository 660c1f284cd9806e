/-
`memmove` of the applications' library. When the destination begins inside the source the bytes are copied
from the last one down, as they have to be; but then the call goes on to `memcpy`, which copies once more
from the first byte up and reads bytes that are overwritten by now. What is left is the beginning of the
source, over and over. Source: liumlib.c (`memmove`, `memcpy`).
-/
import Liumos.Machine.Basic

namespace Liumos.Liumlib

open BitVec Nat Function

/-- The memory of an application, by bytes. -/
abbrev Bytes := Nat → BitVec 8

/-- The loop of `memcpy` from the `i`-th byte on, with `k` bytes left. -/
def copyUp (dest src : Nat) : Nat → Nat → Bytes → Bytes
  | 0, _, m => m
  | k + 1, i, m => copyUp dest src k (i + 1) (update m (dest + i) (m (src + i)))

/-- `memcpy(dest, src, n)` for ranges that do not wrap around. The counter is an `int`, which has room for `n`
below `2 ^ 31`. -/
def memcpy (dest src n : Word) (m : Bytes) : Bytes := copyUp dest.toNat src.toNat n.toNat 0 m

/-- The loop of `memmove` from the byte `i - 1` down. -/
def copyDown (dest src : Nat) : Nat → Bytes → Bytes
  | 0, m => m
  | i + 1, m => copyDown dest src i (update m (dest + i) (m (src + i)))

/-- `memmove(dest, src, n)`. `diff` is an `int64_t`, and is compared with `n` as an unsigned number. -/
def memmove (dest src n : Word) (m : Bytes) : Bytes :=
  let diff := dest - src
  let diff := if diff.slt 0#64 then -diff else diff
  let m := if diff < n ∧ dest ≥ src then copyDown dest.toNat src.toNat n.toNat m else m
  memcpy dest src n m

/-- What a move is for: the bytes of the source are at the destination, and nothing else has changed. -/
structure Moved (dest src n : Nat) (m m' : Bytes) : Prop where
  moved : ∀ i < n, m' (dest + i) = m (src + i)
  frame : ∀ a, a < dest ∨ dest + n ≤ a → m' a = m a

/-! ## The loops -/

section

variable {dest src n : Nat} {m m' : Bytes}

/-- Memory that has `f` in the bytes from `lo` to `hi` of the destination, and is otherwise as it was. -/
def Written (dest lo hi : Nat) (f : Nat → BitVec 8) (m m' : Bytes) : Prop :=
  ∀ a, m' a = if dest + lo ≤ a ∧ a < dest + hi then f (a - dest) else m a

theorem written_refl (i : Nat) (f : Nat → BitVec 8) : Written dest i i f m m := fun a => by rw [if_neg (by omega)]

theorem Written.read {lo hi a : Nat} {f : Nat → BitVec 8} (h : Written dest lo hi f m m')
    (ha : a < dest + lo ∨ dest + hi ≤ a) : m' a = m a := by
  rw [h, if_neg (by omega)]

theorem Written.update {lo hi lo' hi' i : Nat} {f : Nat → BitVec 8} (h : Written dest lo hi f m m') {b : BitVec 8}
    (hb : b = f i) (hrange : ∀ j, (lo' ≤ j ∧ j < hi') ↔ (lo ≤ j ∧ j < hi) ∨ j = i) :
    Written dest lo' hi' f m (update m' (dest + i) b) := by
  intro a
  have hr := hrange (a - dest)
  by_cases ha : a = dest + i
  · subst ha
    rw [update_self, if_pos (by omega), Nat.add_sub_cancel_left, hb]
  · rw [update_of_ne ha, h a]
    exact if_congr (by omega) rfl rfl

/-- Up, from a source that the loop does not come to before it has read it. -/
theorem copyUp_written (h : dest ≤ src ∨ src + n ≤ dest) : ∀ (k i : Nat) {m' : Bytes}, i + k = n →
    Written dest 0 i (fun j => m (src + j)) m m' → Written dest 0 n (fun j => m (src + j)) m (copyUp dest src k i m')
  | 0, i, m', hi, hm => by
    obtain rfl : i = n := hi
    exact hm
  | k + 1, i, m', hi, hm => by
    rw [copyUp]
    refine copyUp_written h k (i + 1) (by omega) (hm.update ?_ fun j => by omega)
    exact hm.read (by omega)

/-- Up, from a source that begins `d` bytes before the destination: from the byte `d` on, the loop reads what it has
written. -/
theorem copyUp_periodic {d : Nat} (hd : 0 < d) (h : src + d = dest) : ∀ (k i : Nat) {m' : Bytes}, i + k = n →
    Written dest 0 i (fun j => m (src + j % d)) m m' → Written dest 0 n (fun j => m (src + j % d)) m
      (copyUp dest src k i m')
  | 0, i, m', hi, hm => by
    obtain rfl : i = n := hi
    exact hm
  | k + 1, i, m', hi, hm => by
    rw [copyUp]
    refine copyUp_periodic hd h k (i + 1) (by omega) (hm.update ?_ fun j => by omega)
    by_cases hlt : i < d
    · rw [hm.read (by omega), mod_eq_of_lt hlt]
    · rw [hm, if_pos (by omega), show src + i - dest = i - d by omega]
      exact congrArg (fun j => m (src + j)) (mod_eq_sub_mod (by omega)).symm

/-- Down, from a source that does not begin after the destination. -/
theorem copyDown_written (h : src ≤ dest) : ∀ (i : Nat) {m' : Bytes}, i ≤ n →
    Written dest i n (fun j => m (src + j)) m m' → Written dest 0 n (fun j => m (src + j)) m (copyDown dest src i m')
  | 0, m', _, hm => hm
  | i + 1, m', hi, hm => by
    rw [copyDown]
    refine copyDown_written h i (by omega) (hm.update ?_ fun j => by omega)
    exact hm.read (by omega)

end

/-! ## The call -/

section

variable {dest src n : Word}

section

variable (hn : n.toNat < 2 ^ 31) (hdest : dest.toNat + n.toNat ≤ 2 ^ 64)

include hn hdest

/-- The test that `memmove` makes, for ranges that do not wrap around. -/
theorem overlap_iff : ((if (dest - src).slt 0#64 then -(dest - src) else dest - src) < n ∧ dest ≥ src) ↔
      src.toNat ≤ dest.toNat ∧ dest.toNat < src.toNat + n.toNat := by
  have hdiff : (if (dest - src).slt 0#64 then -(dest - src) else dest - src).toNat =
      if 2 ^ 63 ≤ (dest - src).toNat then 2 ^ 64 - (dest - src).toNat else (dest - src).toNat := by
    rw [slt_zero_eq_msb, msb_eq_decide]
    by_cases hneg : 2 ^ 63 ≤ (dest - src).toNat
    · rw [if_pos (decide_eq_true hneg), if_pos hneg, toNat_neg]
      omega
    · rw [if_neg (by simpa using hneg), if_neg hneg]
  rw [lt_def, ge_iff_le, le_def, hdiff, toNat_sub]
  split_ifs <;> omega

/-- The result when the destination begins inside the source, after its first byte. -/
theorem memmove_written_periodic (hlt : src.toNat < dest.toNat) (hover : dest.toNat < src.toNat + n.toNat) (m : Bytes) :
    Written dest.toNat 0 n.toNat (fun j => m (src.toNat + j % (dest.toNat - src.toNat))) m (memmove dest src n m) := by
  have hdown := copyDown_written (m := m) hlt.le n.toNat (le_refl _) (written_refl _ _)
  have hd : 0 < dest.toNat - src.toNat := by omega
  intro a
  unfold memmove memcpy
  rw [if_pos ((overlap_iff hn hdest).2 ⟨hlt.le, hover⟩)]
  rw [copyUp_periodic hd (by omega) n.toNat 0 (zero_add _) (written_refl 0 _) a]
  split_ifs with ha
  · have hj := mod_lt (a - dest.toNat) hd
    exact hdown.read (by omega)
  · exact hdown.read (by omega)

/-- The result in all other cases. -/
theorem memmove_written (h : ¬ (src.toNat < dest.toNat ∧ dest.toNat < src.toNat + n.toNat)) (m : Bytes) :
    Written dest.toNat 0 n.toNat (fun j => m (src.toNat + j)) m (memmove dest src n m) := by
  unfold memmove memcpy
  dsimp only
  by_cases hover : src.toNat ≤ dest.toNat ∧ dest.toNat < src.toNat + n.toNat
  · -- only an empty distance is left
    obtain hsame : dest.toNat = src.toNat := by omega
    have hdown := copyDown_written (m := m) hover.1 n.toNat (le_refl _) (written_refl _ _)
    have hid : copyDown dest.toNat src.toNat n.toNat m = m := by
      funext a
      rw [hdown a]
      split_ifs with ha
      · exact congrArg m (by omega)
      · rfl
    rw [if_pos ((overlap_iff hn hdest).2 hover), hid]
    exact copyUp_written (.inl (by omega)) n.toNat 0 (zero_add _) (written_refl 0 _)
  · rw [if_neg (mt (overlap_iff hn hdest).1 hover)]
    exact copyUp_written (by omega) n.toNat 0 (zero_add _) (written_refl 0 _)

end

/-- `memmove` moves the bytes exactly when the destination does not begin inside the source, after its first byte, or
the source repeats itself at that distance. -/
theorem memmove_moved_iff (dest src n : Word) (hn : n.toNat < 2 ^ 31) (hdest : dest.toNat + n.toNat ≤ 2 ^ 64)
    (m : Bytes) : Moved dest.toNat src.toNat n.toNat m (memmove dest src n m) ↔
      (src.toNat < dest.toNat → dest.toNat < src.toNat + n.toNat →
        ∀ i < n.toNat, m (src.toNat + i) = m (src.toNat + i % (dest.toNat - src.toNat))) := by
  by_cases hover : src.toNat < dest.toNat ∧ dest.toNat < src.toNat + n.toNat
  · have h := memmove_written_periodic hn hdest hover.1 hover.2 m
    have hread : ∀ i < n.toNat, memmove dest src n m (dest.toNat + i) =
        m (src.toNat + i % (dest.toNat - src.toNat)) := by
      intro i hi
      rw [h, if_pos (by omega), Nat.add_sub_cancel_left]
    constructor
    · intro hmoved _ _ i hi
      rw [← hmoved.moved i hi, hread i hi]
    · intro hperiodic
      refine ⟨fun i hi => ?_, fun a ha => h.read (by omega)⟩
      rw [hread i hi, hperiodic hover.1 hover.2 i hi]
  · have h := memmove_written hn hdest hover m
    refine iff_of_true ⟨fun i hi => ?_, fun a ha => h.read (by omega)⟩ fun h1 h2 => absurd ⟨h1, h2⟩ hover
    rw [h, if_pos (by omega), Nat.add_sub_cancel_left]

/-- Two bytes to an address that is lower by one. -/
theorem memmove_moved_iff_down :
    Moved 16 17 2 (fun a => BitVec.ofNat 8 a) (memmove 16#64 17#64 2#64 fun a => BitVec.ofNat 8 a) :=
  (memmove_moved_iff 16#64 17#64 2#64 (by decide) (by decide) _).2 fun h => absurd h (by decide)

/-- Two bytes to an address that is higher by one: the first byte arrives twice. -/
theorem memmove_not_moved :
    ¬ Moved 17 16 2 (fun a => BitVec.ofNat 8 a) (memmove 17#64 16#64 2#64 fun a => BitVec.ofNat 8 a) := by
  intro h
  exact absurd (h.moved 1 (by decide)) (by decide)

end

end Liumos.Liumlib
