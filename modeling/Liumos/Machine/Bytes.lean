/-
Memory by bytes: the byte at an address is a part of its word, in little-endian order. The copy and clear
loops of libfunc.cc, one byte at a time, and what they leave.
-/
import Liumos.Machine.Basic

namespace Liumos

open BitVec

/-! ## Bytes of words -/

def byteOf (w : Word) (i : Nat) : BitVec 8 := (w >>> (8 * i)).setWidth 8

def setByte (w : Word) (i : Nat) (b : BitVec 8) : Word :=
  (w &&& ~~~(0xFF#64 <<< (8 * i))) ||| (b.setWidth 64 <<< (8 * i))

theorem getLsbD_byteOf (w : Word) (i k : Nat) : (byteOf w i).getLsbD k = (decide (k < 8) && w.getLsbD (8 * i + k)) := by
  rw [byteOf, getLsbD_setWidth, getLsbD_ushiftRight]

theorem byteOf_setByte (w : Word) {i j : Nat} (hi : i < 8) (hj : j < 8) (b : BitVec 8) :
    byteOf (setByte w i b) j = if j = i then b else byteOf w j := by
  apply eq_of_getLsbD_eq
  intro k hk
  have hff : ∀ n, (0xFF#64).getLsbD n = decide (n < 8) := by
    intro n
    rw [show (0xFF#64) = lowMask 8 from rfl, getLsbD_lowMask]
    by_cases h : n < 8
    · simp [h, (by omega : n < 64)]
    · simp [h]
  have h64 : 8 * j + k < 64 := by omega
  rw [getLsbD_byteOf, setByte, getLsbD_or, getLsbD_and, getLsbD_not, getLsbD_shiftLeft, getLsbD_shiftLeft,
    hff, getLsbD_setWidth]
  split_ifs with hij
  · subst hij
    have hge : ¬ 8 * j + k < 8 * j := by omega
    rw [show 8 * j + k - 8 * j = k by omega]
    simp [hk, h64, hge, (by omega : k < 64)]
  · rw [getLsbD_byteOf]
    rcases Nat.lt_or_gt_of_ne hij with hlt | hgt
    · simp [hk, h64, (by omega : 8 * j + k < 8 * i)]
    · have hge : ¬ 8 * j + k - 8 * i < 8 := by omega
      have hb : b.getLsbD (8 * j + k - 8 * i) = false := getLsbD_of_ge _ _ (by omega)
      simp [hk, h64, hge, hb]

/-! ## Bytes of memory -/

/-- The word that holds the byte at `a`. -/
def wordOf (a : Nat) : Nat := a / 8 * 8

def byteAt (m : Mem) (a : Nat) : BitVec 8 := byteOf (m.load (wordOf a)) (a % 8)

def storeByteMem (m : Mem) (a : Nat) (b : BitVec 8) : Mem := m.store (wordOf a) (setByte (m.load (wordOf a)) (a % 8) b)

theorem byteAt_storeByteMem (m : Mem) (a x : Nat) (b : BitVec 8) :
    byteAt (storeByteMem m a b) x = if x = a then b else byteAt m x := by
  unfold byteAt storeByteMem
  by_cases hw : wordOf x = wordOf a
  · rw [hw, WriteBack.Memory.load_store_self,
      byteOf_setByte _ (Nat.mod_lt _ (by norm_num)) (Nat.mod_lt _ (by norm_num))]
    unfold wordOf at hw
    exact if_congr (by omega) rfl rfl
  · rw [WriteBack.Memory.load_store_ne _ _ hw, if_neg (by rintro rfl; exact hw rfl)]

theorem load_storeByteMem_ne (m : Mem) {a x : Nat} (hx : x ≠ wordOf a) (b : BitVec 8) :
    (storeByteMem m a b).load x = m.load x :=
  WriteBack.Memory.load_store_ne _ _ hx

theorem byteAt_congr {m m' : Mem} {a : Nat} (h : m'.load (wordOf a) = m.load (wordOf a)) :
    byteAt m' a = byteAt m a := by
  unfold byteAt
  rw [h]

/-- The little-endian number in the `n` bytes from `a` on. -/
def leWord (m : Mem) : Nat → Nat → Word
  | _, 0 => 0#64
  | a, n + 1 => (byteAt m a).setWidth 64 ||| (leWord m (a + 1) n <<< 8)

theorem leWord_congr {m m' : Mem} :
    ∀ {a n : Nat}, (∀ i < n, byteAt m' (a + i) = byteAt m (a + i)) → leWord m' a n = leWord m a n
  | _, 0, _ => rfl
  | a, n + 1, h => by
    have htail : leWord m' (a + 1) n = leWord m (a + 1) n := by
      refine leWord_congr fun i hi => ?_
      rw [show a + 1 + i = a + (i + 1) by omega]
      exact h (i + 1) (by omega)
    have hhead : byteAt m' a = byteAt m a := h 0 (Nat.succ_pos n)
    rw [leWord, leWord, htail, hhead]

section

variable {σ : Type}

def loadByte (a : Nat) : WM σ (BitVec 8) := do return byteAt (← get).mem a

def storeByte (a : Nat) (b : BitVec 8) : WM σ Unit := modify fun w => { w with mem := storeByteMem w.mem a b }

end

/-! ## `memcpy` and `bzero` -/

namespace Libfunc

section

variable {σ : Type}

/-- The loop of `memcpy` from the `i`-th byte on, with `n` bytes left. -/
def copyLoop (dst src : Nat) : Nat → Nat → WM σ Unit
  | 0, _ => pure ()
  | n + 1, i => do
    let b ← loadByte (src + i)
    storeByte (dst + i) b
    copyLoop dst src n (i + 1)

def memcpy (dst src n : Nat) : WM σ Unit := copyLoop dst src n 0

def zeroLoop (s : Nat) : Nat → Nat → WM σ Unit
  | 0, _ => pure ()
  | n + 1, i => do
    storeByte (s + i) 0#8
    zeroLoop s n (i + 1)

def bzero (s n : Nat) : WM σ Unit := zeroLoop s n 0

end

/-- Memory in which the bytes of `[dst, dst + n)` are those of `f`, and no word without such a byte has changed. -/
structure Filled (m m' : Mem) (dst n : Nat) (f : Nat → BitVec 8) : Prop where
  byte : ∀ x, byteAt m' x = if dst ≤ x ∧ x < dst + n then f (x - dst) else byteAt m x
  load : ∀ x, (∀ i < n, x ≠ wordOf (dst + i)) → m'.load x = m.load x

theorem filled_refl (m : Mem) (dst : Nat) (f : Nat → BitVec 8) : Filled m m dst 0 f :=
  ⟨fun x => by rw [if_neg (by omega)], fun _ _ => rfl⟩

theorem Filled.snoc {m m' : Mem} {dst n : Nat} {f : Nat → BitVec 8} (h : Filled m m' dst n f) :
    Filled m (storeByteMem m' (dst + n) (f n)) dst (n + 1) f := by
  refine ⟨fun x => ?_, fun x hx => ?_⟩
  · rw [byteAt_storeByteMem, h.byte]
    split_ifs with h1 h2 h3 <;> first | rfl | omega | (subst h1; congr 1; omega)
  · rw [load_storeByteMem_ne _ (hx n (Nat.lt_succ_self n)), h.load x fun i hi => hx i (by omega)]

section

variable {σ : Type} {dst src : Nat}

theorem run_copyLoop {m : Mem} {N : Nat} (hdis : ∀ i < N, ∀ j < N, src + i ≠ dst + j) :
    ∀ (n i : Nat) {w : World σ}, i + n = N → Filled m w.mem dst i (fun i => byteAt m (src + i)) →
      ∃ m', (copyLoop dst src n i).run w = .ok () { w with mem := m' } ∧ Filled m m' dst N fun i => byteAt m (src + i)
  | 0, i, w, hi, h => by
    subst hi
    exact ⟨w.mem, rfl, h⟩
  | n + 1, i, w, hi, h => by
    have hsrc : byteAt w.mem (src + i) = byteAt m (src + i) := by
      rw [h.byte, if_neg]
      rintro ⟨h1, h2⟩
      exact hdis i (by omega) (src + i - dst) (by omega) (by omega)
    have hsnoc := h.snoc
    rw [← hsrc] at hsnoc
    exact run_copyLoop hdis n (i + 1) (w := { w with mem := storeByteMem w.mem (dst + i) (byteAt w.mem (src + i)) })
      (by omega) hsnoc

/-- A copy from a range that does not overlap. -/
theorem run_memcpy (dst src n : Nat) (hdis : ∀ i < n, ∀ j < n, src + i ≠ dst + j) (w : World σ) :
    ∃ m', (memcpy dst src n).run w = .ok () { w with mem := m' } ∧
      Filled w.mem m' dst n fun i => byteAt w.mem (src + i) :=
  run_copyLoop hdis n 0 (Nat.zero_add n) (filled_refl _ _ _)

theorem run_zeroLoop {m : Mem} {N : Nat} :
    ∀ (n i : Nat) {w : World σ}, i + n = N → Filled m w.mem dst i (fun _ => 0#8) →
    ∃ m', (zeroLoop dst n i).run w = .ok () { w with mem := m' } ∧ Filled m m' dst N fun _ => 0#8
  | 0, i, w, hi, h => by
    subst hi
    exact ⟨w.mem, rfl, h⟩
  | n + 1, i, w, hi, h =>
    run_zeroLoop n (i + 1) (w := { w with mem := storeByteMem w.mem (dst + i) 0#8 }) (by omega) h.snoc

theorem run_bzero (dst n : Nat) (w : World σ) :
    ∃ m', (bzero dst n).run w = .ok () { w with mem := m' } ∧ Filled w.mem m' dst n fun _ => 0#8 :=
  run_zeroLoop n 0 (Nat.zero_add n) (filled_refl _ _ _)

end

end Libfunc

end Liumos
