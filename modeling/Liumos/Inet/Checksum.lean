/-
The Internet checksum of a range of bytes: what `Calc` computes, that a field set from it makes the range
verify, and which bytes it looks at.
Source: network.h (`InternetChecksum::Calc`, `CalcUDPChecksum`, `CalcAndSetChecksum`).
-/
import Liumos.Inet.Sending

namespace Liumos.Inet

open Virtio OnesComplement Nat

/-! ## The words of a range -/

/-- The 16-bit words of the bytes from `start` to `stop`, of which there is an even number. -/
def wordsOf (p : Frame) (start stop : Nat) : List Nat :=
  (List.range ((stop - start) / 2)).map fun k => word p (start + 2 * k)

/-- The one's complement sum of RFC 1071 over the range. -/
def onesSum (p : Frame) (start stop : Nat) : Nat := sum 65536 (wordsOf p start stop)

/-- A range whose words, the checksum among them, add up to all ones. -/
def Verifies (p : Frame) (start stop : Nat) : Prop := onesSum p start stop = 0xFFFF

section

variable {p q : Frame} {start stop : Nat}

theorem wordsOf_lt (p : Frame) (start stop : Nat) : ∀ x ∈ wordsOf p start stop, x < 65536 := by
  intro x hx
  obtain ⟨k, -, rfl⟩ := List.mem_map.1 hx
  exact word_lt p _

theorem sum_wordsOf_lt (p : Frame) (hshort : stop - start < 2 ^ 17) : (wordsOf p start stop).sum < 65536 * 65536 := by
  have hsum : (wordsOf p start stop).sum ≤ (stop - start) / 2 * 65535 := sum_words_le p start _
  omega

theorem wordsOf_congr (h : ∀ i, start ≤ i → i < stop → p i = q i) : wordsOf p start stop = wordsOf q start stop := by
  refine List.map_congr_left fun k hk => ?_
  rw [List.mem_range] at hk
  exact word_congr (h _ (by omega) (by omega)) (h _ (by omega) (by omega))

/-- The loop of `Calc`, on a sum that does not overflow. -/
theorem sumLoop_wordsOf (p : Frame) (heven : (stop - start) % 2 = 0) (hshort : stop - start < 2 ^ 17) :
    sumLoop p (numOfWords start stop) start 0 = (wordsOf p start stop).sum := by
  have hnum : numOfWords start stop = (stop - start) / 2 := by
    unfold numOfWords
    omega
  rw [sumLoop_eq _ _ _ _ (by norm_num), zero_add, hnum]
  exact mod_eq_of_lt (sum_wordsOf_lt p hshort)

/-- `Calc` is the complement of the one's complement sum. -/
theorem calcChecksum_eq (p : Frame) (heven : (stop - start) % 2 = 0) (hshort : stop - start < 2 ^ 17) :
    calcChecksum p start stop = be16 (~~~BitVec.ofNat 16 (onesSum p start stop)) := by
  rw [calcChecksum, sumLoop_wordsOf p heven hshort, finishChecksum,
    fold_eq_sum (by norm_num) (wordsOf_lt p start stop) (sum_wordsOf_lt p hshort), onesSum]

theorem calcChecksum_of_verifies (heven : (stop - start) % 2 = 0) (hshort : stop - start < 2 ^ 17)
    (h : Verifies p start stop) : calcChecksum p start stop = [0#8, 0#8] := by
  rw [calcChecksum_eq p heven hshort, h]
  rfl

/-! ## Setting the field -/

/-- A checksum field that is cleared and then set to `Calc` of the range. -/
def setChecksum (p : Frame) (off start stop : Nat) : Frame :=
  let p := put p off [0#8, 0#8]
  put p off (calcChecksum p start stop)

variable {off k : Nat}

theorem setChecksum_of_ne {o : Nat} (h : o < off ∨ off + 2 ≤ o) : setChecksum p off start stop o = p o := by
  unfold setChecksum
  rcases h with h | h
  · rw [put_of_lt h, put_of_lt h]
  · rw [put_of_ge (by simp; omega), put_of_ge (by simp; omega)]

/-- The sum of a range in which a word is replaced. -/
theorem sum_wordsOf_put (p : Frame) (hk : k < (stop - start) / 2) (x : BitVec 16) :
    (wordsOf (put p (start + 2 * k) (be16 x)) start stop).sum + word p (start + 2 * k) =
    (wordsOf p start stop).sum + x.toNat := by
  obtain ⟨rest, hp, hq⟩ := sum_range_replace (f := fun k => word p (start + 2 * k))
    (g := fun i => word (put p (start + 2 * k) (be16 x)) (start + 2 * i)) hk (fun i hi => word_put_of_ne rfl (by omega))
  rw [word_put_be16] at hq
  rw [wordsOf, wordsOf, hp, hq]
  omega

/-- What the words of a range add up to once the field is set. -/
theorem sum_wordsOf_setChecksum (p : Frame) (hk : k < (stop - start) / 2) (heven : (stop - start) % 2 = 0)
    (hshort : stop - start < 2 ^ 17) : let rest := (wordsOf (put p (start + 2 * k) [0#8, 0#8]) start stop).sum
    (wordsOf (setChecksum p (start + 2 * k) start stop) start stop).sum = rest + (65535 - fold 65536 2 rest) := by
  intro rest
  have hcleared : word (put p (start + 2 * k) [0#8, 0#8]) (start + 2 * k) = 0 := word_put_be16 p _ 0#16
  have hsum := sum_wordsOf_put (put p (start + 2 * k) [0#8, 0#8]) hk (~~~BitVec.ofNat 16 (fold 65536 2 rest))
  have hlt : fold 65536 2 rest < 65536 := fold_lt (by norm_num) (sum_wordsOf_lt _ hshort)
  rw [hcleared, add_zero, BitVec.toNat_not, BitVec.toNat_ofNat, mod_eq_of_lt hlt] at hsum
  rw [setChecksum, calcChecksum, sumLoop_wordsOf _ heven hshort]
  exact hsum

/-- The words then are a multiple of all ones, and not all zero. -/
theorem dvd_sum_setChecksum (p : Frame) (hk : k < (stop - start) / 2) (heven : (stop - start) % 2 = 0)
    (hshort : stop - start < 2 ^ 17) : 65535 ∣ (wordsOf (setChecksum p (start + 2 * k) start stop) start stop).sum ∧
      0 < (wordsOf (setChecksum p (start + 2 * k) start stop) start stop).sum := by
  rw [sum_wordsOf_setChecksum p hk heven hshort]
  have hlt := sum_wordsOf_lt (put p (start + 2 * k) [0#8, 0#8]) hshort
  generalize (wordsOf (put p (start + 2 * k) [0#8, 0#8]) start stop).sum = rest at hlt ⊢
  constructor
  · have h := (dvd_complement (b := 65536) (s := rest) (t := 0) (by norm_num)).2
    rw [add_zero, mod_eq_of_lt hlt, div_eq_of_lt hlt] at h
    exact h rfl
  · have hzero : fold 65536 2 0 = 0 := rfl
    rcases Nat.eq_zero_or_pos rest with rfl | hpos
    · omega
    · omega

theorem verifies_setChecksum (p : Frame) (hstart : start ≤ off) (hstop : off + 2 ≤ stop)
    (haligned : (off - start) % 2 = 0) (heven : (stop - start) % 2 = 0) (hshort : stop - start < 2 ^ 17) :
    Verifies (setChecksum p off start stop) start stop := by
  obtain ⟨k, rfl⟩ : ∃ k, off = start + 2 * k := ⟨(off - start) / 2, by omega⟩
  obtain ⟨hdvd, hpos⟩ := dvd_sum_setChecksum p (show k < (stop - start) / 2 by omega) heven hshort
  exact (sum_eq_top (by norm_num) (wordsOf_lt _ _ _) hpos).2 hdvd

/-- The Internet checksum law: once a field is cleared and set to `Calc` of the range around it, `Calc` of the range is
zero; and `Calc` always is the complement of the one's complement sum. -/
theorem internet_checksum_law (p : Frame) {off : Nat} (hstart : start ≤ off) (hstop : off + 2 ≤ stop)
    (haligned : (off - start) % 2 = 0) (heven : (stop - start) % 2 = 0) (hshort : stop - start < 2 ^ 17) :
    calcChecksum (setChecksum p off start stop) start stop = [0#8, 0#8] ∧
      calcChecksum p start stop = be16 (~~~BitVec.ofNat 16 (onesSum p start stop)) := by
  constructor
  · exact calcChecksum_of_verifies heven hshort (verifies_setChecksum p hstart hstop haligned heven hshort)
  · exact calcChecksum_eq p heven hshort

/-- Four bytes, the last two of them the checksum. -/
theorem internet_checksum_law_four : calcChecksum (setChecksum (fun i => BitVec.ofNat 8 i) 2 0 4) 0 4 = [0#8, 0#8] ∧
    calcChecksum (fun i => BitVec.ofNat 8 i) 0 4 =
      be16 (~~~BitVec.ofNat 16 (onesSum (fun i => BitVec.ofNat 8 i) 0 4)) :=
  internet_checksum_law _ (by decide) (by decide) (by decide) (by decide) (by decide)

end

/-! ## The bytes that are read -/

section

variable {start stop : Nat}

/-- Two memories with the same bytes from `start` to `stop`. -/
def AgreeOn (start stop : Nat) (p q : Frame) : Prop := ∀ i, start ≤ i → i < stop → p i = q i

theorem AgreeOn.readAddr {p q : Frame} {off : Nat} (h : AgreeOn start stop p q) (hstart : start ≤ off)
    (hstop : off + 4 ≤ stop) : readAddr p off = readAddr q off := by
  rw [Inet.readAddr, Inet.readAddr, h off (by omega) (by omega), h (off + 1) (by omega) (by omega),
    h (off + 2) (by omega) (by omega), h (off + 3) (by omega) (by omega)]

theorem AgreeOn.readBe16 {p q : Frame} {off : Nat} (h : AgreeOn start stop p q) (hstart : start ≤ off)
    (hstop : off + 2 ≤ stop) : readBe16 p off = readBe16 q off := by
  rw [Inet.readBe16, Inet.readBe16, h off (by omega) (by omega), h (off + 1) (by omega) (by omega)]

/-- The memory with zeros behind the range. -/
def zeroPadded (p : Frame) (stop : Nat) : Frame := fun i => if i < stop then p i else 0#8

/-- A checksum that depends on the bytes of its range only, with a zero byte behind a range of odd length. -/
structure CoveredOnly (start stop : Nat) (f : Frame → List Byte) : Prop where
  agree : ∀ p q, AgreeOn start stop p q → f p = f q
  padded : ∀ p, f p = f (zeroPadded p stop)

/-- One position after the other, two bytes each. -/
theorem sumLoop_congr {p q : Frame} :
    ∀ n i sum, (∀ j, i ≤ j → j < i + 2 * n → p j = q j) → sumLoop p n i sum = sumLoop q n i sum
  | 0, _, _, _ => rfl
  | n + 1, i, sum, h => by
    rw [sumLoop, sumLoop, word_congr (h i (by omega) (by omega)) (h (i + 1) (by omega) (by omega))]
    exact sumLoop_congr n (i + 2) _ fun j hj hj' => h j (by omega) (by omega)

/-- Whatever is summed before, a sum over a range of even length reads the range only. -/
theorem coveredOnly_of_even (sum : Nat) (heven : (stop - start) % 2 = 0) :
    CoveredOnly start stop fun p => finishChecksum (sumLoop p (numOfWords start stop) start sum) := by
  have hagree : ∀ p q, AgreeOn start stop p q →
      finishChecksum (sumLoop p (numOfWords start stop) start sum) = finishChecksum
      (sumLoop q (numOfWords start stop) start sum) := by
    intro p q h
    rw [sumLoop_congr _ _ _ fun j hj hj' => h j hj ?_]
    unfold numOfWords at hj'
    omega
  exact ⟨hagree, fun p => hagree _ _ fun _ _ hi => (if_pos hi).symm⟩

/-- A memory that is zero up to the byte behind the range. -/
def strayByte (stop : Nat) (b : Byte) : Frame := fun i => if i = stop then b else 0#8

theorem agreeOn_strayByte (b b' : Byte) : AgreeOn start stop (strayByte stop b) (strayByte stop b') := by
  intro i _ hi
  rw [strayByte, strayByte, if_neg (by omega), if_neg (by omega)]

/-- The sum over a range of odd length has the byte behind it as its last summand. -/
theorem sumLoop_strayByte (b : Byte) : ∀ n i, i + 2 * n + 1 = stop →
    ∀ sum, sum + b.toNat < 2 ^ 32 → sumLoop (strayByte stop b) (n + 1) i sum = sum + b.toNat
  | 0, i, h, sum, hsum => by
    have h0 : strayByte stop b i = 0#8 := if_neg (by omega)
    have h1 : strayByte stop b (i + 1) = b := if_pos (by omega)
    rw [sumLoop, sumLoop, word, h0, h1]
    simpa using mod_eq_of_lt hsum
  | n + 1, i, h, sum, hsum => by
    have h0 : strayByte stop b i = 0#8 := if_neg (by omega)
    have h1 : strayByte stop b (i + 1) = 0#8 := if_neg (by omega)
    have hword : word (strayByte stop b) i = 0 := by
      rw [word, h0, h1]
      rfl
    rw [sumLoop, hword, add_zero, mod_eq_of_lt (by omega)]
    exact sumLoop_strayByte b n (i + 2) (by omega) sum hsum

/-- A checksum over a range of odd length depends on the byte behind it. -/
theorem calcChecksum_strayByte_ne (h : start ≤ stop) (hodd : (stop - start) % 2 = 1) :
    calcChecksum (strayByte stop 0#8) start stop ≠ calcChecksum (strayByte stop 1#8) start stop := by
  obtain ⟨n, hn, hstop⟩ : ∃ n, numOfWords start stop = n + 1 ∧ start + 2 * n + 1 = stop :=
    ⟨(stop - start) / 2, by unfold numOfWords; omega, by omega⟩
  rw [calcChecksum, calcChecksum, hn, sumLoop_strayByte _ n start hstop _ (by decide),
    sumLoop_strayByte _ n start hstop _ (by decide)]
  decide

/-- `Calc` and `CalcUDPChecksum` look at the bytes of their range only exactly if its length is even. -/
theorem checksum_coveredOnly_iff (h : start ≤ stop) : (CoveredOnly start stop (fun p => calcChecksum p start stop) ∧
      ∀ srcAddr dstAddr length, CoveredOnly start stop fun p => calcUDPChecksum p start stop srcAddr dstAddr length) ↔
    (stop - start) % 2 = 0 := by
  constructor
  · rintro ⟨hcalc, -⟩
    by_contra hodd
    exact calcChecksum_strayByte_ne h (by omega) (hcalc.agree _ _ (agreeOn_strayByte _ _))
  · intro heven
    exact ⟨coveredOnly_of_even _ heven, fun _ _ _ => coveredOnly_of_even _ heven⟩

theorem checksum_coveredOnly_header : CoveredOnly 14 34 (fun p => calcChecksum p 14 34) ∧
      ∀ srcAddr dstAddr length, CoveredOnly 14 34 fun p => calcUDPChecksum p 14 34 srcAddr dstAddr length :=
  (checksum_coveredOnly_iff (by decide)).2 (by decide)

/-- The checksum of a single byte, with a zero and a one behind it. -/
theorem checksum_reads_behind : ∃ p q, AgreeOn 0 1 p q ∧ calcChecksum p 0 1 ≠ calcChecksum q 0 1 ∧
    calcUDPChecksum p 0 1 ⟨0#8, 0#8, 0#8, 0#8⟩ ⟨0#8, 0#8, 0#8, 0#8⟩ 1#16 ≠
      calcUDPChecksum q 0 1 ⟨0#8, 0#8, 0#8, 0#8⟩ ⟨0#8, 0#8, 0#8, 0#8⟩ 1#16 :=
  ⟨strayByte 1 0#8, strayByte 1 1#8, agreeOn_strayByte _ _, by decide, by decide⟩

end

end Liumos.Inet
