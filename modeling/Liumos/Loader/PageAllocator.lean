/-
The page allocator of the loader: a region of physical memory begins with a header and a bitmap with one bit
for each page. The search for a free page starts after the page that was handed out last and wraps around.
Source: loader/src/physical_page_allocator.rs.

Memory is kept by bytes. The fields of a header are apart from it; they lie below the bitmap, in the first
page of the region. A chain of regions is the list of its headers.
-/
import Liumos.Machine.Basic
import Mathlib.Data.Finset.Card

namespace Liumos.Loader

open BitVec Nat Function

/-- Physical memory, by bytes. -/
abbrev PhysBytes := Nat → BitVec 8

structure RegionHeader where
  /-- The address of the header itself. -/
  addr : Word
  numberOfPages : Nat
  numberOfPagesUsed : Nat
  nextPossibleFreeIndex : Nat

namespace RegionHeader

/-- `mem::size_of::<Self>()`: three `usize` and a reference. -/
def size : Nat := 32

/-- The address of the byte of the bitmap with the bit of the page `index`. -/
def bitmapAddr (addr : Word) (index : Nat) : Nat := addr.toNat + size + index / 8

def readAllocationBitmap (addr : Word) (index : Nat) : KM PhysBytes Bool := do
  return (← get) (bitmapAddr addr index) &&& (1#8 <<< (index % 8)) != 0#8

def writeAllocationBitmap (addr : Word) (index : Nat) (data : Bool) : KM PhysBytes Unit := modify fun m =>
  let byte := m (bitmapAddr addr index)
  update m (bitmapAddr addr index)
    (if data then byte ||| (1#8 <<< (index % 8)) else byte &&& ~~~(1#8 <<< (index % 8)))

/-- `for index in i..(i + k)`, with the same value for each. -/
def writeLoop (addr : Word) (data : Bool) : Nat → Nat → KM PhysBytes Unit
  | 0, _ => pure ()
  | k + 1, i => do
    writeAllocationBitmap addr i data
    writeLoop addr data k (i + 1)

/-- The pages that hold the header and, as `init` computes it, the bitmap. -/
def headerPages (numberOfPages : Nat) : Nat := (size + numberOfPages / 8 + 0xFFF) >>> 12

/-- `init(number_of_pages)` of the header at `addr`. -/
def init (addr : Word) (numberOfPages : Nat) : KM PhysBytes RegionHeader := do
  let used := headerPages numberOfPages
  writeLoop addr true used 0
  writeLoop addr false (numberOfPages - used) used
  return ⟨addr, numberOfPages, used, 0⟩

/-- `for index in i..(i + k)`: the first page that is free, marked as used. -/
def searchLoop (addr : Word) : Nat → Nat → KM PhysBytes (Option Nat)
  | 0, _ => return none
  | k + 1, i => do
    if !(← readAllocationBitmap addr i) then
      writeAllocationBitmap addr i true
      return some i
    else searchLoop addr k (i + 1)

/-- The two loops of `allocate_physical_page()`: from `next` to the end, and from the beginning to `next`. -/
def searchFrom (addr : Word) (next numberOfPages : Nat) : KM PhysBytes (Option Nat) := do
  let freeIndex ← searchLoop addr (numberOfPages - next) next
  if freeIndex.isNone then searchLoop addr next 0 else return freeIndex

/-- `allocate_physical_page()` on a chain of regions, with the chain afterwards. -/
def allocatePhysicalPage : List RegionHeader → KM PhysBytes (Option Word × List RegionHeader)
  | [] => return (none, [])
  | self :: next => do
    if self.numberOfPagesUsed = self.numberOfPages then
      let (page, next) ← allocatePhysicalPage next
      return (page, self :: next)
    else
      assert (self.nextPossibleFreeIndex ≤ self.numberOfPages) "self.next_possible_free_index <= self.number_of_pages"
      match ← searchFrom self.addr self.nextPossibleFreeIndex self.numberOfPages with
      | none => throw (.assertFailed "free_index.is_some()")
      | some index =>
        return (some (self.addr + BitVec.ofNat 64 index <<< 12),
          { self with nextPossibleFreeIndex := index + 1, numberOfPagesUsed := self.numberOfPagesUsed + 1 } :: next)

/-- `free_physical_page(physical_page_addr)`, with the header afterwards. -/
def freePhysicalPage (self : RegionHeader) (physicalPageAddr : Word) : KM PhysBytes RegionHeader := do
  assert (physicalPageAddr &&& 0xFFF#64 == 0#64) "physical_page_addr & 0xFFF == 0"
  let index := ((physicalPageAddr - self.addr) >>> 12).toNat
  assert (← readAllocationBitmap self.addr index) "self.read_allocation_bitmap(index)"
  writeAllocationBitmap self.addr index false
  return { self with numberOfPagesUsed := self.numberOfPagesUsed - 1 }

/-! ## Bits -/

/-- The bit of a page. -/
def bit (m : PhysBytes) (addr : Word) (i : Nat) : Bool := (m (bitmapAddr addr i)).getLsbD (i % 8)

/-- Memory with the bit of a page set to a value. -/
def setBit (m : PhysBytes) (addr : Word) (i : Nat) (data : Bool) : PhysBytes :=
  let byte := m (bitmapAddr addr i)
  update m (bitmapAddr addr i)
    (if data then byte ||| (1#8 <<< (i % 8)) else byte &&& ~~~(1#8 <<< (i % 8)))

section

variable {m : PhysBytes} {addr : Word} {i j : Nat}

theorem getLsbD_one_shiftLeft {k l : Nat} (hk : k < 8) : (1#8 <<< k).getLsbD l = decide (l = k) := by
  rw [getLsbD_shiftLeft, getLsbD_one]
  by_cases hl : l = k
  · subst hl
    simp [hk]
  · by_cases hlt : l < k
    · simp [hlt, hl]
    · have : l - k ≠ 0 := by omega
      simp [hl, this]

theorem and_one_shiftLeft_ne_zero (b : BitVec 8) {k : Nat} (hk : k < 8) : (b &&& (1#8 <<< k) != 0#8) = b.getLsbD k := by
  rw [Bool.eq_iff_iff, bne_iff_ne]
  constructor
  · intro h
    by_contra hb
    refine h (eq_of_getLsbD_eq fun l _ => ?_)
    rw [getLsbD_and, getLsbD_one_shiftLeft hk]
    by_cases hl : l = k
    · subst hl
      simp [Bool.not_eq_true _ ▸ hb]
    · simp [hl]
  · intro h h0
    have := congrArg (fun v => v.getLsbD k) h0
    simp [getLsbD_one_shiftLeft hk, h] at this

theorem bit_setBit (m : PhysBytes) (addr : Word) (i j : Nat) (data : Bool) :
    bit (setBit m addr i data) addr j = if j = i then data else bit m addr j := by
  have hlt : i % 8 < 8 := mod_lt _ (by norm_num)
  unfold bit setBit
  by_cases hbyte : bitmapAddr addr j = bitmapAddr addr i
  · rw [hbyte, update_self]
    have hmod : j % 8 = i % 8 ↔ j = i := by
      unfold bitmapAddr at hbyte
      omega
    have hj : j % 8 < 8 := mod_lt _ (by norm_num)
    cases data with
    | true =>
      rw [if_pos rfl, getLsbD_or, getLsbD_one_shiftLeft hlt]
      by_cases hji : j = i <;> simp [hmod, hji]
    | false =>
      rw [if_neg Bool.false_ne_true, getLsbD_and, getLsbD_not, getLsbD_one_shiftLeft hlt]
      by_cases hji : j = i <;> simp [hmod, hji, hj]
  · rw [update_of_ne hbyte, if_neg]
    rintro rfl
    exact hbyte rfl

theorem run_readAllocationBitmap : (readAllocationBitmap addr i).run m = .ok (bit m addr i) m := by
  have h := and_one_shiftLeft_ne_zero (m (bitmapAddr addr i)) (mod_lt i (by norm_num : 0 < 8))
  unfold bit
  rw [← h]
  rfl

theorem run_writeLoop (addr : Word) (data : Bool) : ∀ (k i : Nat) {m : PhysBytes},
    ∃ m', (writeLoop addr data k i).run m = .ok () m' ∧
      (∀ j, bit m' addr j = if i ≤ j ∧ j < i + k then data else bit m addr j) ∧ ∀ x,
      (∀ j, i ≤ j → j < i + k → x ≠ bitmapAddr addr j) → m' x = m x
  | 0, i, m => ⟨m, rfl, fun j => by rw [if_neg (by omega)], fun _ _ => rfl⟩
  | k + 1, i, m => by
    obtain ⟨m', hrun, hbits, hframe⟩ := run_writeLoop addr data k (i + 1) (m := setBit m addr i data)
    refine ⟨m', hrun, fun j => ?_, fun x hx => ?_⟩
    · rw [hbits, bit_setBit]
      split_ifs <;> first | rfl | omega
    · rw [hframe x fun j h1 h2 => hx j (by omega) (by omega)]
      exact update_of_ne (hx i (le_refl i) (by omega)) _ _

/-- What the search finds. -/
theorem run_searchLoop (addr : Word) : ∀ (k i : Nat),
    (∃ j, i ≤ j ∧ j < i + k ∧ bit m addr j = false ∧ (searchLoop addr k i).run m =
      .ok (some j) (setBit m addr j true)) ∨ (searchLoop addr k i).run m = .ok none m ∧ ∀ j, i ≤ j → j < i + k →
      bit m addr j = true
  | 0, i => .inr ⟨rfl, fun j h1 h2 => by omega⟩
  | k + 1, i => by
    rw [searchLoop, run_bind_eq run_readAllocationBitmap]
    cases hi : bit m addr i with
    | false => exact .inl ⟨i, le_refl i, by omega, hi, rfl⟩
    | true =>
      rcases run_searchLoop addr k (i + 1) with ⟨j, h1, h2, hj, hrun⟩ | ⟨hrun, hall⟩
      · exact .inl ⟨j, by omega, by omega, hj, hrun⟩
      · refine .inr ⟨hrun, fun j h1 h2 => ?_⟩
        rcases eq_or_lt_of_le h1 with rfl | hlt
        · exact hi
        · exact hall j hlt (by omega)

/-- `init` marks the pages of the header, as it counts them, and no other. It writes to the bitmap only. -/
theorem run_init (addr : Word) (n : Nat) (m0 : PhysBytes) :
    ∃ m, (init addr n).run m0 = .ok ⟨addr, n, headerPages n, 0⟩ m ∧
      (∀ j < n, bit m addr j = decide (j < headerPages n)) ∧ ∀ x,
      (∀ j, j < headerPages n ∨ j < n → x ≠ bitmapAddr addr j) → m x = m0 x := by
  obtain ⟨m1, hrun1, hbits1, hframe1⟩ := run_writeLoop addr true (headerPages n) 0 (m := m0)
  obtain ⟨m2, hrun2, hbits2, hframe2⟩ := run_writeLoop addr false (n - headerPages n) (headerPages n) (m := m1)
  refine ⟨m2, ?_, fun j hj => ?_, fun x hx => ?_⟩
  · unfold init
    rw [run_bind_eq hrun1, run_bind_eq hrun2]
    rfl
  · rw [hbits2, hbits1]
    by_cases hlt : j < headerPages n
    · rw [if_neg (by omega), if_pos (by omega), decide_eq_true hlt]
    · rw [if_pos (by omega), decide_eq_false hlt]
  · rw [hframe2 x fun j h1 h2 => hx j (by omega), hframe1 x fun j h1 h2 => hx j (by omega)]

end

/-! ## The pages of the header and the bitmap -/

/-- Each byte of the header and of the bitmap for `n` pages lies in a page of the region that is marked as used. -/
def MetadataUsed (m : PhysBytes) (addr : Word) (n : Nat) : Prop :=
  ∀ o < size + (n + 7) / 8, o / 4096 < n ∧ bit m addr (o / 4096) = true

/-- The bitmap is rounded down to whole bytes and the sum up to whole pages. The byte that is lost is missing when the
sum is a whole number of pages already. -/
theorem bitmap_inside_iff (n : Nat) :
    size + (n + 7) / 8 ≤ 4096 * headerPages n ↔ n % 8 = 0 ∨ (size + n / 8) % 4096 ≠ 0 := by
  unfold headerPages size
  rw [shiftRight_eq_div_pow]
  omega

theorem headerPages_le {n : Nat} (hn : 1 ≤ n) : headerPages n ≤ n := by
  unfold headerPages size
  rw [shiftRight_eq_div_pow]
  omega

/-- After `init`, whatever was in memory, header and bitmap lie in used pages unless the bitmap has a last byte that is
not full and the bytes before it end at a page boundary. -/
theorem metadata_used_iff (addr : Word) {n : Nat} (hn : 1 ≤ n) (m0 : PhysBytes) :
    ∃ h m, (init addr n).run m0 = .ok h m ∧ (MetadataUsed m addr n ↔ n % 8 = 0 ∨ (size + n / 8) % 4096 ≠ 0) := by
  obtain ⟨m, hrun, hbits, -⟩ := run_init addr n m0
  refine ⟨_, m, hrun, ?_⟩
  rw [← bitmap_inside_iff]
  have hle := headerPages_le hn
  constructor
  · intro h
    by_contra hlt
    obtain ⟨hpage, hbit⟩ := h (4096 * headerPages n) (by omega)
    rw [Nat.mul_div_cancel_left _ (by norm_num)] at hpage hbit
    rw [hbits _ hpage] at hbit
    exact lt_irrefl _ (of_decide_eq_true hbit)
  · intro h o ho
    have hpage : o / 4096 < headerPages n := by omega
    refine ⟨by omega, ?_⟩
    rw [hbits _ (by omega), decide_eq_true hpage]

/-- In a region of two pages the first page holds both. -/
theorem metadata_used_two :
    1 ≤ 2 ∧ ∃ h m, (init 0x1000#64 2).run (fun _ => 0#8) = .ok h m ∧ MetadataUsed m 0x1000#64 2 := by
  obtain ⟨h, m, hrun, hiff⟩ := metadata_used_iff 0x1000#64 (by decide : 1 ≤ 2) fun _ => 0#8
  exact ⟨by decide, h, m, hrun, hiff.2 (by decide)⟩

/-- With 32513 pages the bitmap has 4065 bytes. Its last one is the first byte of the second page, which is free. -/
theorem bitmap_in_free_page : 1 ≤ 32513 ∧ ∃ h m, (init 0x1000#64 32513).run (fun _ => 0#8) = .ok h m ∧
    4096 < size + (32513 + 7) / 8 ∧ bit m 0x1000#64 1 = false ∧ ¬MetadataUsed m 0x1000#64 32513 := by
  obtain ⟨m, hrun, hbits, -⟩ := run_init 0x1000#64 32513 fun _ => 0#8
  have hfree : bit m 0x1000#64 1 = false := hbits 1 (by decide)
  refine ⟨by decide, _, m, hrun, by decide, hfree, fun h => ?_⟩
  have hused : bit m 0x1000#64 1 = true := (h 4096 (by decide)).2
  rw [hfree] at hused
  cases hused

end RegionHeader

end Liumos.Loader
