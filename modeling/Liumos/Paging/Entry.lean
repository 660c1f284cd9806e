/-
Page table entries: the four instances of `PageTableEntryStruct`, as functions of the entry's data
word. A level counts the table levels below it, so `IA_PTE` is level 0, `IA_PDE` 1, `IA_PDPTE` 2
and `IA_PML4E` 3; levels 0 to 2 can map a page, levels 1 to 3 can hold a table.
Source: paging.h. `GetPhysAddrMask()` is the parameter `mask`.
-/
import Liumos.Machine.Basic

namespace Liumos.Paging

open BitVec (getLsbD_and getLsbD_not)
open BitVec (twoPow getLsbD ofNat getLsbD_zero eq_of_getLsbD_eq getLsbD_or getLsbD_of_ge getLsbD_twoPow)

def kAddrCannotTranslate : Word := 0x8000000000000000#64

def kPageAttrMask : Word := 0b11111#64
def kPageAttrPresent : Word := 0b00001#64
def kPageAttrWritable : Word := 0b00010#64
def kPageAttrUser : Word := 0b00100#64

/-! ## The entry's functions -/

def kIndexShift (l : Nat) : Nat := 12 + 9 * l
def kNumOfEntries : Nat := 512
def kIndexMask : Word := 511#64
def kOffsetMask (l : Nat) : Word := (1#64 <<< kIndexShift l) - 1#64

/-- `is_page_allowed_v` of the level's strategy. -/
def isPageAllowed (l : Nat) : Bool := l != 3

/-- `is_table_allowed_v` of the level's strategy. -/
def isTableAllowed (l : Nat) : Bool := l != 0

def addr2index (l : Nat) (addr : Word) : Nat := ((addr >>> kIndexShift l) &&& kIndexMask).toNat

def isPresent (data : Word) : Bool := data &&& kPageAttrPresent != 0#64

def isPage (l : Nat) (data : Word) : Bool :=
  if isPageAllowed l && isTableAllowed l then data &&& (1#64 <<< 7) != 0#64 else isPageAllowed l

def setAttrAsPage (l : Nat) (data : Word) : Word :=
  if isPageAllowed l && isTableAllowed l then data ||| (1#64 <<< 7) else data

def setAttrAsTable (l : Nat) (data : Word) : Word :=
  if isPageAllowed l && isTableAllowed l then data &&& ~~~(1#64 <<< 7) else data

def isDirty (data : Word) : Bool := data &&& (1#64 <<< 6) != 0#64

def clearDirtyBit (data : Word) : Word := data &&& ~~~(1#64 <<< 6)

def getTableAddr (mask : Word) (l : Nat) (data : Word) : Word :=
  if isPage l data then 0#64 else data &&& mask &&& ~~~kPageAddrMask

/-- What `SetTableAddr` asserts of the table's address. -/
def canHoldTable (mask table : Word) : Bool := table &&& ~~~(mask &&& ~~~kPageAddrMask) == 0#64

/-- The data `SetTableAddr` leaves. -/
def setTableAddr (l : Nat) (table attr : Word) : Word := setAttrAsTable l (table ||| attr)

def getPageBaseAddr (mask : Word) (l : Nat) (data : Word) : Word := data &&& (mask &&& ~~~kOffsetMask l)

/-- What `SetPageBaseAddr` asserts of the page's address. -/
def canHoldPage (l : Nat) (paddr : Word) : Bool := paddr &&& kOffsetMask l == 0#64

/-- The data `SetPageBaseAddr` leaves. -/
def setPageBaseAddr (mask : Word) (l : Nat) (data paddr attr : Word) : Word :=
  let addrMask := mask &&& ~~~kOffsetMask l
  setAttrAsPage l ((data &&& ~~~(addrMask ||| kPageAttrMask)) ||| ((paddr &&& addrMask) ||| attr))

def setAttr (data attr : Word) : Word := (data &&& ~~~kPageAttrMask) ||| (kPageAttrMask &&& attr)

/-! ## Bits -/

variable {l i : Nat} {attr mask table d paddr : Word}

theorem kOffsetMask_eq (hl : l ≤ 3) : kOffsetMask l = lowMask (kIndexShift l) := by
  interval_cases l <;> decide

theorem kPageAttrMask_eq : kPageAttrMask = lowMask 5 := by decide

theorem toNat_addr2index (l : Nat) (addr : Word) : addr2index l addr = addr.toNat / 2 ^ kIndexShift l % 512 := by
  have h : kIndexMask = lowMask 9 := by decide
  rw [addr2index, h, toNat_and_lowMask _ (by omega), BitVec.toNat_ushiftRight, Nat.shiftRight_eq_div_pow]
  norm_num

theorem addr2index_lt (l : Nat) (addr : Word) : addr2index l addr < 512 := by
  rw [toNat_addr2index]; omega

theorem and_bit_ne_zero (d : Word) {k : Nat} (hk : k < 64) : (d &&& twoPow 64 k != 0#64) = d.getLsbD k := by
  have hne : twoPow 64 k ≠ 0#64 := by
    intro h
    have := congrArg (getLsbD · k) h
    simp [hk] at this
  rw [BitVec.and_twoPow]
  split
  · rename_i h; rw [h]; simpa using hne
  · rename_i h; simp only [Bool.not_eq_true] at h; rw [h]; rfl

theorem beq_kPageAddrMask_iff (v : Word) : (v &&& kPageAddrMask == 0#64) = true ↔ v.toNat % 4096 = 0 := by
  rw [beq_iff_eq, ← BitVec.toNat_inj, kPageAddrMask_eq, toNat_and_lowMask _ (by norm_num)]
  rfl

theorem isPresent_eq (d : Word) : isPresent d = d.getLsbD 0 := and_bit_ne_zero d (by norm_num : 0 < 64)

theorem isDirty_eq (d : Word) : isDirty d = d.getLsbD 6 := and_bit_ne_zero d (by norm_num : 6 < 64)

@[simp] theorem isPage_zero (d : Word) : isPage 0 d = true := rfl

@[simp] theorem isPage_three (d : Word) : isPage 3 d = false := rfl

theorem isPage_eq (h1 : 1 ≤ l) (h2 : l ≤ 2) (d : Word) : isPage l d = d.getLsbD 7 := by
  interval_cases l <;> exact and_bit_ne_zero d (by norm_num : 7 < 64)

/-- A page frame with an offset into it is a sum. -/
theorem or_offset_eq {p va : Word} {s x : Nat} (hs : s ≤ 64) (hp : p.toNat % 2 ^ s = 0)
    (hx : p.toNat + va.toNat % 2 ^ s = x) : p ||| (va &&& lowMask s) = ofNat 64 x := by
  have hand : p &&& (va &&& lowMask s) = 0#64 := by
    apply BitVec.eq_of_toNat_eq
    rw [BitVec.and_comm va, ← BitVec.and_assoc, BitVec.toNat_and, toNat_and_lowMask _ hs, hp]
    simp
  rw [← BitVec.add_eq_or_of_and_eq_zero _ _ hand]
  apply BitVec.eq_of_toNat_eq
  rw [BitVec.toNat_add, toNat_and_lowMask _ hs, BitVec.toNat_ofNat, hx]

/-- `a` has no bit outside `b`. -/
theorem and_not_eq_zero_iff {a b : Word} : a &&& ~~~b = 0#64 ↔ ∀ i, a.getLsbD i = true → b.getLsbD i = true := by
  constructor
  · intro h i hi
    have hlt : i < 64 := BitVec.lt_of_getLsbD hi
    have := congrArg (getLsbD · i) h
    simp only [getLsbD_and, getLsbD_not, hi, hlt, getLsbD_zero] at this
    simpa using this
  · intro h
    apply eq_of_getLsbD_eq
    intro i hi
    simp only [getLsbD_and, getLsbD_not, hi, getLsbD_zero, decide_true, Bool.true_and, Bool.and_eq_false_iff,
      Bool.not_eq_false']
    cases ha : a.getLsbD i
    · exact .inl rfl
    · exact .inr (h i ha)

/-- The attributes a caller passes: bits of `kPageAttrMask` only, with Present among them. -/
structure AttrOk (attr : Word) : Prop where
  within : attr &&& ~~~kPageAttrMask = 0#64
  present : isPresent attr = true

theorem getLsbD_of_within (h : attr &&& ~~~kPageAttrMask = 0#64) (hi : 5 ≤ i) : attr.getLsbD i = false := by
  cases ha : attr.getLsbD i
  · rfl
  · have hbit := and_not_eq_zero_iff.1 h i ha
    rw [kPageAttrMask_eq, getLsbD_lowMask] at hbit
    simp only [Bool.and_eq_true, decide_eq_true_eq] at hbit
    omega

/-! ## Setting the attributes of an entry -/

theorem getLsbD_setAttr (d attr : Word) (i : Nat) :
    (setAttr d attr).getLsbD i = if i < 5 then attr.getLsbD i else d.getLsbD i := by
  by_cases hi : i < 64
  · simp only [setAttr, kPageAttrMask_eq, getLsbD_or, getLsbD_and, getLsbD_not, getLsbD_lowMask, hi]
    split
    · rename_i h5; simp [h5]
    · rename_i h5; simp [h5]
  · rw [getLsbD_of_ge _ _ (by omega), getLsbD_of_ge _ _ (by omega), getLsbD_of_ge _ _ (by omega)]
    simp

theorem isPresent_setAttr (d attr : Word) : isPresent (setAttr d attr) = isPresent attr := by
  rw [isPresent_eq, isPresent_eq, getLsbD_setAttr, if_pos (by norm_num)]

theorem isPage_setAttr (hl : l ≤ 3) (d attr : Word) : isPage l (setAttr d attr) = isPage l d := by
  rcases (by omega : l = 0 ∨ l = 3 ∨ (1 ≤ l ∧ l ≤ 2)) with rfl | rfl | ⟨h1, h2⟩
  · rfl
  · rfl
  · rw [isPage_eq h1 h2, isPage_eq h1 h2, getLsbD_setAttr]; rfl

theorem getTableAddr_setAttr (mask : Word) (hl : l ≤ 3) (d attr : Word) :
    getTableAddr mask l (setAttr d attr) = getTableAddr mask l d := by
  unfold getTableAddr
  rw [isPage_setAttr hl]
  split
  · rfl
  · apply eq_of_getLsbD_eq
    intro i hi
    simp only [kPageAddrMask_eq, getLsbD_and, getLsbD_not, getLsbD_lowMask, getLsbD_setAttr, hi]
    split
    · rename_i h5
      have h12 : i < 12 := by omega
      simp [h12]
    · rfl

/-! ## Entries that hold a table -/

theorem getLsbD_bit {k : Nat} (hk : k < 64) (i : Nat) : (1#64 <<< k).getLsbD i = decide (i = k) := by
  show (twoPow 64 k).getLsbD i = _
  rw [getLsbD_twoPow]
  simp [hk, eq_comm]

theorem getLsbD_setTableAddr (l : Nat) (table attr : Word) (hi : i ≠ 7) :
    (setTableAddr l table attr).getLsbD i = (table.getLsbD i || attr.getLsbD i) := by
  unfold setTableAddr setAttrAsTable
  split
  · by_cases hlt : i < 64
    · rw [getLsbD_and, getLsbD_not, getLsbD_or, getLsbD_bit (by norm_num)]
      simp [hi, hlt]
    · rw [getLsbD_of_ge _ _ (by omega), getLsbD_of_ge _ _ (by omega), getLsbD_of_ge _ _ (by omega)]
      rfl
  · rw [getLsbD_or]

theorem canHoldTable_bit (h : canHoldTable mask table = true) (hi : table.getLsbD i = true) :
    mask.getLsbD i = true ∧ 12 ≤ i := by
  simp only [canHoldTable, beq_iff_eq] at h
  have hb := and_not_eq_zero_iff.1 h i hi
  have hlt : i < 64 := BitVec.lt_of_getLsbD hi
  simp only [kPageAddrMask_eq, getLsbD_and, getLsbD_not, getLsbD_lowMask, hlt] at hb
  simp at hb
  exact hb

theorem canHoldTable_low (h : canHoldTable mask table = true) (hi : i < 12) : table.getLsbD i = false := by
  cases hb : table.getLsbD i
  · rfl
  · have := (canHoldTable_bit h hb).2
    omega

theorem isPresent_setTableAddr (h : canHoldTable mask table = true) :
    isPresent (setTableAddr l table attr) = isPresent attr := by
  rw [isPresent_eq, isPresent_eq, getLsbD_setTableAddr _ _ _ (by norm_num),
    canHoldTable_low h (by norm_num), Bool.false_or]

theorem isPage_setTableAddr (h1 : 1 ≤ l) (h3 : l ≤ 3) (table attr : Word) :
    isPage l (setTableAddr l table attr) = false := by
  rcases (by omega : l = 3 ∨ l ≤ 2) with rfl | h2
  · rfl
  · rw [isPage_eq h1 h2]
    have hb : (isPageAllowed l && isTableAllowed l) = true := by interval_cases l <;> rfl
    rw [setTableAddr, setAttrAsTable, if_pos hb, getLsbD_and, getLsbD_not]
    have : (1#64 <<< 7).getLsbD 7 = true := by decide
    rw [this]; simp

/-- An entry set to a table holds that table. -/
theorem getTableAddr_setTableAddr (h1 : 1 ≤ l) (h3 : l ≤ 3) (ht : canHoldTable mask table = true)
    (ha : attr &&& ~~~kPageAttrMask = 0#64) : getTableAddr mask l (setTableAddr l table attr) = table := by
  rw [getTableAddr, isPage_setTableAddr h1 h3]
  simp only [Bool.false_eq_true, if_false]
  apply eq_of_getLsbD_eq
  intro i hi
  rw [getLsbD_and, getLsbD_and, getLsbD_not, kPageAddrMask_eq, getLsbD_lowMask]
  by_cases h12 : i < 12
  · rw [canHoldTable_low ht h12]
    simp only [h12, hi, decide_true, Bool.and_self, Bool.not_true, Bool.and_false]
  · rw [getLsbD_setTableAddr _ _ _ (by omega), getLsbD_of_within ha (by omega)]
    cases hb : table.getLsbD i
    · simp
    · simp [(canHoldTable_bit ht hb).1, hi, h12]

/-! ## Entries that map a page -/

theorem getLsbD_setPageBaseAddr (mask : Word) (hl : l ≤ 3) (d paddr attr : Word) (hi : i ≠ 7) :
    (setPageBaseAddr mask l d paddr attr).getLsbD i =
      ((d.getLsbD i && !((mask.getLsbD i && decide (kIndexShift l ≤ i)) || decide (i < 5))) ||
        ((paddr.getLsbD i && (mask.getLsbD i && decide (kIndexShift l ≤ i))) || attr.getLsbD i)) := by
  by_cases hlt : i < 64
  · have hbit : (1#64 <<< 7).getLsbD i = false := by rw [getLsbD_bit (by norm_num), decide_eq_false hi]
    have hge : (!decide (i < kIndexShift l)) = decide (kIndexShift l ≤ i) := by
      by_cases h : i < kIndexShift l
      · simp [h]
      · simp [h]; omega
    unfold setPageBaseAddr setAttrAsPage
    simp only [kOffsetMask_eq hl, kPageAttrMask_eq]
    split
    · simp only [getLsbD_or, getLsbD_and, getLsbD_not, getLsbD_lowMask, hbit, hlt, decide_true, Bool.true_and,
        hge, Bool.or_false]
    · simp only [getLsbD_or, getLsbD_and, getLsbD_not, getLsbD_lowMask, hlt, decide_true, Bool.true_and, hge]
  · simp only [getLsbD_of_ge _ i (by omega : 64 ≤ i)]; simp

theorem isPresent_setPageBaseAddr (hl : l ≤ 3) : isPresent (setPageBaseAddr mask l d paddr attr) = isPresent attr := by
  have hshift : ¬ kIndexShift l ≤ 0 := by unfold kIndexShift; omega
  rw [isPresent_eq, isPresent_eq, getLsbD_setPageBaseAddr mask hl _ _ _ (by norm_num)]
  simp [hshift]

theorem isPage_setPageBaseAddr (hl : l ≤ 2) (d paddr attr : Word) :
    isPage l (setPageBaseAddr mask l d paddr attr) = true := by
  rcases (by omega : l = 0 ∨ 1 ≤ l) with rfl | h1
  · rfl
  · rw [isPage_eq h1 hl]
    have hb : (isPageAllowed l && isTableAllowed l) = true := by interval_cases l <;> rfl
    simp only [setPageBaseAddr, setAttrAsPage, if_pos hb]
    rw [getLsbD_or]
    have : (1#64 <<< 7).getLsbD 7 = true := by decide
    rw [this, Bool.or_true]

/-- An entry set to a page inside the physical address space maps that page. -/
theorem getPageBaseAddr_setPageBaseAddr (hl : l ≤ 2) (hp : canHoldPage l paddr = true) (hm : paddr &&& ~~~mask = 0#64)
    (ha : AttrOk attr) : getPageBaseAddr mask l (setPageBaseAddr mask l d paddr attr) = paddr := by
  have hshift : 12 ≤ kIndexShift l := by unfold kIndexShift; omega
  apply eq_of_getLsbD_eq
  intro i hi
  simp only [getPageBaseAddr, kOffsetMask_eq (by omega : l ≤ 3), getLsbD_and, getLsbD_not,
    getLsbD_lowMask, hi, decide_true, Bool.true_and]
  have hlow : i < kIndexShift l → paddr.getLsbD i = false := by
    intro h
    simp only [canHoldPage, kOffsetMask_eq (by omega : l ≤ 3), beq_iff_eq] at hp
    have := congrArg (getLsbD · i) hp
    simpa only [getLsbD_and, getLsbD_lowMask, hi, h, decide_true, Bool.and_true, Bool.true_and, getLsbD_zero] using this
  by_cases h : i < kIndexShift l
  · simp [h, hlow h]
  · rw [getLsbD_setPageBaseAddr mask (by omega) _ _ _ (by omega), getLsbD_of_within ha.within (by omega)]
    have h' : kIndexShift l ≤ i := by omega
    cases hb : paddr.getLsbD i
    · cases mask.getLsbD i <;> simp [h, h']
    · simp [and_not_eq_zero_iff.1 hm i hb, h, h']

/-! ## The dirty bit -/

/-- What the processor leaves in the entry of a page it writes to. -/
def setDirtyBit (data : Word) : Word := data ||| (1#64 <<< 6)

theorem isDirty_clearDirtyBit (d : Word) : isDirty (clearDirtyBit d) = false := by
  rw [isDirty_eq, clearDirtyBit, getLsbD_and, getLsbD_not, getLsbD_bit (by norm_num)]
  simp only [decide_true, Bool.not_true, Bool.and_false]

theorem clearDirtyBit_clearDirtyBit (d : Word) : clearDirtyBit (clearDirtyBit d) = clearDirtyBit d := by
  rw [clearDirtyBit, clearDirtyBit, BitVec.and_assoc, BitVec.and_self]

theorem clearDirtyBit_setDirtyBit (d : Word) : clearDirtyBit (setDirtyBit d) = clearDirtyBit d := by
  apply eq_of_getLsbD_eq
  intro i hi
  simp only [clearDirtyBit, setDirtyBit, getLsbD_and, getLsbD_or, getLsbD_not, getLsbD_bit (by norm_num : 6 < 64), hi]
  by_cases h : i = 6
  · simp [h]
  · simp [h]

/-- A field of the entry that leaves out bit 6 does not see the dirty bit. -/
theorem clearDirtyBit_and {c : Word} (hc : ~~~(1#64 <<< 6) &&& c = c) (d : Word) : clearDirtyBit d &&& c = d &&& c := by
  rw [clearDirtyBit, BitVec.and_assoc, hc]

theorem isPresent_clearDirtyBit (d : Word) : isPresent (clearDirtyBit d) = isPresent d := by
  rw [isPresent, isPresent, clearDirtyBit_and (by decide)]

theorem isPage_clearDirtyBit (l : Nat) (d : Word) : isPage l (clearDirtyBit d) = isPage l d := by
  rw [isPage, isPage, clearDirtyBit_and (by decide)]

theorem getTableAddr_clearDirtyBit (mask : Word) (l : Nat) (d : Word) :
    getTableAddr mask l (clearDirtyBit d) = getTableAddr mask l d := by
  have hc : ~~~(1#64 <<< 6) &&& (mask &&& ~~~kPageAddrMask) = mask &&& ~~~kPageAddrMask := by
    rw [← BitVec.and_assoc, BitVec.and_comm _ mask, BitVec.and_assoc, show ~~~(1#64 <<< 6) &&& ~~~kPageAddrMask =
      ~~~kPageAddrMask by decide]
  rw [getTableAddr, getTableAddr, isPage_clearDirtyBit, BitVec.and_assoc, BitVec.and_assoc, clearDirtyBit_and hc]

theorem getPageBaseAddr_clearDirtyBit (mask : Word) (hl : l ≤ 3) (d : Word) :
    getPageBaseAddr mask l (clearDirtyBit d) = getPageBaseAddr mask l d := by
  have hk : ~~~(1#64 <<< 6) &&& ~~~kOffsetMask l = ~~~kOffsetMask l := by interval_cases l <;> decide
  refine clearDirtyBit_and ?_ d
  rw [← BitVec.and_assoc, BitVec.and_comm _ mask, BitVec.and_assoc, hk]

end Liumos.Paging
