/-
The allocator for persistent memory: a manager in the first page of a region, and a list of objects
whose headers end right before their pages. The head of the list is the newest object.
Source: pmem.h, pmem.cc. Console output is left out.
-/
import Liumos.Machine.Basic

namespace Liumos.Pmem

variable {σ : Type}

/-! ## `PersistentObjectHeader` -/

namespace PersistentObjectHeader

def kSignature : Word := 0x4F50534F6D75696C#64

def signatureAddr (h : Word) : Nat := h.toNat
def idAddr (h : Word) : Nat := h.toNat + 8
def numOfPagesAddr (h : Word) : Nat := h.toNat + 16
def nextAddr (h : Word) : Nat := h.toNat + 24

/-- `sizeof(PersistentObjectHeader)`. -/
def size : Word := 32#64

def isValid (h : Word) : WM σ Bool := do return (← load (signatureAddr h)) == kSignature

def getObjectBase (h : Word) : Word := h + size

def init (h id numOfPages : Word) : WM σ Unit := do
  store (signatureAddr h) (~~~kSignature)
  clflush (signatureAddr h)
  store (idAddr h) id
  store (numOfPagesAddr h) numOfPages
  store (nextAddr h) 0#64
  store (signatureAddr h) kSignature
  clflush h.toNat

def setNext (h next : Word) : WM σ Unit := do
  assert (← isValid h) "IsValid()"
  store (nextAddr h) next
  clflush (nextAddr h)

end PersistentObjectHeader

/-! ## `PersistentMemoryManager` -/

namespace PersistentMemoryManager

def kSignature : Word := 0x4D50534F6D75696C#64

def pageIdxAddr (self : Word) : Nat := self.toNat
def numOfPagesAddr (self : Word) : Nat := self.toNat + 8
def headAddr (self : Word) : Nat := self.toNat + 16
def lastPersistentProcessInfoAddr (self : Word) : Nat := self.toNat + 24
/-- `&sentinel_`. -/
def sentinel (self : Word) : Word := self + 32#64
def signatureAddr (self : Word) : Nat := self.toNat + 64

/-- `sizeof(PersistentMemoryManager)`. -/
def size : Nat := 72

/-- `sizeof(PersistentProcessInfo)`. -/
def sizeOfPersistentProcessInfo : Word := 1600#64

def isValid (self : Word) : WM σ Bool := do
  return (← load (signatureAddr self)) == kSignature && (← load (headAddr self)) != 0#64

def setHead (self head : Word) : WM σ Unit := do
  store (headAddr self) head
  clflush (headAddr self)

/-- `AllocPages(num_of_pages_requested)`. -/
def allocPages (self numOfPagesRequested : Word) : WM σ Word := do
  assert (← isValid self) "IsValid()"
  let head ← load (headAddr self)
  let nextPageIdx := (PersistentObjectHeader.getObjectBase head >>> kPageSizeExponent) +
    (← load (PersistentObjectHeader.numOfPagesAddr head))
  let limit := (← load (pageIdxAddr self)) + (← load (numOfPagesAddr self))
  assert (decide ((numOfPagesRequested + 1#64 + nextPageIdx).toNat ≤ limit.toNat))
    "num_of_pages_requested + 1 + next_page_idx <= page_idx_ + num_of_pages_"
  let h := ((nextPageIdx + 1#64) <<< kPageSizeExponent) - PersistentObjectHeader.size
  PersistentObjectHeader.init h ((← load (PersistentObjectHeader.idAddr (← load (headAddr self)))) + 1#64)
    numOfPagesRequested
  PersistentObjectHeader.setNext h (← load (headAddr self))
  setHead self h
  return PersistentObjectHeader.getObjectBase (← load (headAddr self))

def allocPersistentProcessInfo (self : Word) : WM σ Word := do
  let info ← allocPages self (byteSizeToPageSize sizeOfPersistentProcessInfo)
  store (lastPersistentProcessInfoAddr self) info
  clflush (lastPersistentProcessInfoAddr self)
  load (lastPersistentProcessInfoAddr self)

/-- An entry of the NFIT: an address range, of persistent memory or not, or something else. -/
inductive NfitEntry where
  | spaRange (isByteAddressablePersistentMemory : Bool) (base length : Word)
  | other

/-- The loop of `Init` over the NFIT. -/
def initFrom (self : Word) : List NfitEntry → WM σ Unit
  | [] => throw (.assertFailed "false")
  | .other :: es => initFrom self es
  | .spaRange isPmem base length :: es =>
    if !isPmem then initFrom self es
    else if base ≠ self then initFrom self es
    else do
      store (signatureAddr self) (~~~kSignature)
      store (pageIdxAddr self) (self >>> kPageSizeExponent)
      store (numOfPagesAddr self) (length >>> kPageSizeExponent)
      store (headAddr self) 0#64
      store (lastPersistentProcessInfoAddr self) 0#64
      store (signatureAddr self) kSignature
      clflushSize self.toNat size
      PersistentObjectHeader.init (sentinel self) 0#64 0#64
      setHead self (sentinel self)

/-- `Init()` of a manager at `self`, where `nfit` is `liumos->acpi.nfit`. -/
def init (self : Word) (nfit : Option (List NfitEntry)) : WM σ Unit := do
  assert nfit.isSome "liumos->acpi.nfit"
  assert (self &&& kPageAddrMask == 0#64) "(reinterpret_cast<uint64_t>(this) & kPageAddrMask) == 0"
  initFrom self (nfit.getD [])

end PersistentMemoryManager

end Liumos.Pmem
