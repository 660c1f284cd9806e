/-
`CreatePageMapping`: four nested loops over the table levels that share and advance the virtual
address, the physical address and the number of 4KB pages left.
Source: paging.h. The allocator `TAllocator` is a parameter: `allocPages n` on a world of memory and
allocator state. A `for` loop over table indices is a recursion on the number of indices left; the
entry it works on is that of the address, as in the source.
-/
import Liumos.Paging.Tree

namespace Liumos.Paging

/-- Memory with the 512 words from `a` on set to zero. -/
@[irreducible] def zeroPage (m : Mem) (a : Nat) : Mem := storeWords m a (fun _ => 0#64) kNumOfEntries

section

variable {σ : Type}

/-- `if (should_clflush) _mm_clflush(&entry)`. -/
def clflushIf (shouldClflush : Bool) (a : Nat) : WM σ Unit := if shouldClflush then clflush a else pure ()

/-- `table->ClearMapping()`. -/
def clearMapping (table : Word) : WM σ Unit := modify fun w => { w with mem := zeroPage w.mem table.toNat }

end

/-- The variables the loops share. -/
structure Cursor where
  vaddr : Word
  paddr : Word
  numOf4kPages : Word

section

variable {σ : Type} (allocPages : Word → WM σ Word) (mask attr : Word) (shouldClflush : Bool)

/-- Give the entry of level `l` at `a` a new empty table if it is not present. -/
def installTable (l : Nat) (a : Nat) : WM σ Unit := do
  let e ← load a
  if isPresent e then pure ()
  else do
    let newTable ← allocPages 1#64
    clearMapping newTable
    assert (canHoldTable mask newTable) "(reinterpret_cast<uint64_t>(table) & ~addr_mask) == 0"
    store a (setTableAddr l newTable attr)

/-- `entry.SetAttr(attr)`. -/
def updateAttr (a : Nat) : WM σ Unit := do
  let e ← load a
  store a (setAttr e attr)

/-- `entry.SetPageBaseAddr(paddr, attr)` on the entry of level `l` at `a`. -/
def mapPage (l : Nat) (a : Nat) (paddr : Word) : WM σ Unit := do
  assert (canHoldPage l paddr) "(paddr & kOffsetMask) == 0"
  let e ← load a
  store a (setPageBaseAddr mask l e paddr attr)

/-- The loop over `pt_idx`. -/
def mapPt (pt : Word) : Nat → Cursor → WM σ Cursor
  | 0, c => pure c
  | n + 1, c =>
    if c.numOf4kPages = 0#64 then pure c
    else do
      mapPage mask attr 0 (entryAddr 0 pt c.vaddr) c.paddr
      clflushIf shouldClflush (entryAddr 0 pt c.vaddr)
      mapPt pt n ⟨c.vaddr + (1#64 <<< 12), c.paddr + (1#64 <<< 12), c.numOf4kPages - 1#64⟩

/-- Whether the PDT loop maps a 2MB page at an entry that is not present. -/
def canMap2MB (c : Cursor) : Bool :=
  decide (512 ≤ c.numOf4kPages.toNat) && (c.vaddr &&& kOffsetMask 1 == 0#64) && (c.paddr &&& kOffsetMask 1 == 0#64)

/-- The loop over `pdt_idx`. -/
def mapPdt (pdt : Word) : Nat → Cursor → WM σ Cursor
  | 0, c => pure c
  | n + 1, c =>
    if c.numOf4kPages = 0#64 then pure c
    else do
      let a := entryAddr 1 pdt c.vaddr
      let pdte ← load a
      if !isPresent pdte && canMap2MB c then
        mapPage mask attr 1 a c.paddr
        clflushIf shouldClflush a
        mapPdt pdt n ⟨c.vaddr + (1#64 <<< 21), c.paddr + (1#64 <<< 21), c.numOf4kPages - 512#64⟩
      else
        installTable allocPages mask attr 1 a
        clflushIf shouldClflush a
        updateAttr attr a
        let e ← load a
        if isPage 1 e then throw (.message "Page overwrapping at pdte")
        else
          let c ← mapPt mask attr shouldClflush (getTableAddr mask 1 e) (kNumOfEntries - addr2index 0 c.vaddr) c
          mapPdt pdt n c

/-- The loop over `pdpt_idx`. -/
def mapPdpt (pdpt : Word) : Nat → Cursor → WM σ Cursor
  | 0, c => pure c
  | n + 1, c =>
    if c.numOf4kPages = 0#64 then pure c
    else do
      let a := entryAddr 2 pdpt c.vaddr
      installTable allocPages mask attr 2 a
      updateAttr attr a
      clflushIf shouldClflush a
      let e ← load a
      if isPage 2 e then throw (.message "Page overwrapping at pdpte")
      else
        let c ← mapPdt allocPages mask attr shouldClflush (getTableAddr mask 2 e)
          (kNumOfEntries - addr2index 1 c.vaddr) c
        mapPdpt pdpt n c

/-- The loop over `pml4_idx`, which the number of pages left does not guard. -/
def mapPml4 (pml4 : Word) : Nat → Cursor → WM σ Cursor
  | 0, c => pure c
  | n + 1, c => do
    let a := entryAddr 3 pml4 c.vaddr
    installTable allocPages mask attr 3 a
    updateAttr attr a
    clflushIf shouldClflush a
    let e ← load a
    let c ← mapPdpt allocPages mask attr shouldClflush (getTableAddr mask 3 e) (kNumOfEntries - addr2index 2 c.vaddr) c
    mapPml4 pml4 n c

/-- `CreatePageMapping(allocator, pml4, vaddr, paddr, byte_size, attr, should_clflush)`. -/
def createPageMapping (pml4 vaddr paddr byteSize : Word) : WM σ Unit := do
  assert (vaddr &&& kPageAddrMask == 0#64) "(vaddr & kPageAddrMask) == 0"
  assert (paddr &&& kPageAddrMask == 0#64) "(paddr & kPageAddrMask) == 0"
  let _ ← mapPml4 allocPages mask attr shouldClflush pml4 (kNumOfEntries - addr2index 3 vaddr)
    ⟨vaddr, paddr, byteSizeToPageSize byteSize⟩

end

end Liumos.Paging
