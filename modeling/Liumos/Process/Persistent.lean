/-
Persistent processes come to run: the parts that `LoadELFAndCreatePersistentProcess` and `pmem restore` share,
and that every one of them only adds to the history of memory. Sources: process.cc
(`RestoreFromPersistentProcessInfo`, `Create`), process.h, execution_context.{h,cc}, paging.{h,cc}
(`AllocPageTable`, `SetKernelPageEntries`). Objects are named by their physical addresses, as elsewhere.
-/
import Liumos.Elf.Load
import Liumos.Machine.History
import Liumos.Pmem.Manager

namespace Liumos

open Paging

variable {σ : Type}

/-! ## Page tables -/

namespace Paging

/-- `AllocPageTable()`: a PML4 with no entry. -/
def allocPageTable (allocPages : Word → WM σ Word) : WM σ Word := do
  let pml4 ← allocPages 1#64
  assert (pml4 != 0#64) "pml4"
  clearMapping pml4
  return pml4

/-- `SetKernelPageEntries(pml4)`: the upper half of the table is that of `liumos->kernel_pml4`. -/
def setKernelPageEntries (kernelPml4 pml4 : Word) : WM σ Unit :=
  Process.copyWords (pml4.toNat + 8 * (kNumOfEntries / 2)) (kernelPml4.toNat + 8 * (kNumOfEntries / 2))
    (kNumOfEntries / 2) 0

end Paging

namespace Process

/-! ## Contexts -/

namespace SegmentMapping

/-- `AllocSegmentFromPersistentMemory(pmem)`, where the parameter of `SetPhysAddr` is at `param`. -/
def allocSegmentFromPersistentMemory (pmem : Word) (param self : Nat) : WM σ Unit := do
  setPhysAddr param self (← Pmem.PersistentMemoryManager.allocPages pmem (byteSizeToPageSize (← getMapSize self)))

end SegmentMapping

namespace ExecutionContext

/-- Where `kernel_rsp_` and `heap_used_size_` of a context are. -/
def kernelRspAddr (self : Nat) : Nat := self + 776
def heapUsedSizeAddr (self : Nat) : Nat := self + 784

/-- `SetRegisters(...)`, which also makes the heap empty. -/
def setRegisters (self : Nat) (rip cs rsp ss cr3 rflags kernelRsp : Word) : WM σ Unit := do
  store (intCtxAddr self) rip
  store (intCtxAddr self + 8) cs
  store (intCtxAddr self + 24) rsp
  store (intCtxAddr self + 32) ss
  store (intCtxAddr self + 16) (rflags ||| 2#64)
  store (cr3Addr self) cr3
  store (kernelRspAddr self) kernelRsp
  store (heapUsedSizeAddr self) 0#64

/-- `*this = from`. -/
def assign (self src : Nat) : WM σ Unit := copyWords self src (size / 8) 0

end ExecutionContext

namespace PersistentProcessInfo

def kSignature : Word := 0x4F50534F6D75696C#64

def signatureAddr (self : Nat) : Nat := self + 1592

/-- `Init()`: no context is valid yet. -/
def init (self : Nat) : WM σ Unit := do
  setValidContextIndex self kNumOfExecutionContext
  store (signatureAddr self) kSignature
  clflush (signatureAddr self)

end PersistentProcessInfo

/-! ## The controller -/

def kKernelStackPagesForEachProcess : Word := 64#64

/-- `sizeof(Process)`. -/
def sizeOfProcess : Word := 112#64

/-- What the kernel keeps outside persistent memory: the mask of physical addresses, `liumos->kernel_pml4`, the base
of the straight mapping, the allocator of DRAM pages behind the kernel heap, `last_id_`, and where on the kernel
stack the parameter of `SetPhysAddr` is. -/
structure Kernel (σ : Type) where
  mask : Word
  kernelPml4 : Word
  straightMappingBase : Word
  allocPages : Word → WM σ Word
  grows : ∀ n, Grows (allocPages n)
  lastId : Word
  param : Nat

namespace Kernel

/-- `Process(id, name)`. -/
def construct (self : Nat) (id name : Word) : WM σ Unit := do
  store self id
  store (self + 8) name
  -- `status_` is `kNotInitialized`; `scheduler_index_` beside it is left as it is
  store (self + 16) (setLow32 (← load (self + 16)) 0#32)
  store (self + 24) 0#64
  store (self + 32) 0#64
  -- the counters
  store (self + 40) 0#64
  store (self + 48) 0#64
  store (self + 56) 0#64
  store (self + 64) 0#64
  store (self + 72) 0#64
  store (self + 80) 0#64
  -- `readp_` and `writep_` of `stdin_buffer_`
  store (self + 104) 0#64

/-- `Create(name)`, with the next id. -/
def create (k : Kernel σ) (name : Word) : WM σ Nat := do
  let proc ← k.allocPages (byteSizeToPageSize sizeOfProcess)
  construct proc.toNat (k.lastId + 1#64) name
  return proc.toNat

/-- `InitAsPersistentProcess(pp_info)`: the process has its contexts in persistent memory. -/
def initAsPersistentProcess (proc ppInfo : Nat) : WM σ Unit := do
  assert (low32 (← load (proc + 16)) == 0#32) "status_ == Status::kNotInitialized"
  assert ((← load (proc + 24)) == 0#64) "!ctx_"
  assert ((← load (proc + 32)) == 0#64) "!pp_info_"
  store (proc + 32) (BitVec.ofNat 64 ppInfo)
  -- `kNotScheduled`
  store (proc + 16) (setLow32 (← load (proc + 16)) 1#32)

/-- A context gets the kernel's half of the address space and a new kernel stack. -/
def prepareContextForRestoringPersistentProcess (k : Kernel σ) (ctx : Nat) : WM σ Unit := do
  setKernelPageEntries k.kernelPml4 (← ExecutionContext.getCR3 ctx)
  store (ExecutionContext.kernelRspAddr ctx) ((← k.allocPages kKernelStackPagesForEachProcess) + k.straightMappingBase +
    (kKernelStackPagesForEachProcess <<< kPageSizeExponent))

/-- `RestoreFromPersistentProcessInfo(pp_info)`: both contexts are made to be the valid one. -/
def restoreFromPersistentProcessInfo (k : Kernel σ) (name : Word) (ppInfo : Nat) : WM σ Nat := do
  let validCtx ← PersistentProcessInfo.getValidContext ppInfo
  let workingCtx ← PersistentProcessInfo.getWorkingContext ppInfo
  ExecutionContext.copyContextFrom workingCtx validCtx
  k.prepareContextForRestoringPersistentProcess validCtx
  k.prepareContextForRestoringPersistentProcess workingCtx
  let proc ← k.create name
  initAsPersistentProcess proc ppInfo
  return proc

end Kernel

end Process

/-! ## Histories -/

section Paging

variable (allocPages : Word → WM σ Word) [hA : ∀ n, Grows (allocPages n)] (mask attr : Word) (shouldClflush : Bool)

instance (a : Nat) : Grows (clflushIf shouldClflush a : WM σ Unit) := by
  unfold clflushIf
  infer_instance

instance (table : Word) : Grows (clearMapping table : WM σ Unit) := by
  refine ⟨fun w => ?_⟩
  show w.mem.Before (zeroPage w.mem table.toNat)
  unfold zeroPage
  exact before_storeWords ..

instance : Grows (allocPageTable allocPages) := by
  unfold allocPageTable
  infer_instance

instance (l a : Nat) : Grows (installTable allocPages mask attr l a) := by
  unfold installTable
  infer_instance

instance (a : Nat) : Grows (updateAttr attr a : WM σ Unit) := by
  unfold updateAttr
  infer_instance

instance (l a : Nat) (paddr : Word) : Grows (mapPage mask attr l a paddr : WM σ Unit) := by
  unfold mapPage
  infer_instance

instance grows_mapPt (pt : Word) : ∀ n c, Grows (mapPt mask attr shouldClflush pt n c : WM σ Cursor)
  | 0, c => by unfold mapPt; infer_instance
  | n + 1, c => by
    have := grows_mapPt pt n
    unfold mapPt
    infer_instance

instance grows_mapPdt (pdt : Word) : ∀ n c, Grows (mapPdt allocPages mask attr shouldClflush pdt n c)
  | 0, c => by unfold mapPdt; infer_instance
  | n + 1, c => by
    have := grows_mapPdt pdt n
    unfold mapPdt
    split_ifs
    · infer_instance
    · refine .step fun _ => ?_
      split_ifs
      · infer_instance
      · infer_instance

instance grows_mapPdpt (pdpt : Word) : ∀ n c, Grows (mapPdpt allocPages mask attr shouldClflush pdpt n c)
  | 0, c => by unfold mapPdpt; infer_instance
  | n + 1, c => by
    have := grows_mapPdpt pdpt n
    unfold mapPdpt
    infer_instance

instance grows_mapPml4 (pml4 : Word) : ∀ n c, Grows (mapPml4 allocPages mask attr shouldClflush pml4 n c)
  | 0, c => by unfold mapPml4; infer_instance
  | n + 1, c => by
    have := grows_mapPml4 pml4 n
    unfold mapPml4
    infer_instance

instance (pml4 vaddr paddr byteSize : Word) :
    Grows (createPageMapping allocPages mask attr shouldClflush pml4 vaddr paddr byteSize) := by
  unfold createPageMapping
  infer_instance

end Paging

section Pmem

open Pmem

instance (h id n : Word) : Grows (PersistentObjectHeader.init h id n : WM σ Unit) := by
  unfold PersistentObjectHeader.init
  repeat refine .step fun _ => ?_
  infer_instance

instance (h next : Word) : Grows (PersistentObjectHeader.setNext h next : WM σ Unit) := by
  unfold PersistentObjectHeader.setNext PersistentObjectHeader.isValid
  infer_instance

instance (self n : Word) : Grows (PersistentMemoryManager.allocPages self n : WM σ Word) := by
  unfold PersistentMemoryManager.allocPages PersistentMemoryManager.isValid PersistentMemoryManager.setHead
  repeat refine .step fun _ => ?_
  infer_instance

instance (self : Word) : Grows (PersistentMemoryManager.allocPersistentProcessInfo self : WM σ Word) := by
  unfold PersistentMemoryManager.allocPersistentProcessInfo
  infer_instance

end Pmem

section Process

open Process

instance grows_copyWords (dst src : Nat) : ∀ n i, Grows (copyWords dst src n i : WM σ Unit)
  | 0, i => by unfold copyWords; infer_instance
  | n + 1, i => by
    have := grows_copyWords dst src n (i + 1)
    unfold copyWords
    infer_instance

instance (dst src n : Nat) : Grows (memcpy dst src n : WM σ Unit) := by
  unfold memcpy
  infer_instance

instance (self : Nat) : Grows (SegmentMapping.getVirtAddr self : WM σ Word) := by
  unfold SegmentMapping.getVirtAddr
  infer_instance

instance (self : Nat) : Grows (SegmentMapping.getPhysAddr self : WM σ Word) := by
  unfold SegmentMapping.getPhysAddr
  infer_instance

instance (self : Nat) : Grows (SegmentMapping.getMapSize self : WM σ Word) := by
  unfold SegmentMapping.getMapSize
  infer_instance

instance (self : Nat) (vaddr paddr mapSize : Word) :
    Grows (SegmentMapping.set self vaddr paddr mapSize : WM σ Unit) := by
  unfold SegmentMapping.set
  infer_instance

instance (self : Nat) : Grows (SegmentMapping.clear self : WM σ Unit) := by
  unfold SegmentMapping.clear
  infer_instance

instance (self : Nat) : Grows (ProcessMappingInfo.clear self : WM σ Unit) := by
  unfold ProcessMappingInfo.clear
  infer_instance

instance (pmem : Word) (param self : Nat) :
    Grows (SegmentMapping.allocSegmentFromPersistentMemory pmem param self : WM σ Unit) := by
  unfold SegmentMapping.allocSegmentFromPersistentMemory SegmentMapping.setPhysAddr
  infer_instance

instance (allocPages : Word → WM σ Word) [∀ n, Grows (allocPages n)] (mask : Word) (self : Nat) (root attr : Word)
    (shouldClflush : Bool) : Grows (SegmentMapping.map allocPages mask self root attr shouldClflush) := by
  unfold SegmentMapping.map
  infer_instance

instance (self src : Nat) : Grows (SegmentMapping.copyDataFrom self src : WM σ Unit) := by
  unfold SegmentMapping.copyDataFrom SegmentMapping.get
  infer_instance

instance (self src : Nat) : Grows (ExecutionContext.copyContextFrom self src : WM σ Unit) := by
  unfold ExecutionContext.copyContextFrom
  infer_instance

instance (self : Nat) (rip cs rsp ss cr3 rflags kernelRsp : Word) :
    Grows (ExecutionContext.setRegisters self rip cs rsp ss cr3 rflags kernelRsp : WM σ Unit) := by
  unfold ExecutionContext.setRegisters
  repeat refine .step fun _ => ?_
  infer_instance

instance (self : Nat) : Grows (PersistentProcessInfo.getValidContext self : WM σ Nat) := by
  unfold PersistentProcessInfo.getValidContext PersistentProcessInfo.validCtxIdx PersistentProcessInfo.assertIdx
  infer_instance

instance (self : Nat) : Grows (PersistentProcessInfo.getWorkingContext self : WM σ Nat) := by
  unfold PersistentProcessInfo.getWorkingContext PersistentProcessInfo.validCtxIdx PersistentProcessInfo.assertIdx
  infer_instance

instance (k : Kernel σ) (n : Word) : Grows (k.allocPages n) := k.grows n

instance (k : Kernel σ) (ctx : Nat) : Grows (k.prepareContextForRestoringPersistentProcess ctx) := by
  unfold Kernel.prepareContextForRestoringPersistentProcess setKernelPageEntries ExecutionContext.getCR3
  infer_instance

instance (self : Nat) (id name : Word) : Grows (Kernel.construct self id name : WM σ Unit) := by
  unfold Kernel.construct
  repeat refine .step fun _ => ?_
  infer_instance

instance (k : Kernel σ) (name : Word) : Grows (k.create name) := by
  unfold Kernel.create
  infer_instance

instance (proc ppInfo : Nat) : Grows (Kernel.initAsPersistentProcess proc ppInfo : WM σ Unit) := by
  unfold Kernel.initAsPersistentProcess
  repeat refine .step fun _ => ?_
  infer_instance

end Process

end Liumos
