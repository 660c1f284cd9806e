/-
Execution contexts, and the two contexts of a persistent process with the checkpoint that swaps them.
Sources: execution_context.h, execution_context.cc, asm.h (`CPUContext`), libfunc.cc (`memcpy`).

Objects are named by their addresses in physical memory, at the offsets of the source's layout; the
straight mapping the kernel reaches them through is left out. So are the counters of copied bytes and of
issued flushes.
-/
import Liumos.Paging.Flush

namespace Liumos.Process

open Paging WriteBack

variable {σ : Type}

/-! ## `memcpy` -/

/-- The words of a copy from the `i`-th on, `n` of them. -/
def copyWords (dst src : Nat) : Nat → Nat → WM σ Unit
  | 0, _ => pure ()
  | n + 1, i => do
    let v ← load (src + 8 * i)
    store (dst + 8 * i) v
    copyWords dst src n (i + 1)

/-- `memcpy(dst, src, n)` between addresses that are multiples of 8. Of a last word that is not copied
whole, the lower bytes are. -/
def memcpy (dst src n : Nat) : WM σ Unit := do
  copyWords dst src (n / 8) 0
  if n % 8 = 0 then pure ()
  else
    let s ← load (src + 8 * (n / 8))
    let d ← load (dst + 8 * (n / 8))
    store (dst + 8 * (n / 8)) ((d &&& ~~~lowMask (8 * (n % 8))) ||| (s &&& lowMask (8 * (n % 8))))

/-! ## Segments and contexts -/

structure SegmentMapping where
  vaddr : Word
  paddr : Word
  mapSize : Word
  deriving DecidableEq, Repr

namespace SegmentMapping

/-- The fields of the segment at `self`. -/
def get (self : Nat) : WM σ SegmentMapping := do
  let vaddr ← load self
  let paddr ← load (self + 8)
  let mapSize ← load (self + 16)
  return ⟨vaddr, paddr, mapSize⟩

def copyDataFrom (self src : Nat) : WM σ Unit := do
  let s ← get self
  let f ← get src
  assert (s.mapSize == f.mapSize) "map_size_ == from.map_size_"
  memcpy s.paddr.toNat f.paddr.toNat s.mapSize.toNat

def flush (mask : Word) (self : Nat) (pml4 : Word) : WM σ Unit := do
  let s ← get self
  flushDirtyPages mask pml4 s.vaddr s.mapSize

end SegmentMapping

namespace ExecutionContext

/-- `sizeof(CPUContext)`, in words: `cr3`, 15 of `greg`, 5 of `int_ctx`, 64 of `fpu_context`. -/
def cpuContextWords : Nat := 85

def cr3Addr (self : Nat) : Nat := self
def gregAddr (self : Nat) : Nat := self + 8
def intCtxAddr (self : Nat) : Nat := self + 128
def codeAddr (self : Nat) : Nat := self + 680
def dataAddr (self : Nat) : Nat := self + 704
def stackAddr (self : Nat) : Nat := self + 728
def heapAddr (self : Nat) : Nat := self + 752

/-- `sizeof(ExecutionContext)`. -/
def size : Nat := 792

def getCR3 (self : Nat) : WM σ Word := load (cr3Addr self)

def flush (mask : Word) (self : Nat) (pml4 : Word) : WM σ Unit := do
  -- `ProcessMappingInfo::Flush`, which leaves out the stack
  SegmentMapping.flush mask (codeAddr self) pml4
  SegmentMapping.flush mask (dataAddr self) pml4
  SegmentMapping.flush mask (heapAddr self) pml4
  clflushSize self size

def copyContextFrom (self src : Nat) : WM σ Unit := do
  let cr3 ← load (cr3Addr self)
  copyWords self src cpuContextWords 0
  store (cr3Addr self) cr3
  SegmentMapping.copyDataFrom (dataAddr self) (dataAddr src)
  SegmentMapping.copyDataFrom (stackAddr self) (stackAddr src)

end ExecutionContext

/-! ## Persistent processes -/

namespace PersistentProcessInfo

def kNumOfExecutionContext : Int := 2

/-- `&ctx_[idx]`. -/
def ctxAddr (self idx : Nat) : Nat := self + ExecutionContext.size * idx

def validCtxIdxAddr (self : Nat) : Nat := self + 1584

/-- `valid_ctx_idx_`, an `int` in the lower half of its word. -/
def validCtxIdx (self : Nat) : WM σ Int := do return (low32 (← load (validCtxIdxAddr self))).toInt

/-- What `GetValidContext` and `GetWorkingContext` assert. -/
def assertIdx (idx : Int) : WM σ Unit :=
  assert (decide (0 ≤ idx) && decide (idx < kNumOfExecutionContext))
    "0 <= valid_ctx_idx_ && valid_ctx_idx_ < kNumOfExecutionContext"

def getValidContext (self : Nat) : WM σ Nat := do
  let idx ← validCtxIdx self
  assertIdx idx
  return ctxAddr self idx.toNat

def getWorkingContext (self : Nat) : WM σ Nat := do
  let idx ← validCtxIdx self
  assertIdx idx
  return ctxAddr self (1 - idx).toNat

def setValidContextIndex (self : Nat) (idx : Int) : WM σ Unit := do
  let old ← load (validCtxIdxAddr self)
  store (validCtxIdxAddr self) (setLow32 old (BitVec.ofInt 32 idx))
  clflush (validCtxIdxAddr self)

def switchContext (mask : Word) (self : Nat) : WM σ Unit := do
  let working ← getWorkingContext self
  let pml4 ← ExecutionContext.getCR3 (← getWorkingContext self)
  ExecutionContext.flush mask working pml4
  setValidContextIndex self (1 - (← validCtxIdx self))
  let working ← getWorkingContext self
  let valid ← getValidContext self
  ExecutionContext.copyContextFrom working valid

end PersistentProcessInfo

/-! ## What the parts do -/

/-- The `SegmentMapping` at `a` is `s`. -/
structure SegmentIs (m : Mem) (a : Nat) (s : SegmentMapping) : Prop where
  vaddr : m.load a = s.vaddr
  paddr : m.load (a + 8) = s.paddr
  mapSize : m.load (a + 16) = s.mapSize

/-- The address of word `j` of a segment. -/
def SegmentMapping.word (s : SegmentMapping) (j : Nat) : Nat := s.paddr.toNat + 8 * j

section

variable {P : Mem → Prop}

/-- A copy between ranges that do not overlap. -/
theorem ensures_copyWords {dst src N : Nat} (hP : ∀ c j v, j < N → P c → P (c.store (dst + 8 * j) v))
    (hdis : ∀ i < N, ∀ j < N, src + 8 * i ≠ dst + 8 * j) {m : Mem} {Q : Unit → World σ → Prop} :
    ∀ n i w, i + n = N → w.mem = storeWords m dst (fun i => m.load (src + 8 * i)) i → P w.mem →
      (∀ w', w'.mem = storeWords m dst (fun i => m.load (src + 8 * i)) N → P w'.mem → Q () w') →
      Ensures P (copyWords dst src n i) w Q
  | 0, i, w, hi, hm, hw, hQ => by
    subst hi
    exact ensures_pure (hQ w hm hw)
  | n + 1, i, w, hi, hm, hw, hQ => by
    refine ensures_load (.bind (ensures_store (hP _ i _ (by omega) hw) ?_))
    refine ensures_copyWords hP hdis n (i + 1) _ (by omega) ?_ (hP _ i _ (by omega) hw) hQ
    have hload : w.mem.load (src + 8 * i) = m.load (src + 8 * i) := by
      rw [hm, load_storeWords_ne]
      exact fun j hj => hdis i (by omega) j (by omega)
    rw [hload, storeWords, hm]

theorem ensures_getSegment {w : World σ} {a : Nat} {s : SegmentMapping} (hs : SegmentIs w.mem a s) {β : Type}
    {f : SegmentMapping → WM σ β} {R : β → World σ → Prop} (h : Ensures P (f s) w R) :
    Ensures P (SegmentMapping.get a >>= f) w R := by
  refine .bind ?_
  refine ensures_load (ensures_load (ensures_load ?_))
  rw [hs.vaddr, hs.paddr, hs.mapSize]
  exact ensures_pure h

/-- `CopyDataFrom` between segments of whole words that do not overlap. -/
theorem ensures_copyDataFrom {w : World σ} {self src : Nat} {s f : SegmentMapping} (hs : SegmentIs w.mem self s)
    (hf : SegmentIs w.mem src f) (h8 : s.mapSize.toNat % 8 = 0)
    (hdis : s.mapSize = f.mapSize → ∀ i j, 8 * i < s.mapSize.toNat → 8 * j < s.mapSize.toNat → f.word i ≠ s.word j)
    (hP : ∀ c j v, 8 * j < s.mapSize.toNat → P c → P (c.store (s.word j) v)) (h : P w.mem) {Q : Unit → World σ → Prop}
    (hQ : s.mapSize = f.mapSize → ∀ w', w'.mem = storeWords w.mem s.paddr.toNat (fun i => w.mem.load (f.word i))
      (s.mapSize.toNat / 8) → P w'.mem → Q () w') : Ensures P (SegmentMapping.copyDataFrom self src) w Q := by
  unfold SegmentMapping.copyDataFrom
  refine ensures_getSegment hs (ensures_getSegment hf (ensures_assert fun heq => ?_))
  have heq := eq_of_beq heq
  unfold memcpy
  refine .bind (ensures_copyWords (fun c j v hj => hP c j v (by omega))
    (fun i hi j hj => hdis heq i j (by omega) (by omega)) _ 0 w (Nat.zero_add _) rfl h fun w' hw' hPw' => ?_)
  rw [if_pos h8]
  exact ensures_pure (hQ heq w' hw' hPw')

end

end Liumos.Process
