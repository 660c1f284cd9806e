/-
The operations on the segments of a process: their fields, and the mapping of a segment into a page table.
Source: execution_context.h (`SegmentMapping`, `ProcessMappingInfo`). `Process.ExecutionContext` has their layout
and the copy between segments.
-/
import Liumos.Paging.Mapping
import Liumos.Process.ExecutionContext

namespace Liumos.Process

open Paging
open WriteBack.Memory (load_flush load_store)

variable {σ : Type}

namespace SegmentMapping

def getVirtAddr (self : Nat) : WM σ Word := load self
def getPhysAddr (self : Nat) : WM σ Word := load (self + 8)
def getMapSize (self : Nat) : WM σ Word := load (self + 16)

def getVirtEndAddr (self : Nat) : WM σ Word := do return (← getVirtAddr self) + (← getMapSize self)

def set (self : Nat) (vaddr paddr mapSize : Word) : WM σ Unit := do
  store self vaddr
  store (self + 8) paddr
  store (self + 16) mapSize
  clflush self

/-- `SetPhysAddr(paddr)`. The line it flushes is that of the parameter, which is at `param`. -/
def setPhysAddr (param self : Nat) (paddr : Word) : WM σ Unit := do
  store (self + 8) paddr
  clflush param

def clear (self : Nat) : WM σ Unit := do
  store (self + 8) 0#64
  store self 0#64
  store (self + 16) 0#64
  clflush self

def map (allocPages : Word → WM σ Word) (mask : Word) (self : Nat) (pageRoot pageAttr : Word) (shouldClflush : Bool) :
    WM σ Unit := do
  if (← getPhysAddr self) = 0#64 then return ()  -- To avoid mapping null segment
  else
    createPageMapping allocPages mask (kPageAttrPresent ||| pageAttr) shouldClflush pageRoot (← getVirtAddr self)
      (← getPhysAddr self) (← getMapSize self)

end SegmentMapping

namespace ProcessMappingInfo

def code (self : Nat) : Nat := self
def data (self : Nat) : Nat := self + 24
def stack (self : Nat) : Nat := self + 48
def heap (self : Nat) : Nat := self + 72

/-- `sizeof(ProcessMappingInfo)`. -/
def size : Nat := 96

def clear (self : Nat) : WM σ Unit := do
  SegmentMapping.clear (code self)
  SegmentMapping.clear (data self)
  SegmentMapping.clear (stack self)
  SegmentMapping.clear (heap self)

end ProcessMappingInfo

/-! ## What they leave -/

/-- Nothing has changed but from `a` up to `b`. -/
abbrev SameOutside (a b : Nat) (m m' : Mem) : Prop := ∀ x, x < a ∨ b ≤ x → m'.load x = m.load x

section

variable {E : Panic → Prop} {w : World σ} {a : Nat}

variable {Q : Unit → World σ → Prop}

theorem yields_set {vaddr paddr mapSize : Word}
    (h : ∀ m', SegmentIs m' a ⟨vaddr, paddr, mapSize⟩ → SameOutside a (a + 24) w.mem m' →
      Q () { w with mem := m' }) : Yields E (SegmentMapping.set a vaddr paddr mapSize) w Q := by
  refine h ((((w.mem.store a vaddr).store (a + 8) paddr).store (a + 16) mapSize).flush a) ⟨?_, ?_, ?_⟩ fun x hx => ?_
  all_goals simp only [load_flush, load_store]
  · rw [if_neg (by omega), if_neg (by omega), if_pos trivial]
  · rw [if_neg (by omega), if_pos trivial]
  · rw [if_pos trivial]
  · rw [if_neg (by omega), if_neg (by omega), if_neg (by omega)]

theorem yields_clear (h : ∀ m', SegmentIs m' a ⟨0#64, 0#64, 0#64⟩ → SameOutside a (a + 24) w.mem m' →
      Q () { w with mem := m' }) : Yields E (SegmentMapping.clear a) w Q := by
  refine h ((((w.mem.store (a + 8) 0#64).store a 0#64).store (a + 16) 0#64).flush a) ⟨?_, ?_, ?_⟩ fun x hx => ?_
  all_goals simp only [load_flush, load_store]
  · rw [if_neg (by omega), if_pos trivial]
  · rw [if_neg (by omega), if_neg (by omega), if_pos trivial]
  · rw [if_pos trivial]
  · rw [if_neg (by omega), if_neg (by omega), if_neg (by omega)]

variable {s : SegmentMapping}

/-- A segment that the stores have not come to. -/
theorem SegmentIs.frame {m m' : Mem} (h : SegmentIs m a s)
    (hm : ∀ x, a ≤ x → x < a + 24 → m'.load x = m.load x) : SegmentIs m' a s :=
  ⟨(hm _ (le_refl a) (by omega)).trans h.vaddr, (hm _ (by omega) (by omega)).trans h.paddr,
    (hm _ (by omega) (by omega)).trans h.mapSize⟩

theorem SegmentIs.getVirtAddr (h : SegmentIs w.mem a s) : (SegmentMapping.getVirtAddr a).run w = .ok s.vaddr w := by
  rw [← h.vaddr]
  rfl

theorem SegmentIs.getPhysAddr (h : SegmentIs w.mem a s) : (SegmentMapping.getPhysAddr a).run w = .ok s.paddr w := by
  rw [← h.paddr]
  rfl

theorem SegmentIs.getMapSize (h : SegmentIs w.mem a s) : (SegmentMapping.getMapSize a).run w = .ok s.mapSize w := by
  rw [← h.mapSize]
  rfl

theorem yields_clearInfo (h : ∀ m', (∀ i < 4, SegmentIs m' (a + 24 * i) ⟨0#64, 0#64, 0#64⟩) →
      SameOutside a (a + ProcessMappingInfo.size) w.mem m' → Q () { w with mem := m' }) :
    Yields E (ProcessMappingInfo.clear a) w Q := by
  unfold ProcessMappingInfo.clear ProcessMappingInfo.code ProcessMappingInfo.data ProcessMappingInfo.stack
    ProcessMappingInfo.heap
  refine (yields_clear fun m1 h1 f1 => ?_).bind
  refine (yields_clear fun m2 h2 f2 => ?_).bind
  refine (yields_clear fun m3 h3 f3 => ?_).bind
  refine yields_clear fun m4 h4 f4 => h m4 ?_ ?_
  · intro i hi
    interval_cases i
    · exact ((h1.frame fun x _ _ => f2 x (by omega)).frame fun x _ _ => f3 x (by omega)).frame fun x _ _ =>
        f4 x (by omega)
    · exact (h2.frame fun x _ _ => f3 x (by omega)).frame fun x _ _ => f4 x (by omega)
    · exact h3.frame fun x _ _ => f4 x (by omega)
    · exact h4
  · intro x hx
    unfold ProcessMappingInfo.size at hx
    rw [f4 x (by omega), f3 x (by omega), f2 x (by omega), f1 x (by omega)]

end

end Liumos.Process
