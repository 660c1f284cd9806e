/-
The heap of a process as newlib sees it. `sbrk` expands the heap and returns the end it has then, where its callers
expect the end it had before: the block they take to be theirs lies above what the heap has been expanded by.
Sources: newlib_support.cc (`sbrk`), execution_context.{h,cc} (`ExpandHeap`, `GetHeapEndVirtAddr`).
-/
import Mathlib
import Liumos.Process.Persistent
import Liumos.Switching.Handler

namespace Liumos.Process

open Switching

variable {σ : Type}

/-! ## The source -/

namespace ExecutionContext

/-- `ExpandHeap(diff)`, without what it prints before a panic. -/
def expandHeap (self : Nat) (diff : Word) : WM σ Unit := do
  let diffAbs := if diff.toInt < 0 then -diff else diff
  if (← SegmentMapping.getMapSize (heapAddr self)) < diffAbs then throw (.message "Too large heap expansion request")
  else
    store (heapUsedSizeAddr self) ((← load (heapUsedSizeAddr self)) + diff)
    if (← SegmentMapping.getMapSize (heapAddr self)) < (← load (heapUsedSizeAddr self)) then
      throw (.message "No more heap")
    else return ()

def getHeapEndVirtAddr (self : Nat) : WM σ Word := do
  return (← load (heapUsedSizeAddr self)) + (← SegmentMapping.getVirtAddr (heapAddr self))

end ExecutionContext

open ExecutionContext

/-- `sbrk(diff)` of the current process. -/
def sbrk (kind : Kind) (diff : BitVec 32) : WM σ Word := do
  let ctx ← getExecutionContext kind
  expandHeap ctx (diff.signExtend 64)
  getHeapEndVirtAddr ctx

/-! ## Ranges of addresses -/

/-- The `n` addresses from `a` on. -/
def span (a n : Word) : Set Word := {x | (x - a).toNat < n.toNat}

/-- Ranges of `k` and `l` numbers that have none in common. -/
def ApartRanges (a k b l : Nat) : Prop := a + k ≤ b ∨ b + l ≤ a

variable {a n d v ret : Word} {kind : Kind} {w w' : World σ} {ctx : Nat} {diff : BitVec 32} {heap : SegmentMapping}

theorem mem_span {x : Word} : x ∈ span a n ↔ (x - a).toNat < n.toNat := Iff.rfl

theorem self_mem_span (hn : 0 < n.toNat) : a ∈ span a n := by
  rw [mem_span, BitVec.sub_self]
  exact hn

theorem toNat_sub_add_sub (x a v : Word) : (x - v).toNat = ((x - a).toNat + (a - v).toNat) % 2 ^ 64 := by
  simp only [BitVec.toNat_sub]
  omega

theorem span_subset_iff (hd : 0 < d.toNat) : span a d ⊆ span v n ↔ (a - v).toNat + d.toNat ≤ n.toNat := by
  constructor
  · intro hsub
    by_contra hlt
    have ha := mem_span.1 (hsub (self_mem_span hd))
    -- the first address behind the larger range
    have hself : v + n - v = n := by rw [BitVec.add_comm, BitVec.add_sub_cancel]
    have hx := toNat_sub_add_sub (v + n) a v
    rw [hself] at hx
    have hmem := mem_span.1 (hsub (mem_span.2 (show (v + n - a).toNat < d.toNat by omega)))
    rw [hself] at hmem
    omega
  · intro hle x hx
    rw [mem_span] at hx ⊢
    rw [toNat_sub_add_sub x a]
    omega

theorem disjoint_span_iff {b e : Word} (hd : 0 < d.toNat) (he : 0 < e.toNat) (ha : (a - v).toNat + d.toNat < 2 ^ 64)
    (hb : (b - v).toNat + e.toNat < 2 ^ 64) :
    Disjoint (span a d) (span b e) ↔ ApartRanges (a - v).toNat d.toNat (b - v).toNat e.toNat := by
  rw [Set.disjoint_left]
  constructor
  · intro hno
    -- one of the two first addresses would be in both
    have h1 := hno (self_mem_span hd)
    have h2 : b ∉ span a d := fun h => hno h (self_mem_span he)
    rw [mem_span] at h1 h2
    have h3 := toNat_sub_add_sub a b v
    have h4 := toNat_sub_add_sub b a v
    unfold ApartRanges
    omega
  · intro hap x hx hx'
    have h1 := toNat_sub_add_sub x a v
    have h2 := toNat_sub_add_sub x b v
    rw [mem_span] at hx hx'
    unfold ApartRanges at hap
    omega

/-! ## Blocks as numbers -/

/-- Where in the heap the blocks are that `sbrk` returns for these increments, the last of them first: behind all it has
been expanded by so far. -/
def handedOut : List Nat → List (Nat × Nat)
  | [] => []
  | d :: ds => ((ds.sum + d) % 2 ^ 64, d) :: handedOut ds

/-- The blocks are apart, and in a heap of the size. -/
def Valid (size : Nat) (bs : List (Nat × Nat)) : Prop :=
  bs.Pairwise (fun b c => ApartRanges b.1 b.2 c.1 c.2) ∧ ∀ b ∈ bs, b.1 + b.2 ≤ size

/-- No increment is smaller than the one before it, and the heap has room for each a second time. -/
def Growing (size : Nat) : List Nat → Prop
  | [] => True
  | d :: ds => ds.sum + 2 * d ≤ size ∧ (∀ e ∈ ds.head?, e ≤ d) ∧ Growing size ds

theorem Valid.cons_iff {size : Nat} {b : Nat × Nat} {bs : List (Nat × Nat)} :
    Valid size (b :: bs) ↔ (b.1 + b.2 ≤ size ∧ ∀ c ∈ bs, ApartRanges b.1 b.2 c.1 c.2) ∧ Valid size bs := by
  simp only [Valid, List.pairwise_cons, List.forall_mem_cons]
  tauto

/-- The last block has the highest end. -/
theorem Growing.end_le {size : Nat} : ∀ {d : Nat} {ds : List Nat}, Growing size (d :: ds) → ∀ c ∈ handedOut (d :: ds),
    c.1 + c.2 ≤ (d :: ds).sum + d
  | d, ds, h, c, hc => by
    rcases List.mem_cons.1 hc with rfl | hc
    · simp only [List.sum_cons]
      omega
    · cases ds with
      | nil => cases hc
      | cons e ds =>
        have hle : e ≤ d := h.2.1 e rfl
        have := h.2.2.end_le c hc
        simp only [List.sum_cons] at this ⊢
        omega

section

variable {size : Nat} (hsize : size < 2 ^ 64)

include hsize

/-- Between the blocks no one is left that is larger than the last. -/
theorem Growing.no_gap {s x : Nat} : ∀ {d : Nat} {ds : List Nat}, Growing size (d :: ds) → d < x →
    (∀ c ∈ handedOut (d :: ds), ApartRanges s x c.1 c.2) → (d :: ds).sum + d ≤ s
  | d, ds, h, hx, hap => by
    have hroom := h.1
    have hlast := hap _ (List.mem_cons_self ..)
    simp only [ApartRanges, List.sum_cons] at hlast ⊢
    cases ds with
    | nil =>
      simp only [List.sum_nil] at hlast ⊢
      omega
    | cons e ds =>
      have hle : e ≤ d := h.2.1 e rfl
      have := h.2.2.no_gap (by omega) fun c hc => hap c (List.mem_cons_of_mem _ hc)
      omega

/-- One more block. -/
theorem Growing.cons_iff {d : Nat} {ds : List Nat} (hd : 0 < d ∧ d < 2 ^ 31) (h : Growing size ds) :
    ((ds.sum + d) % 2 ^ 64 + d ≤ size ∧ ∀ c ∈ handedOut ds, ApartRanges ((ds.sum + d) % 2 ^ 64) d c.1 c.2) ↔
      ds.sum + 2 * d ≤ size ∧ ∀ e ∈ ds.head?, e ≤ d := by
  cases ds with
  | nil =>
    simp [handedOut]
    omega
  | cons e ds =>
    have hroom := h.1
    have hhead : (∀ x ∈ (e :: ds).head?, x ≤ d) ↔ e ≤ d := by simp
    rw [hhead]
    constructor
    · rintro ⟨hin, hap⟩
      have hlast := hap _ (List.mem_cons_self ..)
      rcases Nat.lt_or_ge ((e :: ds).sum + d) (2 ^ 64) with hlt | hge
      · simp only [ApartRanges, List.sum_cons] at hlast hin hlt ⊢
        omega
      · -- the sum has wrapped around, and the block is below all that it does not fit between
        have := h.no_gap hsize (by simp only [List.sum_cons] at hge; omega) hap
        omega
    · rintro ⟨hin, hle⟩
      have hlt : (e :: ds).sum + d < 2 ^ 64 := by omega
      rw [Nat.mod_eq_of_lt hlt]
      refine ⟨by omega, fun c hc => .inr ?_⟩
      have := h.end_le c hc
      omega

theorem valid_handedOut_iff :
    ∀ {ds : List Nat}, (∀ d ∈ ds, 0 < d ∧ d < 2 ^ 31) → (Valid size (handedOut ds) ↔ Growing size ds)
  | [], _ => by simp [Valid, handedOut, Growing]
  | d :: ds, hds => by
    have ih : Valid size (handedOut ds) ↔ Growing size ds :=
  valid_handedOut_iff fun e he => hds e (List.mem_cons_of_mem _ he)
    rw [handedOut, Valid.cons_iff, ih, Growing, ← and_assoc]
    exact and_congr_left fun h => h.cons_iff hsize (hds d (List.mem_cons_self ..))

end

/-! ## Calls of one process -/

/-- What `sbrk` returned, and for which increment. -/
structure Block where
  addr : Word
  diff : BitVec 32

/-- `[ret, ret + diff)`. -/
def Block.span (b : Block) : Set Word := Process.span b.addr (b.diff.signExtend 64)

def Block.place (heap : SegmentMapping) (b : Block) : Nat × Nat := ((b.addr - heap.vaddr).toNat, b.diff.toNat)

/-- The contexts a process may run in. -/
def contexts : Kind → List Nat
  | .ephemeral ctx => [ctx]
  | .persistent ppInfo => [PersistentProcessInfo.ctxAddr ppInfo 0, PersistentProcessInfo.ctxAddr ppInfo 1]

/-- Every context has the heap, of which `used` bytes are used. -/
def HeapIs (kind : Kind) (heap : SegmentMapping) (used : Word) (m : Mem) : Prop :=
  ∀ ctx ∈ contexts kind, SegmentIs m (heapAddr ctx) heap ∧ m.load (heapUsedSizeAddr ctx) = used

/-- `ParseProgramHeader` clears the heap, and no one sets that of a persistent process. -/
def HeapOf (heap : SegmentMapping) : Kind → Prop
  | .ephemeral _ => True
  | .persistent _ => heap.mapSize = 0#64

/-- Calls by a process, which `SetRegisters` has left with nothing used of its heap, and the blocks they returned, the
last one first. In between memory changes, but for the heap's words in the contexts. -/
inductive Calls (kind : Kind) (heap : SegmentMapping) : List Block → World σ → Prop
  | start {w : World σ} : HeapOf heap kind → HeapIs kind heap 0#64 w.mem → Calls kind heap [] w
  | other {bs : List Block} {w w' : World σ} : Calls kind heap bs w →
      (∀ used, HeapIs kind heap used w.mem → HeapIs kind heap used w'.mem) → Calls kind heap bs w'
  | call {bs : List Block} {w w' : World σ} {diff : BitVec 32} {ret : Word} : Calls kind heap bs w → 0 < diff.toInt →
      (sbrk kind diff).run w = .ok ret w' → Calls kind heap (⟨ret, diff⟩ :: bs) w'

theorem of_run_getExecutionContext (h : (getExecutionContext kind).run w = .ok ctx w') :
    ctx ∈ contexts kind ∧ w' = w := by
  cases kind with
  | ephemeral c =>
    obtain ⟨rfl, rfl⟩ := run_pure_ok h
    exact ⟨List.mem_singleton_self _, rfl⟩
  | persistent ppInfo =>
    obtain ⟨idx, _, hidx, h⟩ := run_bind_ok h
    cases hidx
    obtain ⟨hb, h⟩ := of_run_assert_bind h
    obtain ⟨rfl, rfl⟩ := run_pure_ok h
    obtain ⟨h0, h2⟩ := Bool.and_eq_true_iff.1 hb
    have h0 := of_decide_eq_true h0
    have h2 : _ < (2 : Int) := of_decide_eq_true h2
    refine ⟨?_, rfl⟩
    generalize (low32 (w.mem.load (PersistentProcessInfo.validCtxIdxAddr ppInfo))).toInt = idx at h0 h2 ⊢
    obtain rfl | rfl : idx = 0 ∨ idx = 1 := by omega
    · exact List.mem_cons_of_mem _ (List.mem_singleton_self _)
    · exact List.mem_cons_self ..

theorem toNat_signExtend_of_pos (h : 0 < diff.toInt) :
    (diff.signExtend 64).toNat = diff.toNat ∧ 0 < diff.toNat ∧ diff.toNat < 2 ^ 31 := by
  rw [BitVec.toInt_eq_toNat_cond] at h
  split at h
  · have hmsb : diff.msb = false := by
      rw [BitVec.msb_eq_false_iff_two_mul_lt]
      omega
    rw [BitVec.signExtend_eq_setWidth_of_msb_false hmsb, BitVec.toNat_setWidth]
    omega
  · omega

theorem of_run_expandHeap {u : Unit} (hheap : SegmentIs w.mem (heapAddr ctx) heap)
    (hrun : (expandHeap ctx (diff.signExtend 64)).run w = .ok u w') (hdiff : 0 < diff.toInt) :
    diff.toNat ≤ heap.mapSize.toNat ∧
      w' = { w with
        mem := w.mem.store (heapUsedSizeAddr ctx) (w.mem.load (heapUsedSizeAddr ctx) + diff.signExtend 64) } := by
  obtain ⟨hnat, -, -⟩ := toNat_signExtend_of_pos hdiff
  have hpos : ¬ (diff.signExtend 64).toInt < 0 := by
    rw [BitVec.toInt_eq_toNat_of_lt (by omega)]
    omega
  obtain ⟨_, _, hload, hrun⟩ := run_bind_ok hrun
  cases hload
  rw [if_neg hpos] at hrun
  split at hrun
  · cases hrun
  · next hle =>
    rw [show w.mem.load (heapAddr ctx + 16) = _ from hheap.mapSize, BitVec.lt_def, hnat] at hle
    have hrun := of_run_load_bind hrun
    obtain ⟨_, _, hstore, hrun⟩ := run_bind_ok hrun
    have hw1 := run_store_ok hstore
    have hrun := of_run_load_bind hrun
    have hrun := of_run_load_bind hrun
    split at hrun
    · cases hrun
    · obtain ⟨-, rfl⟩ := run_pure_ok hrun
      exact ⟨by omega, hw1⟩

theorem run_getHeapEndVirtAddr (ctx : Nat) (w : World σ) : (getHeapEndVirtAddr ctx).run w =
    .ok (w.mem.load (heapUsedSizeAddr ctx) + w.mem.load (heapAddr ctx)) w := rfl

/-- A call that returns. -/
theorem of_run_sbrk {used : Word} (h : HeapIs kind heap used w.mem) (hrun : (sbrk kind diff).run w = .ok ret w')
    (hdiff : 0 < diff.toInt) :
    ∃ ctx ∈ contexts kind, diff.toNat ≤ heap.mapSize.toNat ∧ ret = used + diff.signExtend 64 + heap.vaddr ∧
      w' = { w with mem := w.mem.store (heapUsedSizeAddr ctx) (used + diff.signExtend 64) } := by
  obtain ⟨ctx, _, hctx, hbody⟩ := run_bind_ok hrun
  obtain ⟨hmem, rfl⟩ := of_run_getExecutionContext hctx
  obtain ⟨hheap, rfl⟩ := h ctx hmem
  obtain ⟨_, _, hexp, hret⟩ := run_bind_ok hbody
  obtain ⟨hle, rfl⟩ := of_run_expandHeap hheap hexp hdiff
  rw [run_getHeapEndVirtAddr, EStateM.Result.ok.injEq] at hret
  obtain ⟨rfl, rfl⟩ := hret
  refine ⟨ctx, hmem, hle, ?_, rfl⟩
  have hne : heapAddr ctx ≠ heapUsedSizeAddr ctx := by
    unfold heapAddr heapUsedSizeAddr
    omega
  rw [WriteBack.Memory.load_store_self, WriteBack.Memory.load_store_ne _ _ hne, hheap.vaddr]

/-- What the calls have come to. -/
structure CallsInv (kind : Kind) (heap : SegmentMapping) (bs : List Block) (m : Mem) : Prop where
  heapOf : HeapOf heap kind
  heapIs : HeapIs kind heap (BitVec.ofNat 64 (bs.map (·.diff.toNat)).sum) m
  places : bs.map (Block.place heap) = handedOut (bs.map (·.diff.toNat))
  pos : ∀ b ∈ bs, 0 < b.diff.toInt

variable {bs : List Block} {b : Block}

/-- A persistent process has no heap to expand. -/
theorem CallsInv.call (h : CallsInv kind heap bs w.mem) (hdiff : 0 < diff.toInt)
    (hrun : (sbrk kind diff).run w = .ok ret w') : CallsInv kind heap (⟨ret, diff⟩ :: bs) w'.mem := by
  obtain ⟨hnat, hpos, -⟩ := toNat_signExtend_of_pos hdiff
  obtain ⟨ctx, hmem, hle, rfl, rfl⟩ := of_run_sbrk h.heapIs hrun hdiff
  have hsum : BitVec.ofNat 64 (bs.map (·.diff.toNat)).sum + diff.signExtend 64 =
      BitVec.ofNat 64 ((bs.map (·.diff.toNat)).sum + diff.toNat) := by
    rw [← BitVec.ofNat_add_ofNat, ← hnat, BitVec.ofNat_toNat, BitVec.setWidth_eq]
  rw [hsum]
  refine ⟨h.heapOf, ?_, ?_, List.forall_mem_cons.2 ⟨hdiff, h.pos⟩⟩
  · cases kind with
    | persistent ppInfo =>
      have hzero : heap.mapSize = 0#64 := h.heapOf
      rw [hzero] at hle
      exact absurd hle (Nat.not_le.2 hpos)
    | ephemeral c =>
      -- the store is behind the words of the segment
      obtain rfl : ctx = c := by simpa [contexts] using hmem
      intro c hc
      obtain rfl : c = ctx := by simpa [contexts] using hc
      refine ⟨(h.heapIs c hc).1.frame fun x h1 h2 => WriteBack.Memory.load_store_ne _ _ ?_, ?_⟩
      · unfold heapAddr at h2
        unfold heapUsedSizeAddr
        omega
      · rw [WriteBack.Memory.load_store_self, List.map_cons, List.sum_cons, Nat.add_comm]
  · rw [List.map_cons, List.map_cons, handedOut, h.places]
    congr 1
    rw [Block.place, BitVec.add_sub_cancel, BitVec.toNat_ofNat]

theorem Calls.inv (h : Calls kind heap bs w) : CallsInv kind heap bs w.mem := by
  induction h with
  | start hof his => exact ⟨hof, his, rfl, fun b hb => nomatch hb⟩
  | other _ hsame ih => exact ⟨ih.heapOf, hsame _ ih.heapIs, ih.places, ih.pos⟩
  | call _ hdiff hrun ih => exact ih.call hdiff hrun

theorem Block.place_le (hb : 0 < b.diff.toInt) :
    b.span ⊆ Process.span heap.vaddr heap.mapSize ↔ (b.place heap).1 + (b.place heap).2 ≤ heap.mapSize.toNat := by
  obtain ⟨hnat, hpos, -⟩ := toNat_signExtend_of_pos hb
  rw [Block.span, span_subset_iff (by omega), hnat, Block.place]

theorem Block.place_apart {c : Block} (hb : 0 < b.diff.toInt) (hc : 0 < c.diff.toInt)
    (hbin : b.span ⊆ Process.span heap.vaddr heap.mapSize) (hcin : c.span ⊆ Process.span heap.vaddr heap.mapSize) :
    Disjoint b.span c.span ↔ ApartRanges (b.place heap).1 (b.place heap).2 (c.place heap).1 (c.place heap).2 := by
  rw [Block.place_le hb, Block.place] at hbin
  rw [Block.place_le hc, Block.place] at hcin
  obtain ⟨hnatb, hposb, -⟩ := toNat_signExtend_of_pos hb
  obtain ⟨hnatc, hposc, -⟩ := toNat_signExtend_of_pos hc
  rw [Block.span, Block.span, disjoint_span_iff (v := heap.vaddr) (by omega) (by omega) (by omega) (by omega), hnatb,
    hnatc, Block.place, Block.place]

/-- Sets of addresses and their places in the heap. -/
theorem CallsInv.valid_iff {m : Mem} (h : CallsInv kind heap bs m) :
    bs.Pairwise (fun b c => Disjoint b.span c.span) ∧ (∀ b ∈ bs, b.span ⊆ span heap.vaddr heap.mapSize) ↔
      Valid heap.mapSize.toNat (bs.map (Block.place heap)) := by
  have hin : (∀ b ∈ bs, b.span ⊆ span heap.vaddr heap.mapSize) ↔
      ∀ p ∈ bs.map (Block.place heap), p.1 + p.2 ≤ heap.mapSize.toNat := by
    rw [List.forall_mem_map]
    exact forall₂_congr fun b hb => Block.place_le (h.pos b hb)
  rw [Valid, ← hin, List.pairwise_map]
  refine and_congr_left fun hall => List.Pairwise.iff_of_mem fun {b c} hb hc => ?_
  exact Block.place_apart (h.pos b hb) (h.pos c hc) (hall b hb) (hall c hc)

/-- The blocks `[ret, ret + diff)` are apart and inside the heap exactly if no increment is smaller than the one
before it and each would fit a second time: `used + 2 * diff <= map_size`. -/
theorem sbrk_blocks_iff {kind : Kind} {heap : SegmentMapping} {bs : List Block} {w : World σ}
    (h : Calls kind heap bs w) :
    bs.Pairwise (fun b c => Disjoint b.span c.span) ∧ (∀ b ∈ bs, b.span ⊆ span heap.vaddr heap.mapSize) ↔
      Growing heap.mapSize.toNat (bs.map (·.diff.toNat)) := by
  rw [h.inv.valid_iff, h.inv.places]
  refine valid_handedOut_iff heap.mapSize.isLt (List.forall_mem_map.2 fun b hb => ?_)
  exact (toNat_signExtend_of_pos (h.inv.pos b hb)).2

/-! ## The kernel's heap -/

/-- `kernel_heap_virtual_base`, and `kNumOfKernelHeapPages` pages. -/
def kernelHeap : SegmentMapping := ⟨0xFFFFFFFF50000000#64, 0x30000#64, 4#64 <<< kPageSizeExponent⟩

/-- `map_info.heap` of the root process, whose context is at 0x8000. -/
def rootMem : Mem :=
  (((⟨fun _ => 0#64, []⟩ : Mem).store 0x82F0 kernelHeap.vaddr).store 0x82F8 kernelHeap.paddr).store 0x8300
    kernelHeap.mapSize

theorem calls_root : Calls (.ephemeral 0x8000) kernelHeap [] (⟨rootMem, ()⟩ : World Unit) := by
  refine .start trivial fun ctx hctx => ?_
  obtain rfl := List.mem_singleton.1 hctx
  exact ⟨⟨rfl, rfl, rfl⟩, rfl⟩

/-- A block of one page. -/
theorem calls_firstPage : Calls (.ephemeral 0x8000) kernelHeap [⟨0xFFFFFFFF50001000#64, 0x1000#32⟩]
    (⟨rootMem.store 0x8310 0x1000#64, ()⟩ : World Unit) := calls_root.call (by decide) rfl

/-- Two blocks of one page each. -/
theorem sbrk_blocks_kernelHeap :
    ∃ (bs : List Block) (w : World Unit), Calls (.ephemeral 0x8000) kernelHeap bs w ∧ bs.length = 2 ∧
    bs.Pairwise (fun b c => Disjoint b.span c.span) ∧ ∀ b ∈ bs, b.span ⊆ span kernelHeap.vaddr kernelHeap.mapSize := by
  have h₂ : Calls (.ephemeral 0x8000) kernelHeap
    [⟨0xFFFFFFFF50002000#64, 0x1000#32⟩, ⟨0xFFFFFFFF50001000#64, 0x1000#32⟩]
      (⟨(rootMem.store 0x8310 0x1000#64).store 0x8310 0x2000#64, ()⟩ : World Unit) :=
      calls_firstPage.call (by decide) rfl
  have hgrowing : Growing 0x4000 [0x1000, 0x1000] := ⟨by decide, by decide, by decide, by decide, trivial⟩
  exact ⟨_, _, h₂, rfl, (sbrk_blocks_iff h₂).2 hgrowing⟩

/-- A small block behind a large one is inside it, and one of more than two pages leaves the heap of four. -/
theorem sbrk_blocks_overlap :
    (∃ (b c : Block) (w : World Unit), Calls (.ephemeral 0x8000) kernelHeap [c, b] w ∧ ¬ Disjoint c.span b.span) ∧
    ∃ (b : Block) (w : World Unit), Calls (.ephemeral 0x8000) kernelHeap [b] w ∧
      ¬ b.span ⊆ span kernelHeap.vaddr kernelHeap.mapSize := by
  have h₂ : Calls (.ephemeral 0x8000) kernelHeap [⟨0xFFFFFFFF50001010#64, 0x10#32⟩, ⟨0xFFFFFFFF50001000#64, 0x1000#32⟩]
      (⟨(rootMem.store 0x8310 0x1000#64).store 0x8310 0x1010#64, ()⟩ : World Unit) :=
      calls_firstPage.call (by decide) rfl
  have h₃ : Calls (.ephemeral 0x8000) kernelHeap [⟨0xFFFFFFFF50002001#64, 0x2001#32⟩]
      (⟨rootMem.store 0x8310 0x2001#64, ()⟩ : World Unit) := calls_root.call (by decide) rfl
  refine ⟨⟨_, _, _, h₂, fun hdis => ?_⟩, ⟨_, _, h₃, fun hsub => ?_⟩⟩
  · have hmem : 0xFFFFFFFF50001010#64 ∈ span 0xFFFFFFFF50001010#64 0x10#64 := mem_span.2 (by decide)
    exact Set.disjoint_left.1 hdis hmem (mem_span.2 (by decide))
  · have hmem : 0xFFFFFFFF50004000#64 ∈ span 0xFFFFFFFF50002001#64 0x2001#64 := mem_span.2 (by decide)
    exact absurd (mem_span.1 (hsub hmem)) (by decide)

end Liumos.Process
