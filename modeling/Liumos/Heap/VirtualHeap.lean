/-
The kernel's virtual heap: `MapPages` hands out addresses of a window upwards, leaves a page free behind
each range and maps the range there. Source: kernel_virtual_heap_allocator.h.

While `next_base_ + byte_size` does not wrap, the ranges keep apart, stay in the window and keep their
translations. The check of the source compares the sum after it wrapped, so that a request that is large
enough passes and leaves the window at the end of the address space.
-/
import Liumos.Paging.Returns

namespace Liumos.Heap

open Liumos.Paging List

/-! ## The allocator -/

def kKernelHeapBaseAddr : Word := 0xFFFFFFFF90000000#64
def kKernelHeapSize : Word := 0x40000000#64

/-- `KernelVirtualHeapAllocator`, with the memory and the allocator of physical pages it refers to. -/
structure KernelVirtualHeapAllocator (σ : Type) where
  nextBase : Word
  world : World σ

/-- The arguments of a call of `MapPages`. -/
structure Request where
  paddr : Word
  numOfPages : Word
  pageAttr : Word

section

variable {σ : Type}

def onWorld {α : Type} (x : WM σ α) : KM (KernelVirtualHeapAllocator σ) α := fun s =>
  match x s.world with
  | .ok a w => .ok a { s with world := w }
  | .error e w => .error e { s with world := w }

variable (allocPages : Word → WM σ Word) (mask pml4 : Word)

def mapPages (c : Request) : KM (KernelVirtualHeapAllocator σ) Word := do
  let byteSize := c.numOfPages <<< kPageSizeExponent
  let s ← get
  if kKernelHeapSize < byteSize ∨ kKernelHeapBaseAddr + kKernelHeapSize < s.nextBase + byteSize then
    throw (.message "Cannot allocate kernel virtual heap")
  else
    let vaddr := s.nextBase
    set { s with nextBase := s.nextBase + (byteSize + 1#64 <<< kPageSizeExponent) }
    onWorld (createPageMapping allocPages mask c.pageAttr false pml4 vaddr c.paddr byteSize)
    return vaddr

end

variable {σ α : Type} {x : WM σ α} {s s' : KernelVirtualHeapAllocator σ}
  {allocPages : Word → WM σ Word} {mask pml4 : Word} {c : Request} {n : Nat}

theorem yields_onWorld {E : Panic → Prop} {Q : α → KernelVirtualHeapAllocator σ → Prop}
    (h : Yields E x s.world fun a w => Q a { s with world := w }) : Yields E (onWorld x) s Q := by
  unfold Yields onWorld EStateM.run at *
  cases hx : x s.world with
  | ok a w =>
    rw [hx] at h
    simp only [hx]
    exact h
  | error e w =>
    rw [hx] at h
    simp only [hx]
    exact h

/-- A request that passes the check, and whose range `CreatePageMapping` maps. -/
theorem run_mapPages {w' : World σ} (hsize : c.numOfPages <<< kPageSizeExponent ≤ kKernelHeapSize)
    (hend : s.nextBase + c.numOfPages <<< kPageSizeExponent ≤ kKernelHeapBaseAddr + kKernelHeapSize)
    (hrun : (createPageMapping allocPages mask c.pageAttr false pml4 s.nextBase c.paddr
      (c.numOfPages <<< kPageSizeExponent)).run s.world = .ok () w') : (mapPages allocPages mask pml4 c).run s =
      .ok s.nextBase ⟨s.nextBase + (c.numOfPages <<< kPageSizeExponent + 1#64 <<< kPageSizeExponent), w'⟩ := by
  have hcheck : ¬ (kKernelHeapSize < c.numOfPages <<< kPageSizeExponent ∨
      kKernelHeapBaseAddr + kKernelHeapSize < s.nextBase + c.numOfPages <<< kPageSizeExponent) := by
    rw [not_or, BitVec.not_lt, BitVec.not_lt]
    exact ⟨hsize, hend⟩
  have hmap : ∀ base, (onWorld (createPageMapping allocPages mask c.pageAttr false pml4 s.nextBase c.paddr
      (c.numOfPages <<< kPageSizeExponent))).run ⟨base, s.world⟩ = .ok () ⟨base, w'⟩ := by
    intro base
    unfold EStateM.run onWorld at *
    simp only [hrun]
  rw [mapPages, run_get_bind, if_neg hcheck, run_set_bind]
  exact run_bind_eq (hmap _)

theorem run_onWorld_ok {a : α} (h : (onWorld x).run s = .ok a s') :
    x.run s.world = .ok a s'.world ∧ s'.nextBase = s.nextBase := by
  unfold EStateM.run onWorld at h
  split at h
  · rename_i hx
    obtain ⟨rfl, rfl⟩ := EStateM.Result.ok.inj h
    exact ⟨hx, rfl⟩
  · cases h

/-- A call that returns has mapped the range at `next_base_`. -/
theorem run_mapPages_ok {v : Word} (h : (mapPages allocPages mask pml4 c).run s = .ok v s') :
    (createPageMapping allocPages mask c.pageAttr false pml4 s.nextBase c.paddr
      (c.numOfPages <<< kPageSizeExponent)).run s.world = .ok () s'.world ∧
      s'.nextBase = s.nextBase + (c.numOfPages <<< kPageSizeExponent + 1#64 <<< kPageSizeExponent) := by
  unfold mapPages at h
  rw [run_bind_eq (show (get : KM (KernelVirtualHeapAllocator σ) _).run s = .ok s s from rfl)] at h
  split at h
  · cases h
  · obtain ⟨_, _, hset, h⟩ := run_bind_ok h
    obtain ⟨_, _, hmap, h⟩ := run_bind_ok h
    obtain ⟨-, rfl⟩ := run_pure_ok h
    have hs1 := (EStateM.Result.ok.inj hset).2
    obtain ⟨hrun, hbase⟩ := run_onWorld_ok hmap
    rw [← hs1] at hrun hbase
    exact ⟨hrun, hbase⟩

/-! ## Ranges in the window -/

/-- The addresses of the window. -/
def windowBase : Nat := 0xFFFFFFFF90000000
def windowEnd : Nat := 0xFFFFFFFFD0000000

/-- A range that a call has returned. -/
structure Range where
  vaddr : Word
  paddr : Word
  numOfPages : Nat

def Range.stop (r : Range) : Nat := r.vaddr.toNat + 4096 * r.numOfPages

/-- No entry maps the address. -/
def Unmapped (mask pml4 : Word) (m : Mem) (va : Word) : Prop := leaf mask m 3 pml4 va = none

/-- The ranges keep apart, in the window, with a free page behind each, and translate to their own pages. -/
structure Separate (mask pml4 : Word) (m : Mem) (rs : List Range) : Prop where
  disjoint : rs.Pairwise fun r r' => r.stop ≤ r'.vaddr.toNat ∨ r'.stop ≤ r.vaddr.toNat
  inside : ∀ r ∈ rs, windowBase ≤ r.vaddr.toNat ∧ r.stop ≤ windowEnd
  guarded : ∀ r ∈ rs, ∀ va : Word, r.stop ≤ va.toNat → va.toNat < r.stop + 4096 → Unmapped mask pml4 m va
  translates : ∀ r ∈ rs, ∀ va : Word, (va - r.vaddr).toNat < 4096 * r.numOfPages →
    v2p mask m 3 pml4 va = r.paddr + (va - r.vaddr)

/-- The requests that callers make. -/
structure Request.Ok (c : Request) : Prop where
  aligned : c.paddr.toNat % 4096 = 0
  pos : 0 < c.numOfPages.toNat
  lt : c.numOfPages.toNat < 2 ^ 52
  attr : AttrOk c.pageAttr

/-- The requests that are served well in a state: the sum in the check does not wrap, the pages exist, and a range up
to the end of the window finds the page behind the window free. -/
structure Fits {σ : Type} (mask pml4 : Word) (bits : Nat) (s : KernelVirtualHeapAllocator σ) (c : Request) : Prop where
  noWrap : s.nextBase.toNat + 4096 * c.numOfPages.toNat < 2 ^ 64
  phys : c.paddr.toNat + 4096 * c.numOfPages.toNat ≤ 2 ^ bits
  behind : s.nextBase.toNat + 4096 * c.numOfPages.toNat = windowEnd →
    ∀ va : Word, windowEnd ≤ va.toNat → va.toNat < windowEnd + 4096 → Unmapped mask pml4 s.world.mem va

/-- Runs of the allocator from `s0`, with the ranges that have been returned. -/
inductive Runs {σ : Type} (allocPages : Word → WM σ Word) (mask pml4 : Word) (bits : Nat)
    (s0 : KernelVirtualHeapAllocator σ) : List Range → KernelVirtualHeapAllocator σ → Prop
  | start : Runs allocPages mask pml4 bits s0 [] s0
  | call {rs s s'} {c : Request} {v : Word} : Runs allocPages mask pml4 bits s0 rs s → c.Ok → Fits mask pml4 bits s c →
      (mapPages allocPages mask pml4 c).run s = .ok v s' →
      Runs allocPages mask pml4 bits s0 (rs ++ [⟨v, c.paddr, c.numOfPages.toNat⟩]) s'

section

variable {v q : Word} {N : Nat}

/-- What lies in or behind the window, before or behind a range there, is outside the range in the index space too. -/
theorem le_offset (hv : windowBase ≤ v.toNat) (hq : windowBase ≤ q.toNat) (hN : v.toNat + 4096 * N ≤ 2 ^ 64)
    (h : q.toNat < v.toNat ∨ v.toNat + 4096 * N ≤ q.toNat) : 4096 * N ≤ offset v q := by
  unfold offset windowBase at *
  rw [BitVec.toNat_sub]
  omega

end

section

variable {σ : Type} {E : Panic → Prop} {A : Pool σ}
  {allocPages : Word → WM σ Word} [hA : AllocOk allocPages A] {mask pml4 : Word} {bits : Nat}
  {s : KernelVirtualHeapAllocator σ} {rs : List Range}
  {c : Request}

theorem toNat_byteSize (hc : c.Ok) : (c.numOfPages <<< kPageSizeExponent).toNat = 4096 * c.numOfPages.toNat := by
  have := hc.lt
  rw [BitVec.toNat_shiftLeft, Nat.shiftLeft_eq, kPageSizeExponent]
  omega

/-- The check of the source, for a sum that does not wrap. -/
theorem check_iff (hc : c.Ok) (hw : s.nextBase.toNat + 4096 * c.numOfPages.toNat < 2 ^ 64)
    (hbase : windowBase ≤ s.nextBase.toNat) :
    (kKernelHeapSize < c.numOfPages <<< kPageSizeExponent ∨
        kKernelHeapBaseAddr + kKernelHeapSize < s.nextBase + c.numOfPages <<< kPageSizeExponent) ↔
      windowEnd < s.nextBase.toNat + 4096 * c.numOfPages.toNat := by
  have hsize : (kKernelHeapSize).toNat = 0x40000000 := rfl
  have hend : (kKernelHeapBaseAddr + kKernelHeapSize).toNat = windowEnd := rfl
  rw [BitVec.lt_def, BitVec.lt_def, hsize, hend, BitVec.toNat_add, toNat_byteSize hc]
  unfold windowEnd windowBase at *
  omega

theorem toNat_nextBase (hc : c.Ok) (h : s.nextBase.toNat + 4096 * c.numOfPages.toNat ≤ windowEnd) :
    (s.nextBase + (c.numOfPages <<< kPageSizeExponent + 1#64 <<< kPageSizeExponent)).toNat =
      s.nextBase.toNat + 4096 * c.numOfPages.toNat + 4096 := by
  have hone : (1#64 <<< kPageSizeExponent).toNat = 4096 := rfl
  rw [BitVec.toNat_add, BitVec.toNat_add, toNat_byteSize hc, hone]
  unfold windowEnd at h
  omega

theorem toNat_pages (hc : c.Ok) : pageCount (c.numOfPages <<< kPageSizeExponent) = c.numOfPages.toNat := by
  have hb := toNat_byteSize hc
  rw [pageCount_eq (by omega), hb]
  omega

/-! ## A call -/

/-- What holds between two calls. -/
structure HeapInv (A : Pool σ) (mask pml4 : Word) (rs : List Range) (s : KernelVirtualHeapAllocator σ) : Prop where
  tree : TreeInv A mask pml4 s.world
  aligned : s.nextBase.toNat % 4096 = 0
  base : windowBase ≤ s.nextBase.toNat
  below : ∀ r ∈ rs, r.stop + 4096 ≤ s.nextBase.toNat
  free : ∀ va : Word, s.nextBase.toNat ≤ va.toNat → va.toNat < windowEnd → Unmapped mask pml4 s.world.mem va
  separate : Separate mask pml4 s.world.mem rs

/-- The range that a call has mapped joins the others. -/
theorem HeapInv.next (h : HeapInv A mask pml4 rs s) (hc : c.Ok)
    (hend : s.nextBase.toNat + 4096 * c.numOfPages.toNat ≤ windowEnd) {w' : World σ}
    (hmap : MapInv A mask pml4 s.nextBase c.paddr c.numOfPages.toNat (v2p mask s.world.mem 3 pml4) w'
      c.numOfPages.toNat)
    (hfree : ∀ va, 4096 * c.numOfPages.toNat ≤ offset s.nextBase va → Unmapped mask pml4 s.world.mem va →
      Unmapped mask pml4 w'.mem va)
    (hbehind : s.nextBase.toNat + 4096 * c.numOfPages.toNat = windowEnd → ∀ va : Word, windowEnd ≤ va.toNat →
      va.toNat < windowEnd + 4096 → Unmapped mask pml4 s.world.mem va) :
    HeapInv A mask pml4 (rs ++ [⟨s.nextBase, c.paddr, c.numOfPages.toNat⟩])
      ⟨s.nextBase + (c.numOfPages <<< kPageSizeExponent + 1#64 <<< kPageSizeExponent), w'⟩ := by
  have hbase := h.base
  have hnext := toNat_nextBase hc hend
  have houtside : ∀ {va : Word}, windowBase ≤ va.toNat →
      va.toNat < s.nextBase.toNat ∨ s.nextBase.toNat + 4096 * c.numOfPages.toNat ≤ va.toNat →
      4096 * c.numOfPages.toNat ≤ offset s.nextBase va := fun hva => le_offset hbase hva (by omega)
  refine ⟨hmap.inv, ?_, ?_, ?_, ?_, ?_, ?_, ?_, ?_⟩
  · have := h.aligned
    rw [hnext]
    omega
  · rw [hnext]
    omega
  · rw [forall_mem_append, forall_mem_singleton, hnext]
    refine ⟨fun r hr => ?_, le_refl _⟩
    have := h.below r hr
    omega
  · intro va hva hva'
    rw [hnext] at hva
    exact hfree va (houtside (by omega) (by omega)) (h.free va (by omega) hva')
  · refine pairwise_append.2 ⟨h.separate.disjoint, pairwise_singleton _ _, ?_⟩
    intro r hr r' hr'
    cases mem_singleton.1 hr'
    have := h.below r hr
    exact .inl (by dsimp only; omega)
  · exact forall_mem_append.2 ⟨h.separate.inside, forall_mem_singleton.2 ⟨hbase, hend⟩⟩
  · rw [forall_mem_append, forall_mem_singleton]
    refine ⟨fun r hr va hva hva' => ?_, fun va hva hva' => ?_⟩
    · have := h.below r hr
      have := (h.separate.inside r hr).1
      have : r.vaddr.toNat ≤ r.stop := Nat.le_add_right _ _
      exact hfree va (houtside (by omega) (by omega)) (h.separate.guarded r hr va hva hva')
    · -- the page behind the new range
      simp only [Range.stop] at hva hva'
      refine hfree va (houtside (by omega) (by omega)) ?_
      rcases hend.lt_or_eq with hin' | hat
      · have := h.aligned
        exact h.free va (by omega) (by unfold windowEnd at *; omega)
      · exact hbehind hat va (by omega) (by omega)
  · rw [forall_mem_append, forall_mem_singleton]
    refine ⟨fun r hr va hva => ?_, fun va hva => ?_⟩
    · -- an older range ends below `next_base_`, and nothing changes there
      have hbelow := h.below r hr
      have hinside := h.separate.inside r hr
      unfold Range.stop at hbelow hinside
      have hva' : va.toNat = r.vaddr.toNat + (va - r.vaddr).toNat := by
        rw [BitVec.toNat_sub] at hva ⊢
        omega
      rw [hmap.outside (houtside (by omega) (by omega))]
      exact h.separate.translates r hr va hva
    · refine hmap.inside ?_ hva
      unfold windowEnd windowBase at *
      omega

/-- A request that fits is refused, or mapped behind the ranges so far; the loops never come upon a page. -/
theorem yields_mapPages (hmask : mask = lowMask bits) (hbits : bits ≤ 64)
    (hE : Tolerates (fun e => ¬ IsOverwrapping e) allocPages) (h : HeapInv A mask pml4 rs s) (hc : c.Ok)
    (hf : Fits mask pml4 bits s c) :
    Yields (fun e => ¬ IsOverwrapping e) (mapPages allocPages mask pml4 c) s fun v s' =>
      HeapInv A mask pml4 (rs ++ [⟨v, c.paddr, c.numOfPages.toNat⟩]) s' := by
  unfold mapPages
  refine yields_get_bind ?_
  split
  · rintro ⟨_, hl⟩
    unfold overwrapping at hl
    split at hl <;> simp at hl
  · rename_i hcheck
    rw [check_iff hc hf.noWrap h.base, not_lt] at hcheck
    have hpages := toNat_pages hc
    have hbase := h.base
    have hR : RangeOk mask s.nextBase c.paddr c.numOfPages.toNat := by
      refine ⟨h.aligned, hc.aligned, ?_, bits, hbits, hmask, hf.phys⟩
      unfold windowBase windowEnd at *
      omega
    have hover : ∀ k < pageCount (c.numOfPages <<< kPageSizeExponent),
        Unmapped mask pml4 s.world.mem (pageAddr s.nextBase k) := by
      intro k hk
      have hva : (pageAddr s.nextBase k).toNat = s.nextBase.toNat + 4096 * k := by
        rw [toNat_pageAddr, pos]
        unfold windowEnd at hcheck
        omega
      exact h.free _ (by omega) (by omega)
    refine yields_set_bind ?_
    refine (yields_onWorld ?_).bind
    have hy : Yields _ (createPageMapping allocPages mask c.pageAttr false pml4 s.nextBase c.paddr _) s.world _ :=
      yields_createPageMapping h.tree hc.attr hE (.inr hover)
    refine ((yields_self fun e w' => hy.of_error).mono fun _ w' hrun => ?_)
    refine h.next hc hcheck (mapInv_createPageMapping h.tree hc.attr (by rw [toNat_byteSize hc]; omega) hR hrun) ?_
      hf.behind
    intro va hva hnone
    exact leaf_createPageMapping h.tree hc.attr hrun (by rw [hpages]; exact hva) hnone

/-! ## Runs -/

/-- The kernel's heap before the first call. -/
structure Start (A : Pool σ) (mask pml4 : Word) (s : KernelVirtualHeapAllocator σ) : Prop where
  tree : TreeInv A mask pml4 s.world
  next : s.nextBase = kKernelHeapBaseAddr
  window : ∀ va : Word, windowBase ≤ va.toNat → va.toNat < windowEnd → Unmapped mask pml4 s.world.mem va

theorem Start.heapInv (h : Start A mask pml4 s) : HeapInv A mask pml4 [] s := by
  have hnext : s.nextBase.toNat = windowBase := by
    rw [h.next]
    rfl
  refine ⟨h.tree, by rw [hnext]; rfl, by omega, ?_, fun va hva => h.window va (by omega), List.Pairwise.nil, ?_, ?_,
    ?_⟩ <;>
    · intro r hr
      cases hr

theorem Runs.heapInv {s0 : KernelVirtualHeapAllocator σ} (hmask : mask = lowMask bits)
    (hbits : bits ≤ 64) (hE : Tolerates (fun e => ¬ IsOverwrapping e) allocPages) (h0 : HeapInv A mask pml4 [] s0)
    (hr : Runs allocPages mask pml4 bits s0 rs s) : HeapInv A mask pml4 rs s := by
  induction hr with
  | start => exact h0
  | call _ hc hf hrun ih => exact (yields_mapPages hmask hbits hE ih hc hf).of_ok hrun

/-- In every run whose calls all fit, the returned ranges are separate in each state that is reached, and no further
call that fits comes upon a page. -/
theorem mapPages_separate {s0 : KernelVirtualHeapAllocator σ} (hmask : mask = lowMask bits)
    (hbits : bits ≤ 64) (hno : ∀ {w e w'}, (allocPages 1#64).run w = .error e w' → ¬ IsOverwrapping e)
    (h0 : Start A mask pml4 s0) (hr : Runs allocPages mask pml4 bits s0 rs s) :
    Separate mask pml4 s.world.mem rs ∧ ∀ c : Request, c.Ok → Fits mask pml4 bits s c →
      ∀ e s', (mapPages allocPages mask pml4 c).run s = .error e s' → ¬ IsOverwrapping e := by
  have hE : Tolerates (fun e => ¬ IsOverwrapping e) allocPages := ⟨by rintro expr ⟨l, ⟨⟩⟩, hno⟩
  have h := hr.heapInv hmask hbits hE h0.heapInv
  refine ⟨h.separate, fun c hc hf e s' hrun => ?_⟩
  exact (yields_mapPages hmask hbits hE h hc hf).of_error hrun

end

/-! ## A heap to start from -/

/-- A heap over an empty tree, with `n` pages for tables. -/
def freshHeap (n : Nat) : KernelVirtualHeapAllocator (List Word) :=
  ⟨kKernelHeapBaseAddr, WriteBack.Memory.ofInit fun _ => 0#64, (List.range n).map (pageAddr 0x2000#64)⟩

theorem toNat_freshHeap (hn : n < 2 ^ 20) {p : Word} (hp : p ∈ (freshHeap n).world.alloc) :
    ∃ i < n, p.toNat = 0x2000 + 4096 * i :=
  toNat_of_mem_pagesFrom (p := 0x2000#64) (by norm_num; omega) hp

theorem freshHeap_unmapped (n : Nat) (va : Word) : Unmapped (lowMask 36) 0x1000#64 (freshHeap n).world.mem va :=
  leaf_absent (by simp [freshHeap, isPresent])

theorem freshHeap_start (hn : n < 2 ^ 20) : Start pageList (lowMask 36) 0x1000#64 (freshHeap n) := by
  refine ⟨treeInv_empty (by decide) (nodup_pagesFrom (p := 0x2000#64) (by norm_num; omega)) ?_ ?_, rfl,
    fun va _ _ => freshHeap_unmapped n va⟩
  all_goals
    intro p hp
    obtain ⟨_, -, hpi⟩ := toNat_freshHeap hn hp
    rw [hpi]
  · omega
  · norm_num
    omega

theorem freshHeap_holds (hn : n < 2 ^ 20) : ∀ p ∈ (freshHeap n).world.alloc, canHoldTable (lowMask 36) p = true := by
  intro p hp
  obtain ⟨i, hi, hpi⟩ := toNat_freshHeap hn hp
  exact canHoldTable_of_lt (by omega) (by omega)

/-- One page, mapped at the beginning of the window, and two pages behind it. -/
def firstPage : Request := ⟨0x200000#64, 1#64, 3#64⟩
def nextPages : Request := ⟨0x300000#64, 2#64, 3#64⟩

/-- The memory once the first page is mapped. -/
def firstMapped : World (List Word) :=
  final ((createPageMapping allocFromList (lowMask 36) 3#64 false 0x1000#64 kKernelHeapBaseAddr 0x200000#64
    0x1000#64).run (freshHeap 3).world)

theorem mapPages_separate_twoCalls :
    ∃ s s', (mapPages allocFromList (lowMask 36) 0x1000#64 firstPage).run (freshHeap 3) =
      .ok kKernelHeapBaseAddr s ∧
    (mapPages allocFromList (lowMask 36) 0x1000#64 nextPages).run s = .ok (kKernelHeapBaseAddr + 0x2000#64) s' ∧
    Separate (lowMask 36) 0x1000#64 s'.world.mem
      [⟨kKernelHeapBaseAddr, 0x200000#64, 1⟩, ⟨kKernelHeapBaseAddr + 0x2000#64, 0x300000#64, 2⟩] := by
  have hmap1 : _ = EStateM.Result.ok () firstMapped := eq_final_of_returned (by decide +kernel)
  have hrun1 := run_mapPages (s := freshHeap 3) (c := firstPage) (by decide) (by decide) hmap1
  have hrun2 := run_mapPages (s := ⟨kKernelHeapBaseAddr + 0x2000#64, firstMapped⟩) (c := nextPages)
    (by decide) (by decide)
    (eq_final_of_returned (r := (createPageMapping allocFromList (lowMask 36) 3#64 false 0x1000#64
      (kKernelHeapBaseAddr + 0x2000#64) 0x300000#64 0x2000#64).run firstMapped) (by decide +kernel))
  have hok1 : firstPage.Ok := ⟨by decide, by decide, by decide, by decide, by decide⟩
  have hok2 : nextPages.Ok := ⟨by decide, by decide, by decide, by decide, by decide⟩
  have hfits1 : Fits (lowMask 36) 0x1000#64 36 (freshHeap 3) firstPage :=
    ⟨by decide, by decide, fun h => absurd h (by decide)⟩
  have hfits2 : Fits (lowMask 36) 0x1000#64 36 ⟨kKernelHeapBaseAddr + 0x2000#64, firstMapped⟩ nextPages :=
    ⟨by decide, by decide, fun h => absurd h (by decide)⟩
  exact ⟨_, _, hrun1, hrun2, (mapPages_separate rfl (by norm_num) allocFromList_not_overwrapping
    (freshHeap_start (by norm_num)) (.call (.call .start hok1 hfits1 hrun1) hok2 hfits2 hrun2)).1⟩

/-! ## The check after the sum has wrapped -/

/-- All pages up to one before `0xFFFFFFFFC0000000`. -/
def threeQuarters : Request := ⟨0#64, 0x2FFFF#64, 3#64⟩

/-- As many pages as there are from `0xFFFFFFFFC0000000` to the end of the address space. -/
def oneGigabyte : Request := ⟨0x40000000#64, 0x40000#64, 3#64⟩

/-- The call for a free range at the end of the address space, with pages for all the tables below its PML4 entry. -/
theorem map_free {w : World (List Word)} {attr vaddr paddr byteSize : Word}
    (h : TreeInv pageList (lowMask 36) 0x1000#64 w)
    (ha : AttrOk attr) (hv : vaddr.toNat % 4096 = 0) (hp : paddr.toNat % 4096 = 0) (hidx : addr2index 3 vaddr = 511)
    (hfree : ∀ k < pageCount byteSize, Unmapped (lowMask 36) 0x1000#64 w.mem (pageAddr vaddr k))
    (hn : n + tablesPerPml4e ≤ w.alloc.length) (hcan : ∀ p ∈ w.alloc, canHoldTable (lowMask 36) p = true) :
    ∃ w', (createPageMapping allocFromList (lowMask 36) attr false 0x1000#64 vaddr paddr byteSize).run w = .ok () w' ∧
      n ≤ w'.alloc.length ∧ (∀ p ∈ w'.alloc, canHoldTable (lowMask 36) p = true) ∧
      TreeInv pageList (lowMask 36) 0x1000#64 w' := by
  have hbudget : n + (kNumOfEntries - addr2index 3 vaddr) * tablesPerPml4e ≤ w.alloc.length := by
    rw [hidx, show kNumOfEntries - 511 = 1 from rfl, one_mul]
    exact hn
  obtain ⟨w', hrun, hlen, hcan'⟩ := createPageMapping_returns (b := false) (allocFromList_supplies (lowMask 36))
    h ha hv hp hfree ⟨hbudget, hcan⟩
  exact ⟨w', hrun, hlen, hcan', (marked_createPageMapping h ha hrun).1⟩

/-- The second of two requests is served from the window's last quarter, and reaches up to the end of the address
space. -/
theorem mapPages_leaves_window : threeQuarters.Ok ∧ oneGigabyte.Ok ∧
    ∃ s0 s1 s2, Start pageList (lowMask 36) 0x1000#64 s0 ∧
      (mapPages allocFromList (lowMask 36) 0x1000#64 threeQuarters).run s0 = .ok kKernelHeapBaseAddr s1 ∧
      (mapPages allocFromList (lowMask 36) 0x1000#64 oneGigabyte).run s1 = .ok 0xFFFFFFFFC0000000#64 s2 ∧
      windowEnd < (0xFFFFFFFFC0000000#64).toNat + 4096 * oneGigabyte.numOfPages.toNat := by
  have hok1 : threeQuarters.Ok := ⟨by decide, by decide, by decide, by decide, by decide⟩
  have hok2 : oneGigabyte.Ok := ⟨by decide, by decide, by decide, by decide, by decide⟩
  have hn : 2 * tablesPerPml4e < 2 ^ 20 := by decide
  have h0 := freshHeap_start hn
  obtain ⟨w1, hw1, hlen1, hcan1, htree1⟩ := map_free (n := tablesPerPml4e) h0.tree hok1.attr
    (show kKernelHeapBaseAddr.toNat % 4096 = 0 by decide) hok1.aligned (by decide)
    (fun k _ => freshHeap_unmapped _ _) (by simp [freshHeap, two_mul]) (freshHeap_holds hn)
  have hrun1 := run_mapPages (s := freshHeap (2 * tablesPerPml4e)) (c := threeQuarters) (by decide) (by decide) hw1
  have hfree2 : ∀ k < pageCount (oneGigabyte.numOfPages <<< kPageSizeExponent),
      Unmapped (lowMask 36) 0x1000#64 w1.mem (pageAddr 0xFFFFFFFFC0000000#64 k) := by
    intro k hk
    have hk' : k < 0x40000 := hk
    have hva : (pageAddr 0xFFFFFFFFC0000000#64 k).toNat = 0xFFFFFFFFC0000000 + 4096 * k := by
      rw [toNat_pageAddr, pos]
      norm_num
      omega
    refine leaf_createPageMapping h0.tree hok1.attr hw1 ?_ (freshHeap_unmapped _ _)
    rw [toNat_pages hok1]
    refine le_offset (le_refl _) ?_ (by decide) (.inr ?_)
    · rw [hva]
      unfold windowBase
      omega
    · rw [hva, show threeQuarters.numOfPages.toNat = 0x2FFFF from rfl, show kKernelHeapBaseAddr.toNat =
        windowBase from rfl]
      unfold windowBase
      omega
  obtain ⟨w2, hw2, -⟩ := map_free (n := 0) htree1 hok2.attr (by decide) hok2.aligned (by decide) hfree2 (by omega) hcan1
  have hend : 0xFFFFFFFFC0000000#64 + oneGigabyte.numOfPages <<< kPageSizeExponent ≤ kKernelHeapBaseAddr +
      kKernelHeapSize := by
    decide
  exact ⟨hok1, hok2, _, _, _, h0, hrun1, run_mapPages (c := oneGigabyte) (by decide) hend hw2, by decide⟩

end Liumos.Heap
