/-
Creating a persistent process is not atomic under crashes. `LoadELFAndCreatePersistentProcess` makes the context of
the new process the valid one before it has written anything to it: from then on a crash leaves a process that
`pmem restore` finds and that is not the new one. Sources: elf.cc (`LoadELFAndCreatePersistentProcess`), command.cc
(`pmem restore`). What is printed is left out.
-/
import Liumos.Dram.Strategy
import Liumos.Elf.Faithful
import Liumos.Pmem.Crash
import Liumos.Process.Persistent

namespace Liumos.Elf

open WriteBack Process Paging Pmem PersistentProcessInfo ExecutionContext ProcessMappingInfo SegmentMapping
open PersistentMemoryManager (lastPersistentProcessInfoAddr)
open Memory (ofInit load_flush before_flush before_store)

section

variable {σ : Type}

/-! ## Creation -/

def kUserStackBaseAddr : Word := 0xBEEF0000#64
def kNumOfStackPages : Word := 32#64
def kUserCS64Selector : Word := 5#64 <<< 3 ||| 3#64
def kUserDSSelector : Word := 4#64 <<< 3 ||| 3#64
def kRFlagsInterruptEnable : Word := 1#64 <<< 9

/-- `LoadELFAndCreatePersistentProcess` from `assert(ehdr)` on. -/
def createParsed (k : Kernel σ) (name buf pmem ppInfo userPageTable : Word) : Except String PhdrMappingInfo → WM σ Nat
  | .error _ => throw (.assertFailed "ehdr")
  | .ok phdrMapInfo => do
    let ctx := ctxAddr ppInfo.toNat 0
    let mapInfo := codeAddr ctx
    let allocPages := PersistentMemoryManager.allocPages pmem
    set (stack mapInfo) kUserStackBaseAddr 0#64 (kNumOfStackPages <<< kPageSizeExponent)
    allocSegmentFromPersistentMemory pmem k.param (code mapInfo)
    allocSegmentFromPersistentMemory pmem k.param (data mapInfo)
    allocSegmentFromPersistentMemory pmem k.param (stack mapInfo)
    loadAndMap allocPages k.mask userPageTable mapInfo phdrMapInfo kPageAttrUser true
    let entryPoint ← read eEntry buf
    let stackPointer ← getVirtEndAddr (stack mapInfo)
    setRegisters ctx entryPoint kUserCS64Selector stackPointer kUserDSSelector userPageTable
      kRFlagsInterruptEnable 0#64
    let workingCtx := ctxAddr ppInfo.toNat 1
    assign workingCtx ctx
    let workingCtxMap := codeAddr workingCtx
    allocSegmentFromPersistentMemory pmem k.param (data workingCtxMap)
    allocSegmentFromPersistentMemory pmem k.param (stack workingCtxMap)
    let pt ← allocPageTable allocPages
    map allocPages k.mask (code workingCtxMap) pt kPageAttrUser true
    map allocPages k.mask (data workingCtxMap) pt (kPageAttrUser ||| kPageAttrWritable) true
    map allocPages k.mask (stack workingCtxMap) pt (kPageAttrUser ||| kPageAttrWritable) true
    store (cr3Addr workingCtx) pt
    k.restoreFromPersistentProcessInfo name ppInfo.toNat

/-- `LoadELFAndCreatePersistentProcess(file, pmem)` for a file at `buf`. -/
def loadELFAndCreatePersistentProcess (k : Kernel σ) (name buf pmem : Word) : WM σ Nat := do
  let ppInfo ← PersistentMemoryManager.allocPersistentProcessInfo pmem
  init ppInfo.toNat
  setValidContextIndex ppInfo.toNat 0
  let userPageTable ← allocPageTable (PersistentMemoryManager.allocPages pmem)
  let ehdr ← parseProgramHeader buf (codeAddr (ctxAddr ppInfo.toNat 0))
  createParsed k name buf pmem ppInfo userPageTable ehdr

/-! ## What a crash must leave -/

/-- In `m`, the context at `ctx` is that of a new process for the file at `buf` of `m0`: its segments are those of the
program headers and the stack, its page table maps them, and it is about to enter the program. -/
structure IsNewProcess (mask : Word) (m0 : Mem) (buf : Word) (m : Mem) (ctx : Nat) : Prop where
  loads : ∀ i, IsLoad m0 buf i → ∃ paddr, SegmentIs m (slot (codeAddr ctx) (isExec m0 (phdrAddr m0 buf i)))
    { segmentOf m0 (phdrAddr m0 buf i) with paddr := paddr }
  empty : ∀ x, (∀ i, IsLoad m0 buf i → isExec m0 (phdrAddr m0 buf i) ≠ x) →
    ∃ paddr, SegmentIs m (slot (codeAddr ctx) x) ⟨0#64, paddr, 0#64⟩
  stack : ∃ paddr, SegmentIs m (stackAddr ctx)
    ⟨kUserStackBaseAddr, paddr, kNumOfStackPages <<< kPageSizeExponent⟩
  heap : SegmentIs m (heapAddr ctx) ⟨0#64, 0#64, 0#64⟩
  mapped : ∀ a ∈ [codeAddr ctx, dataAddr ctx, stackAddr ctx], ∀ s,
    SegmentIs m a s → ∀ va : Word, (va - s.vaddr).toNat < s.mapSize.toNat →
      v2p mask m 3 (m.load (cr3Addr ctx)) va = s.paddr + (va - s.vaddr)
  rip : m.load (intCtxAddr ctx) = eEntry m0 buf
  cs : m.load (intCtxAddr ctx + 8) = kUserCS64Selector
  rflags : m.load (intCtxAddr ctx + 16) = kRFlagsInterruptEnable ||| 2#64
  rsp : m.load (intCtxAddr ctx + 24) = kUserStackBaseAddr + (kNumOfStackPages <<< kPageSizeExponent)
  ss : m.load (intCtxAddr ctx + 32) = kUserDSSelector

/-- `pmem restore` on the image `f` finds a process info, and the context at `ctx` as its valid one. That the info has
its signature is printed and not checked. -/
def Restores (pmem : Word) (f : Nat → Word) (ctx : Nat) : Prop :=
  f (lastPersistentProcessInfoAddr pmem) ≠ 0#64 ∧
    (getValidContext (f (lastPersistentProcessInfoAddr pmem)).toNat).run
      (⟨Memory.ofInit f, ()⟩ : World Unit) = .ok ctx ⟨Memory.ofInit f, ()⟩

/-- After a crash at any point of the call, and for every loss of stores that no flush covers, `pmem restore` finds
nothing or the process that the call creates. -/
def CrashAtomic (k : Kernel σ) (name buf pmem : Word) (w : World σ) : Prop :=
  ∀ c, w.mem.Before c → c.Before (final ((loadELFAndCreatePersistentProcess k name buf pmem).run w)).mem → ∀ f,
    Image line c f → ∀ ctx, Restores pmem f ctx →
      returned ((loadELFAndCreatePersistentProcess k name buf pmem).run w) = true ∧
        IsNewProcess k.mask w.mem buf (Memory.ofInit f) ctx

/-! ## Every part adds to the history -/

instance (f : Mem → Word → Word) (p : Word) : Grows (read f p : WM σ Word) := by
  unfold read
  infer_instance

instance (buf : Word) : Grows (ensureLoadable buf : WM σ (Option String)) := by
  unfold ensureLoadable
  repeat
    refine .step fun _ => ?_
    split_ifs
    · infer_instance
  infer_instance

instance grows_parseLoop (buf : Word) (procMapInfo : Nat) :
    ∀ n i info, Grows (parseLoop buf procMapInfo n i info : WM σ PhdrMappingInfo)
  | 0, i, info => by unfold parseLoop; infer_instance
  | n + 1, i, info => by
    have := grows_parseLoop buf procMapInfo n (i + 1)
    unfold parseLoop
    repeat refine .step fun _ => ?_
    split_ifs
    · infer_instance
    · repeat refine .step fun _ => ?_
      infer_instance

instance (buf : Word) (procMapInfo : Nat) :
    Grows (parseProgramHeader buf procMapInfo : WM σ (Except String PhdrMappingInfo)) := by
  unfold parseProgramHeader
  repeat refine .step fun _ => ?_
  split
  · infer_instance
  · infer_instance

section

variable (allocPages : Word → WM σ Word) [∀ n, Grows (allocPages n)] (mask root : Word)

instance (segMap : Nat) (info : PhdrInfo) (attr : Word) (shouldClflush : Bool) :
    Grows (loadAndMapSegment allocPages mask root segMap info attr shouldClflush) := by
  unfold loadAndMapSegment
  repeat refine .step fun _ => ?_
  infer_instance

instance (procMapInfo : Nat) (info : PhdrMappingInfo) (attr : Word) (shouldClflush : Bool) :
    Grows (loadAndMap allocPages mask root procMapInfo info attr shouldClflush) := by
  unfold loadAndMap
  infer_instance

end

instance (k : Kernel σ) (name buf pmem ppInfo userPageTable : Word) :
    ∀ ehdr, Grows (createParsed k name buf pmem ppInfo userPageTable ehdr)
  | .error _ => inferInstanceAs (Grows (throw _))
  | .ok info => by
    unfold createParsed getVirtEndAddr assign
    repeat refine .step fun _ => ?_
    infer_instance

/-! ## The context is valid too early -/

variable {r : Region} {os : List Obj} {m : Mem}

/-- The process info of the call is the last one, and its first context the valid one. -/
structure Begun (r : Region) (os : List Obj) (m : Mem) : Prop where
  last : m.load (lastPersistentProcessInfoAddr r.self) = (newObj r os infoPages).base
  valid : low32 (m.load (validCtxIdxAddr (newObj r os infoPages).base.toNat)) = 0#32

theorem Begun.congr {m' : Mem} (h : Begun r os m) (hlast : m'.load (lastPersistentProcessInfoAddr r.self) =
      m.load (lastPersistentProcessInfoAddr r.self))
    (hvalid : m'.load (validCtxIdxAddr (newObj r os infoPages).base.toNat) =
      m.load (validCtxIdxAddr (newObj r os infoPages).base.toNat)) : Begun r os m' :=
  ⟨hlast.trans h.last, by rw [hvalid]; exact h.valid⟩

/-- When nothing is lost, `pmem restore` finds that context. -/
theorem Begun.restores (h : Begun r os m) (hroom : HasRoom r os infoPages) :
    Restores r.self m.load (ctxAddr (newObj r os infoPages).base.toNat 0) := by
  refine ⟨?_, ?_⟩
  · rw [h.last]
    intro h0
    have := toNat_newObj hroom
    rw [h0] at this
    simp only [BitVec.toNat_ofNat] at this
    omega
  · rw [h.last]
    have hidx : (validCtxIdx (newObj r os infoPages).base.toNat).run (⟨ofInit m.load, ()⟩ : World Unit) =
        .ok 0 ⟨ofInit m.load, ()⟩ := by
      show EStateM.Result.ok (low32 (m.load _)).toInt _ = _
      rw [h.valid]
      rfl
    unfold getValidContext
    rw [run_bind_eq hidx]
    rfl

/-- Memory after `SetValidContextIndex(idx)`. -/
def validMem (m : Mem) (info : Nat) (idx : Int) : Mem :=
  (m.store (validCtxIdxAddr info)
    (setLow32 (m.load (validCtxIdxAddr info)) (BitVec.ofInt 32 idx))).flush
    (validCtxIdxAddr info)

/-- Memory after `Init` of a process info. -/
def initInfoMem (m : Mem) (info : Nat) : Mem :=
  ((validMem m info kNumOfExecutionContext).store (signatureAddr info)
    kSignature).flush (signatureAddr info)

/-- Memory after `SetValidContextIndex(0)` of the call. -/
def startMem (r : Region) (m : Mem) (os : List Obj) : Mem :=
  validMem (initInfoMem (allocInfoMem r m os) (newObj r os infoPages).base.toNat) (newObj r os infoPages).base.toNat 0

section

variable (k : Kernel σ) (name buf : Word) {w : World σ}

/-- The call up to the point where its context is valid. -/
theorem run_start (h : Inv r w.mem os) (hroom : HasRoom r os infoPages) :
    (loadELFAndCreatePersistentProcess k name buf r.self).run w =
      (allocPageTable (PersistentMemoryManager.allocPages r.self) >>= fun userPageTable =>
        parseProgramHeader buf (codeAddr (ctxAddr (newObj r os infoPages).base.toNat 0)) >>=
          createParsed k name buf r.self (newObj r os infoPages).base userPageTable).run
            { w with mem := startMem r w.mem os } := by
  have hinit : ∀ w : World σ, (init (newObj r os infoPages).base.toNat).run w =
      .ok () { w with mem := initInfoMem w.mem (newObj r os infoPages).base.toNat } := fun _ => rfl
  have hset : ∀ w : World σ, (setValidContextIndex (newObj r os infoPages).base.toNat 0).run w =
      .ok () { w with mem := validMem w.mem (newObj r os infoPages).base.toNat 0 } := fun _ => rfl
  unfold loadELFAndCreatePersistentProcess
  rw [run_bind_eq (run_allocPersistentProcessInfo h hroom), run_bind_eq (hinit _), run_bind_eq (hset _)]
  rfl

end

theorem load_validMem_ne {info x : Nat} (hx : x ≠ validCtxIdxAddr info) (idx : Int) :
    (validMem m info idx).load x = m.load x := by
  rw [validMem, load_flush, Memory.load_store_ne _ _ hx]

theorem load_initInfoMem_ne {info x : Nat} (hx : x ≠ validCtxIdxAddr info)
    (hx' : x ≠ signatureAddr info) : (initInfoMem m info).load x = m.load x := by
  rw [initInfoMem, load_flush, Memory.load_store_ne _ _ hx', load_validMem_ne hx]

theorem before_startMem (r : Region) (m : Mem) (os : List Obj) : (allocInfoMem r m os).Before (startMem r m os) := by
  unfold startMem initInfoMem validMem
  refine .trans ?_ (before_flush ..)
  refine .trans ?_ (before_store ..)
  refine .trans ?_ (before_flush ..)
  refine .trans ?_ (before_store ..)
  refine .trans ?_ (before_flush ..)
  exact before_store ..

/-- The process info lies behind the manager and in one page. -/
theorem info_toNat (hroom : HasRoom r os infoPages) (hl : Layout r os) :
    r.self.toNat + 4096 ≤ (newObj r os infoPages).base.toNat ∧
      (newObj r os infoPages).stop = (newObj r os infoPages).base.toNat + 4096 := by
  have hpages : infoPages.toNat = 1 := by decide
  have := (layout_newObj hl hroom).older _ List.mem_cons_self
  refine ⟨this.2.1, ?_⟩
  rw [Obj.stop, numOfPages_newObj, hpages]

theorem begun_startMem (hl : Layout r os) (hroom : HasRoom r os infoPages) (m : Mem) :
    Begun r os (startMem r m os) := by
  obtain ⟨hbehind, -⟩ := info_toNat hroom hl
  have hne : ∀ x, x < (newObj r os infoPages).base.toNat → x ≠ validCtxIdxAddr (newObj r os infoPages).base.toNat ∧
        x ≠ signatureAddr (newObj r os infoPages).base.toNat := by
    intro x hx
    unfold validCtxIdxAddr signatureAddr
    omega
  obtain ⟨h1, h2⟩ := hne (lastPersistentProcessInfoAddr r.self) (by unfold lastPersistentProcessInfoAddr; omega)
  refine ⟨?_, ?_⟩
  · rw [startMem, load_validMem_ne h1, load_initInfoMem_ne h1 h2, load_last_allocInfoMem]
  · rw [startMem, validMem, load_flush, Memory.load_store_self, low32_setLow32]
    rfl

/-- The allocator's words stay as they are under stores to the process info. -/
theorem inv_startMem (h : Inv r m os) (hroom : HasRoom r os infoPages) :
    Inv r (startMem r m os) (newObj r os infoPages :: os) := by
  obtain ⟨hinv, -⟩ := h.allocInfo hroom
  obtain ⟨-, hstop⟩ := info_toNat hroom h.layout
  have hnot : ∀ i < 4096, ¬ Uses r (newObj r os infoPages :: os) ((newObj r os infoPages).base.toNat + i) := fun i hi =>
    hinv.layout.object_not_uses List.mem_cons_self (Nat.le_add_right ..) (by omega)
  exact ((((hinv.store (hnot 1584 (by omega)) _).flush _).store (hnot 1592 (by omega)) _).flush _ |>.store
    (hnot 1584 (by omega)) _).flush _

/-- The page table is a new object. -/
theorem Begun.allocPageTable {w w' : World σ} {table : Word} (h : Begun r os w.mem)
    (hinv : Inv r w.mem (newObj r os infoPages :: os))
    (hstop : (newObj r os infoPages).stop = (newObj r os infoPages).base.toNat + 4096)
    (hrun : (Paging.allocPageTable (PersistentMemoryManager.allocPages r.self)).run w = .ok table w') :
    Begun r os w'.mem := by
  unfold Paging.allocPageTable at hrun
  obtain ⟨pml4, w1, halloc, hrun⟩ := run_bind_ok hrun
  obtain ⟨-, hrun⟩ := of_run_assert_bind hrun
  obtain ⟨_, w2, hclear, hrun⟩ := run_bind_ok hrun
  obtain ⟨rfl, rfl⟩ := run_pure_ok hrun
  by_cases hroom : HasRoom r (newObj r os infoPages :: os) 1#64
  · rw [run_allocPages hinv (by decide) hroom] at halloc
    obtain ⟨rfl, rfl⟩ := EStateM.Result.ok.inj halloc
    have hlay := layout_newObj hinv.layout hroom
    obtain ⟨-, hbehind, hinfo⟩ := hinv.layout.older _ List.mem_cons_self
    have hbase := hlay.1
    -- what lies before the table and is none of the allocator's words keeps its value
    have hkeep : ∀ x, ¬ Uses r (newObj r (newObj r os infoPages :: os) 1#64 :: newObj r os infoPages :: os) x →
        x < 4096 * frontier r (newObj r os infoPages :: os) → w2.mem.load x = w.mem.load x := by
      intro x hx hlt
      rw [run_clearMapping_ok hclear, load_cleared_ne (by omega) (by omega), load_allocMem hx]
    refine h.congr (hkeep _ hlay.last_not_uses ?_)
      (hkeep _ (hlay.object_not_uses (List.mem_cons_of_mem _ List.mem_cons_self) ?_ ?_) ?_)
    · unfold lastPersistentProcessInfoAddr
      omega
    · exact Nat.le_add_right ..
    · unfold validCtxIdxAddr
      omega
    · unfold validCtxIdxAddr
      omega
  · rw [run_allocPages_full hinv (by decide) hroom] at halloc
    cases halloc

/-- `ParseProgramHeader` first clears the segments of the context that is valid. -/
theorem Begun.clear {w w' : World σ} {u : Unit} (h : Begun r os w.mem) (hl : Layout r os)
    (hroom : HasRoom r os infoPages)
    (hrun : (ProcessMappingInfo.clear (codeAddr (ctxAddr (newObj r os infoPages).base.toNat 0))).run w = .ok u w') :
    Begun r os w'.mem ∧ SegmentIs w'.mem (stackAddr (ctxAddr (newObj r os infoPages).base.toNat 0))
      ⟨0#64, 0#64, 0#64⟩ := by
  obtain ⟨hbehind, -⟩ := info_toNat hroom hl
  have hyields : Yields (fun _ => True) (ProcessMappingInfo.clear (codeAddr (ctxAddr
      (newObj r os infoPages).base.toNat 0))) w fun _ w' => Begun r os w'.mem ∧ SegmentIs w'.mem (stackAddr
      (ctxAddr (newObj r os infoPages).base.toNat 0)) ⟨0#64, 0#64, 0#64⟩ :=
    yields_clearInfo fun m' hseg hframe => ⟨h.congr (hframe _ (.inl ?_)) (hframe _ (.inr ?_)), hseg 2 (by omega)⟩
  · exact hyields.of_ok hrun
  · unfold lastPersistentProcessInfoAddr codeAddr ctxAddr
    omega
  · unfold validCtxIdxAddr codeAddr ctxAddr ProcessMappingInfo.size
    omega

section

variable (k : Kernel σ) (name buf : Word) {w : World σ}

/-- The point at which the context is valid, with nothing written to it yet. -/
theorem before_start (h : Inv r w.mem os) (hroom : HasRoom r os infoPages) : w.mem.Before (startMem r w.mem os) ∧
    (startMem r w.mem os).Before (final ((loadELFAndCreatePersistentProcess k name buf r.self).run w)).mem := by
  refine ⟨.trans (Grows.of_ok (run_allocPersistentProcessInfo h hroom)) (before_startMem ..), ?_⟩
  rw [run_start k name buf h hroom]
  exact Grows.before ({ w with mem := startMem r w.mem os } : World σ)

theorem IsNewProcess.not_clear {mask : Word} {m0 m : Mem} {ctx : Nat} (h : IsNewProcess mask m0 buf m ctx)
    (hs : SegmentIs m (stackAddr ctx) ⟨0#64, 0#64, 0#64⟩) : False := by
  obtain ⟨_, hstack⟩ := h.stack
  have hsize : kNumOfStackPages <<< kPageSizeExponent = 0#64 := hstack.mapSize.symm.trans hs.mapSize
  exact absurd hsize (by decide)

/-- A call that returns goes through a point where the valid context is cleared. -/
theorem exists_cleared {proc : Nat} {w' : World σ} (h : Inv r w.mem os) (hroom : HasRoom r os infoPages)
    (hrun : (loadELFAndCreatePersistentProcess k name buf r.self).run w = .ok proc w') :
    ∃ c, (startMem r w.mem os).Before c ∧ c.Before w'.mem ∧ Begun r os c ∧
      SegmentIs c (stackAddr (ctxAddr (newObj r os infoPages).base.toNat 0)) ⟨0#64, 0#64, 0#64⟩ := by
  have hbegun := begun_startMem h.layout hroom w.mem
  have hinv := inv_startMem h hroom
  obtain ⟨-, hstop⟩ := info_toNat hroom h.layout
  rw [run_start k name buf h hroom] at hrun
  obtain ⟨_, w1, htable, hrun⟩ := run_bind_ok hrun
  obtain ⟨ehdr, w2, hparse, hrun⟩ := run_bind_ok hrun
  have hbegun1 := Begun.allocPageTable (w := { w with mem := startMem r w.mem os }) hbegun hinv hstop htable
  have hbefore1 : (startMem r w.mem os).Before w1.mem := Grows.of_ok (w := { w with mem := startMem r w.mem os }) htable
  have hafter : w2.mem.Before w'.mem := Grows.of_ok hrun
  -- the first thing that the parser does
  unfold parseProgramHeader at hparse
  obtain ⟨_, w3, hclear, hparse⟩ := run_bind_ok hparse
  obtain ⟨hbegun3, hstack⟩ := hbegun1.clear h.layout hroom hclear
  have hafter3 : w3.mem.Before w2.mem := by
    refine @Grows.of_ok _ _ _ _ _ _ ?_ hparse
    refine .step fun _ => .step fun ehdr => ?_
    split <;> infer_instance
  exact ⟨w3.mem, hbefore1.trans (Grows.of_ok hclear), hafter3.trans hafter, hbegun3, hstack⟩

/-- A call that finds room for its process info is not atomic. -/
theorem not_crashAtomic (h : Inv r w.mem os) (hroom : HasRoom r os infoPages) : ¬ CrashAtomic k name buf r.self w := by
  intro hatomic
  obtain ⟨hbefore, hpoint⟩ := before_start k name buf h hroom
  -- the context is found from the start on, so that the call has to return
  obtain ⟨hret, -⟩ := hatomic _ hbefore hpoint _ (image_load line _) _
    ((begun_startMem h.layout hroom w.mem).restores hroom)
  obtain ⟨_, _, hrun⟩ := exists_of_returned hret
  -- and on its way it clears the segments of that context
  obtain ⟨c, hc, hc', hbegun, hstack⟩ := exists_cleared k name buf h hroom hrun
  rw [CrashAtomic, hrun] at hatomic
  obtain ⟨-, hnew⟩ := hatomic c (hbefore.trans hc) hc' _ (image_load line c) _ (hbegun.restores hroom)
  exact hnew.not_clear buf ⟨hstack.vaddr, hstack.paddr, hstack.mapSize⟩

/-- Creation is atomic under crashes exactly when it fails for want of pages and there was nothing to restore before. -/
theorem loadELFAndCreatePersistentProcess_crashAtomic_iff (h : Inv r w.mem os) : CrashAtomic k name buf r.self w ↔
      ¬ HasRoom r os infoPages ∧ ∀ f, Image line w.mem f → ∀ ctx, ¬ Restores r.self f ctx := by
  constructor
  · intro hatomic
    by_cases hroom : HasRoom r os infoPages
    · exact absurd hatomic (not_crashAtomic k name buf h hroom)
    · obtain ⟨e, he⟩ := run_allocPersistentProcessInfo_full h hroom
      have hrun : (loadELFAndCreatePersistentProcess k name buf r.self).run w = .error e w := run_bind_error he
      rw [CrashAtomic, hrun] at hatomic
      refine ⟨hroom, fun f hf ctx hctx => ?_⟩
      obtain ⟨hret, -⟩ := hatomic w.mem (.refl _) (.refl _) f hf ctx hctx
      cases hret
  · rintro ⟨hroom, hnone⟩
    obtain ⟨e, he⟩ := run_allocPersistentProcessInfo_full h hroom
    have hrun : (loadELFAndCreatePersistentProcess k name buf r.self).run w = .error e w := run_bind_error he
    rw [CrashAtomic, hrun]
    intro c hc hc' f hf ctx hctx
    obtain rfl := hc.antisymm hc'
    exact absurd hctx (hnone f hf ctx)

end

end

/-! ## A crash -/

instance Dram.grows_allocLoop (domain : Dram.DomainReq) (n : Word) :
    ∀ fuel info, Grows (Dram.allocLoop domain n fuel info)
  | 0, info => by unfold Dram.allocLoop; infer_instance
  | fuel + 1, info => by
    have := grows_allocLoop domain n fuel
    have : Grows (Dram.wanted domain info) := by
      cases domain <;> unfold Dram.wanted Dram.getProximityDomain <;> infer_instance
    have : Grows (Dram.providePages info n) := by
      unfold Dram.providePages
      infer_instance
    unfold Dram.allocLoop Dram.getNext
    infer_instance

/-- A kernel whose heap is the allocator of DRAM pages. -/
def dramKernel : Kernel Word where
  mask := lowMask 39
  kernelPml4 := 0x100000#64
  straightMappingBase := Dram.straightMappingBase
  allocPages := Dram.allocPages 16
  grows := fun n => by unfold Dram.allocPages Dram.alloc; infer_instance
  lastId := 0#64
  param := 0x200000

/-- Persistent memory of eight pages right after `Init`. -/
def freshPmem : World Word := ⟨eightPagesMem, 0x300000#64⟩

theorem inv_freshPmem : Inv eightPages freshPmem.mem [] := by
  have hinit : (PersistentMemoryManager.init eightPages.self (some [.other, .spaRange true 0x1000#64 0x8000#64])).run
      (⟨ofInit fun _ => 0#64, 0x300000#64⟩ : World Word) = .ok () freshPmem := rfl
  exact init_inv hinit (by decide)

theorem loadELFAndCreatePersistentProcess_crashAtomic_iff_fresh : Inv eightPages freshPmem.mem [] ∧
    (CrashAtomic dramKernel 0x400000#64 0x500000#64 eightPages.self freshPmem ↔
      ¬ HasRoom eightPages [] infoPages ∧ ∀ f, Image line freshPmem.mem f → ∀ ctx, ¬ Restores eightPages.self f ctx) :=
  ⟨inv_freshPmem, loadELFAndCreatePersistentProcess_crashAtomic_iff dramKernel 0x400000#64 0x500000#64 inv_freshPmem⟩

/-- A crash after `SetValidContextIndex(0)` that loses nothing: the context at 0x2000 is found, and its stack is
empty. -/
theorem loadELFAndCreatePersistentProcess_crash_found : Inv eightPages freshPmem.mem [] ∧
    ∃ c f, freshPmem.mem.Before c ∧
      c.Before (final ((loadELFAndCreatePersistentProcess dramKernel 0x400000#64 0x500000#64 eightPages.self).run
        freshPmem)).mem ∧ Image line c f ∧ Restores eightPages.self f 0x2000 ∧
      ¬ IsNewProcess dramKernel.mask freshPmem.mem 0x500000#64 (Memory.ofInit f) 0x2000 := by
  have hroom : HasRoom eightPages [] infoPages := by decide
  obtain ⟨hbefore, hpoint⟩ := before_start dramKernel 0x400000#64 0x500000#64 inv_freshPmem hroom
  have hctx : ctxAddr (newObj eightPages [] infoPages).base.toNat 0 = 0x2000 := by decide +kernel
  have hrestores := (begun_startMem inv_freshPmem.layout hroom freshPmem.mem).restores hroom
  rw [hctx] at hrestores
  refine ⟨inv_freshPmem, _, _, hbefore, hpoint, image_load line _, hrestores, fun hnew => ?_⟩
  refine hnew.not_clear _ ⟨?_, ?_, ?_⟩
  · decide +kernel
  · decide +kernel
  · decide +kernel

end Liumos.Elf
