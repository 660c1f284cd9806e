/-
Loading the segments of a file: their bytes are copied to physical pages, what is left of these is
cleared, and the pages are mapped. Source: elf.cc (`LoadAndMapSegment`, `LoadAndMap`).
-/
import Liumos.Elf.ParseSpec
import Liumos.Paging.MapFrame
import Liumos.Paging.Returns

namespace Liumos.Elf

open Process Paging SegmentMapping BitVec Nat

section

variable {σ : Type} (allocPages : Word → WM σ Word) (mask pageRoot : Word)

def loadAndMapSegment (segMap : Nat) (phdrInfo : PhdrInfo) (pageAttr : Word) (shouldClflush : Bool) : WM σ Unit := do
  assert ((← getVirtAddr segMap) == phdrInfo.vaddr) "seg_map.GetVirtAddr() == phdr_info.vaddr"
  assert ((← getMapSize segMap) == phdrInfo.mapSize) "seg_map.GetMapSize() == phdr_info.map_size"
  assert ((← getPhysAddr segMap) != 0#64) "seg_map.GetPhysAddr()"
  let physBuf ← getPhysAddr segMap
  Libfunc.memcpy physBuf.toNat phdrInfo.data.toNat phdrInfo.copySize.toNat
  Libfunc.bzero (physBuf + phdrInfo.copySize).toNat (phdrInfo.mapSize - phdrInfo.copySize).toNat
  map allocPages mask segMap pageRoot pageAttr shouldClflush

def loadAndMap (procMapInfo : Nat) (phdrMapInfo : PhdrMappingInfo) (baseAttr : Word) (shouldClflush : Bool) :
    WM σ Unit := do
  let pageAttr := kPageAttrPresent ||| baseAttr
  loadAndMapSegment allocPages mask pageRoot (ProcessMappingInfo.code procMapInfo) phdrMapInfo.code
    pageAttr shouldClflush
  loadAndMapSegment allocPages mask pageRoot (ProcessMappingInfo.data procMapInfo) phdrMapInfo.data
    (pageAttr ||| kPageAttrWritable) shouldClflush
  map allocPages mask (ProcessMappingInfo.stack procMapInfo) pageRoot (pageAttr ||| kPageAttrWritable) shouldClflush
  map allocPages mask (ProcessMappingInfo.heap procMapInfo) pageRoot (pageAttr ||| kPageAttrWritable) shouldClflush

end

/-! ## Mapping a segment -/

/-- The segment's physical pages exist. -/
structure PagesOk (bits : Nat) (s : SegmentMapping) : Prop where
  pAligned : s.paddr.toNat % 4096 = 0
  phys : s.paddr.toNat + s.mapSize.toNat ≤ 2 ^ bits

/-- The segment consists of whole pages in the lower half, and its physical pages exist. -/
structure SegmentOk (bits : Nat) (s : SegmentMapping) : Prop extends PagesOk bits s where
  vAligned : s.vaddr.toNat % 4096 = 0
  whole : s.mapSize.toNat % 4096 = 0
  virt : s.vaddr.toNat + s.mapSize.toNat ≤ 2 ^ 47

/-- The address is in the physical pages of the segment. -/
def InPhys (s : SegmentMapping) (a : Nat) : Prop := s.paddr.toNat ≤ a ∧ a < s.paddr.toNat + s.mapSize.toNat

section

variable {σ : Type} {A : Pool σ} {allocPages : Word → WM σ Word} [hA : AllocOk allocPages A]
  {mask root attr : Word} {bits a : Nat} {s : SegmentMapping} {shouldClflush : Bool}

theorem SegmentOk.rangeOk (h : SegmentOk bits s) (hbits : bits < 64) :
    RangeOk (lowMask bits) s.vaddr s.paddr (s.mapSize.toNat / 4096) := by
  have := h.virt
  have := h.phys
  exact ⟨h.vAligned, h.pAligned, by omega, bits, hbits.le, rfl, by omega⟩

/-- What a step for the segment `s` does to the rest: translations outside the segment stay, and so does what lies apart
from tables and the allocator's pages, the segment's own pages excepted. -/
structure Leaves (A : Pool σ) (mask root : Word) (s : SegmentMapping) (w w' : World σ) : Prop where
  inv : TreeInv A mask root w'
  outside : ∀ va, s.mapSize.toNat ≤ offset s.vaddr va → v2p mask w'.mem 3 root va = v2p mask w.mem 3 root va
  unmapped : ∀ va, s.mapSize.toNat ≤ offset s.vaddr va → leaf mask w.mem 3 root va = none →
    leaf mask w'.mem 3 root va = none
  apart : ∀ x, Apart A mask root w x → Apart A mask root w' x
  frame : ∀ x, Apart A mask root w x → ¬ InPhys s x → w'.mem.load x = w.mem.load x

theorem Leaves.comp {w1 w2 w3 : World σ} (h : Leaves A mask root s w1 w2) (h' : Leaves A mask root s w2 w3) :
    Leaves A mask root s w1 w3 :=
  ⟨h'.inv, fun va hva => (h'.outside va hva).trans (h.outside va hva),
    fun va hva hnone => h'.unmapped va hva (h.unmapped va hva hnone), fun x hx => h'.apart x (h.apart x hx),
    fun x hx hp => (h'.frame x (h.apart x hx) hp).trans (h.frame x hx hp)⟩

/-- The whole segment is mapped to its pages, and these hold the bytes `f`. -/
structure Loaded (mask root : Word) (s : SegmentMapping) (f : Nat → BitVec 8) (w : World σ) : Prop where
  mapped : ∀ va : Word, (va - s.vaddr).toNat < s.mapSize.toNat → v2p mask w.mem 3 root va = s.paddr + (va - s.vaddr)
  bytes : ∀ k < s.mapSize.toNat, byteAt w.mem (s.paddr.toNat + k) = f k

variable {w w' : World σ} {u : Unit} {B : Nat → World σ → Prop} {n : Nat} {m' : Mem} {f : Nat → BitVec 8}
  {s' : SegmentMapping}

/-- `Map` of a segment without pages. -/
theorem run_map_null (hs : SegmentIs w.mem a s) (hp : s.paddr = 0#64) :
    (map allocPages mask a root attr shouldClflush).run w = .ok () w := by
  unfold map
  rw [run_bind_eq hs.getPhysAddr, if_pos hp]
  rfl

theorem run_map (hs : SegmentIs w.mem a s) (hp : s.paddr ≠ 0#64) :
    (map allocPages mask a root attr shouldClflush).run w =
      (createPageMapping allocPages mask (kPageAttrPresent ||| attr) shouldClflush root s.vaddr s.paddr s.mapSize).run
      w := by
  unfold map
  rw [run_bind_eq hs.getPhysAddr, if_neg hp, run_bind_eq hs.getVirtAddr, run_bind_eq hs.getPhysAddr,
    run_bind_eq hs.getMapSize]

/-- `Map` of a segment that has pages. -/
theorem map_spec (hbits : bits < 64) (hw : TreeInv A (lowMask bits) root w) (hs : SegmentIs w.mem a s)
    (hok : SegmentOk bits s) (hp : s.paddr ≠ 0#64) (hattr : AttrOk (kPageAttrPresent ||| attr))
    (hrun : (map allocPages (lowMask bits) a root attr shouldClflush).run w = .ok u w') :
    Leaves A (lowMask bits) root s w w' ∧
      (∀ va : Word, (va - s.vaddr).toNat < s.mapSize.toNat → v2p (lowMask bits) w'.mem 3 root va = s.paddr +
      (va - s.vaddr)) ∧ ∀ x, Apart A (lowMask bits) root w x → w'.mem.load x = w.mem.load x := by
  rw [run_map hs hp] at hrun
  have hwhole := hok.whole
  have hvirt := hok.virt
  have hmap := mapInv_createPageMapping hw hattr (N := s.mapSize.toNat / 4096) (by omega) (hok.rangeOk hbits) hrun
  have hframe : ∀ x, Apart A (lowMask bits) root w x → _ := fun x hx => createPageMapping_frame hw hattr hrun hx
  refine ⟨⟨hmap.inv, fun va hva => hmap.outside (by omega), fun va hva hnone => ?_, fun x hx => (hframe x hx).2,
    fun x hx _ => (hframe x hx).1⟩, ?_, ?_⟩
  · refine leaf_createPageMapping hw hattr hrun ?_ hnone
    rw [pageCount_eq (by omega)]
    omega
  · exact fun va hva => hmap.inside (by omega) (by omega)
  · exact fun x hx => (hframe x hx).1

/-- The most tables that mapping a range of the lower half can take. -/
def tablesPerMap : Nat := kNumOfEntries * tablesPerPml4e

/-- No page of the segment is mapped yet. -/
def Free (mask root : Word) (s : SegmentMapping) (w : World σ) : Prop :=
  ∀ va, offset s.vaddr va < s.mapSize.toNat → leaf mask w.mem 3 root va = none

/-- `Map` returns when the segment is not mapped and there are pages for tables. -/
theorem map_returns (shouldClflush : Bool) (hB : Supplies allocPages (lowMask bits) B)
    (hw : TreeInv A (lowMask bits) root w) (hs : SegmentIs w.mem a s) (hok : SegmentOk bits s)
    (hattr : AttrOk (kPageAttrPresent ||| attr)) (hfree : Free (lowMask bits) root s w) (hn : B (n + tablesPerMap) w) :
    ∃ w', (map allocPages (lowMask bits) a root attr shouldClflush).run w = .ok () w' ∧ B n w' := by
  by_cases hp : s.paddr = 0#64
  · exact ⟨w, run_map_null hs hp, hB.less (le_add_right _ _) hn⟩
  · rw [run_map hs hp]
    have hvirt := hok.virt
    refine createPageMapping_returns hB hw hattr hok.vAligned hok.pAligned (fun k hk => hfree _ ?_) (hB.less ?_ hn)
    · rw [pageCount_eq (by omega)] at hk
      rw [offset_pageAddr (by omega)]
      omega
    · exact Nat.add_le_add_left (Nat.mul_le_mul_right _ (Nat.sub_le _ _)) _

/-! ## Loading a segment -/

theorem PagesOk.inPhys_wordOf (h : PagesOk bits s) {k : Nat} (hk : k < s.mapSize.toNat) :
    InPhys s (wordOf (s.paddr.toNat + k)) := by
  have := h.pAligned
  unfold InPhys wordOf
  omega

/-- Bytes written into the pages of the segment. -/
theorem load_filled {m : Mem} {dst : Nat} (hp : s.paddr.toNat % 4096 = 0) (h1 : s.paddr.toNat ≤ dst)
    (h2 : dst + n ≤ s.paddr.toNat + s.mapSize.toNat) (h : Libfunc.Filled m m' dst n f) (x : Nat) (hx : ¬ InPhys s x) :
    m'.load x = m.load x := by
  refine h.load x fun i hi he => hx ?_
  unfold wordOf at he
  unfold InPhys
  omega

/-- The pages of the segment are apart from the tables. -/
theorem apartStores_of_inPhys (hap : ∀ x, InPhys s x → Apart A mask root w x)
    (hin : ∀ x, ¬ InPhys s x → m'.load x = w.mem.load x) : ApartStores A mask root w { w with mem := m' } := by
  refine ⟨rfl, fun x hx => hap x ?_⟩
  by_contra hnot
  exact hx (hin x hnot)

/-- A segment whose bytes are copied from memory outside its pages, up to `copySize`. -/
structure Source (s : SegmentMapping) (info : PhdrInfo) : Prop where
  copySize : info.copySize.toNat ≤ s.mapSize.toNat
  disjoint : ∀ k < info.copySize.toNat, ¬ InPhys s (info.data.toNat + k)

/-- The bytes that loading a segment leaves in its pages. -/
def contents (m : Mem) (info : PhdrInfo) (k : Nat) : BitVec 8 :=
  if k < info.copySize.toNat then byteAt m (info.data.toNat + k) else 0#8

/-- What the call asserts. -/
structure Agrees (s : SegmentMapping) (info : PhdrInfo) : Prop where
  vaddr : s.vaddr = info.vaddr
  mapSize : s.mapSize = info.mapSize
  paddr : s.paddr ≠ 0#64

variable {info : PhdrInfo}

theorem agrees_of_run (hs : SegmentIs w.mem a s)
    (hrun : (loadAndMapSegment allocPages mask root a info attr shouldClflush).run w = .ok u w') : Agrees s info := by
  unfold loadAndMapSegment at hrun
  replace hrun := of_run_load_bind hrun
  obtain ⟨hv, hrun⟩ := of_run_assert_bind hrun
  replace hrun := of_run_load_bind hrun
  obtain ⟨hsize, hrun⟩ := of_run_assert_bind hrun
  replace hrun := of_run_load_bind hrun
  obtain ⟨hp, -⟩ := of_run_assert_bind hrun
  rw [hs.vaddr, beq_iff_eq] at hv
  rw [hs.mapSize, beq_iff_eq] at hsize
  rw [hs.paddr, bne_iff_ne] at hp
  exact ⟨hv, hsize, hp⟩

/-- The call up to the mapping writes to the segment's pages only. -/
theorem run_loadAndMapSegment_inPhys (allocPages : Word → WM σ Word) (mask root attr : Word) (shouldClflush : Bool)
    (hbits : bits < 64) (hs : SegmentIs w.mem a s) (hok : SegmentOk bits s) (hagree : Agrees s info)
    (hsrc : Source s info) : ∃ m, (loadAndMapSegment allocPages mask root a info attr shouldClflush).run w =
        (map allocPages mask a root attr shouldClflush).run { w with mem := m } ∧
      (∀ x, ¬ InPhys s x → m.load x = w.mem.load x) ∧
      ∀ k < s.mapSize.toNat, byteAt m (s.paddr.toNat + k) = contents w.mem info k := by
  have hphys : s.paddr.toNat + s.mapSize.toNat < 2 ^ 64 :=
    lt_of_le_of_lt hok.phys (Nat.pow_lt_pow_right (by norm_num) hbits)
  have hpa := hok.pAligned
  have hcopy := hsrc.copySize
  have hdst : (s.paddr + info.copySize).toNat = s.paddr.toNat + info.copySize.toNat := by
    rw [toNat_add]
    omega
  have hrest : (info.mapSize - info.copySize).toNat = s.mapSize.toNat - info.copySize.toNat := by
    rw [← hagree.mapSize, toNat_sub_of_le hcopy]
  -- the copy, and the rest of the pages
  obtain ⟨m1, hmem, hfill1⟩ := Libfunc.run_memcpy s.paddr.toNat info.data.toNat info.copySize.toNat
    (fun i hi j hj he => hsrc.disjoint i hi ⟨by omega, by omega⟩) w
  obtain ⟨m2, hzero, hfill2⟩ := Libfunc.run_bzero (s.paddr.toNat + info.copySize.toNat)
    (s.mapSize.toNat - info.copySize.toNat)
    { w with mem := m1 }
  refine ⟨m2, ?_, fun x hx => ?_, fun k hk => ?_⟩
  · unfold loadAndMapSegment
    rw [run_bind_eq hs.getVirtAddr, run_bind_eq (run_assert_true (beq_iff_eq.2 hagree.vaddr) _ _),
      run_bind_eq hs.getMapSize, run_bind_eq (run_assert_true (beq_iff_eq.2 hagree.mapSize) _ _),
      run_bind_eq hs.getPhysAddr, run_bind_eq (run_assert_true (bne_iff_ne.2 hagree.paddr) _ _),
      run_bind_eq hs.getPhysAddr, run_bind_eq hmem, hdst, hrest, run_bind_eq hzero]
  · rw [load_filled hpa (by omega) (by omega) hfill2 x hx, load_filled hpa (le_refl _) (by omega) hfill1 x hx]
  · rw [hfill2.byte, contents]
    by_cases hlt : k < info.copySize.toNat
    · rw [if_neg (by omega), if_pos hlt, hfill1.byte, if_pos (by omega),
        show s.paddr.toNat + k - s.paddr.toNat = k by omega]
    · rw [if_pos (by omega), if_neg hlt]

/-- A segment that can be loaded: its pages and its entry in `proc_map_info` are apart from the tables, and its bytes
come from elsewhere. -/
structure Loadable (A : Pool σ) (bits : Nat) (root : Word) (a : Nat) (s : SegmentMapping) (info : PhdrInfo)
    (w : World σ) : Prop where
  tree : TreeInv A (lowMask bits) root w
  segment : SegmentIs w.mem a s
  ok : SegmentOk bits s
  apart : ∀ x, InPhys s x → Apart A (lowMask bits) root w x
  self : ∀ x, a ≤ x → x < a + 24 → Apart A (lowMask bits) root w x ∧ ¬ InPhys s x
  source : Source s info

/-- The call up to the mapping: the segment's pages have their contents, and the tables are as before. -/
theorem run_loadAndMapSegment (attr : Word) (shouldClflush : Bool) (hbits : bits < 64)
    (h : Loadable A bits root a s info w) (hagree : Agrees s info) :
    ∃ m, (loadAndMapSegment allocPages (lowMask bits) root a info attr shouldClflush).run w =
        (map allocPages (lowMask bits) a root attr shouldClflush).run { w with mem := m } ∧
      Leaves A (lowMask bits) root s w { w with mem := m } ∧ SegmentIs m a s ∧
      (∀ va, SameBelow (lowMask bits) w.mem m root va 0) ∧
      ∀ k < s.mapSize.toNat, byteAt m (s.paddr.toNat + k) = contents w.mem info k := by
  obtain ⟨m, heq, hin, hbytes⟩ :=
    run_loadAndMapSegment_inPhys allocPages (lowMask bits) root attr shouldClflush hbits h.segment h.ok hagree h.source
  have hstores := apartStores_of_inPhys h.apart hin
  have hsame := hstores.sameBelow h.tree.tree
  obtain ⟨hkept, hapart⟩ := hstores.kept h.tree
  refine ⟨m, heq, ?_, h.segment.frame fun x h1 h2 => hin x (h.self x h1 h2).2, hsame, hbytes⟩
  exact ⟨hkept.inv, fun va _ => hkept.trans va, fun va _ hnone => (hsame va).leaf_eq.trans hnone, hapart,
    fun x _ hx => hin x hx⟩

theorem loadAndMapSegment_spec (hbits : bits < 64) (h : Loadable A bits root a s info w)
    (hattr : AttrOk (kPageAttrPresent ||| attr))
    (hrun : (loadAndMapSegment allocPages (lowMask bits) root a info attr shouldClflush).run w = .ok u w') :
    Leaves A (lowMask bits) root s w w' ∧ Loaded (lowMask bits) root s (contents w.mem info) w' := by
  have hagree := agrees_of_run h.segment hrun
  obtain ⟨m, heq, hl, hs, -, hbytes⟩ := run_loadAndMapSegment attr shouldClflush hbits h hagree
  rw [heq] at hrun
  obtain ⟨hl', hinside, hsame⟩ := map_spec hbits hl.inv hs h.ok hagree.paddr hattr hrun
  refine ⟨hl.comp hl', hinside, fun k hk => ?_⟩
  rw [byteAt_congr (hsame _ (hl.apart _ (h.apart _ (h.ok.inPhys_wordOf hk))))]
  exact hbytes k hk

/-- Addresses of another segment in the lower half are outside. -/
theorem le_offset_of_disjoint (hv : s.vaddr.toNat + s.mapSize.toNat ≤ 2 ^ 47)
    (hv' : s'.vaddr.toNat + s'.mapSize.toNat ≤ 2 ^ 47) (hdis : PageDisjoint s s') {va : Word}
    (hva : offset s.vaddr va < s.mapSize.toNat) : s'.mapSize.toNat ≤ offset s'.vaddr va := by
  unfold PageDisjoint at hdis
  unfold offset at hva ⊢
  rw [toNat_sub] at hva ⊢
  omega

/-- A loaded segment is not disturbed by a step for another one. -/
theorem Loaded.keep (h : Loaded mask root s f w)
    (hl : Leaves A mask root s' w w') (hok : SegmentOk bits s) (hok' : SegmentOk bits s') (hdis : PageDisjoint s s')
    (hsame : ∀ x, InPhys s x → w'.mem.load x = w.mem.load x) : Loaded mask root s f w' := by
  refine ⟨fun va hva => ?_, fun k hk => ?_⟩
  · rw [hl.outside va (le_offset_of_disjoint hok.virt hok'.virt hdis (lt_of_le_of_lt (mod_le _ _) hva))]
    exact h.mapped va hva
  · rw [byteAt_congr (hsame _ (hok.inPhys_wordOf hk))]
    exact h.bytes k hk

/-! ## Loading a file -/

/-- `proc_map_info` as the parser left it in `m1`, after the segments have been given pages: `seg` are the code
segment and the data segment, and `stack` is the stack. The pages are apart from each other, from the file, from
`proc_map_info`, from the tables and from the pages of the allocator. -/
structure Prepared (A : Pool σ) (bits : Nat) (root buf : Word) (fileSize procMapInfo : Nat)
    (seg : Bool → SegmentMapping) (stack : SegmentMapping) (m1 : Mem) (w : World σ) : Prop where
  tree : TreeInv A (lowMask bits) root w
  file : SameFile m1 w.mem buf fileSize
  segs : ∀ x, SegmentIs w.mem (slot procMapInfo x) (seg x)
  parsed : ∀ x s, SegmentIs m1 (slot procMapInfo x) s → (seg x).vaddr = s.vaddr ∧ (seg x).mapSize = s.mapSize
  stackIs : SegmentIs w.mem (ProcessMappingInfo.stack procMapInfo) stack
  heap : ∀ s, SegmentIs m1 (ProcessMappingInfo.heap procMapInfo) s →
    SegmentIs w.mem (ProcessMappingInfo.heap procMapInfo) s
  pages : ∀ x, PagesOk bits (seg x)
  stackOk : SegmentOk bits stack
  stackDisjoint : ∀ x, PageDisjoint (seg x) stack
  fresh : ∀ x a, InPhys (seg x) a → Apart A (lowMask bits) root w a
  distinct : ∀ x y, x ≠ y → ∀ a, InPhys (seg x) a → ¬ InPhys (seg y) a
  besideFile : ∀ x a, InPhys (seg x) a → a < buf.toNat ∨ buf.toNat + fileSize ≤ a
  besideInfo : ∀ x a, InPhys (seg x) a → a < procMapInfo ∨ procMapInfo + ProcessMappingInfo.size ≤ a
  fileApart : ∀ a, buf.toNat ≤ a → a < buf.toNat + fileSize → Apart A (lowMask bits) root w a
  infoApart : ∀ a, procMapInfo ≤ a → a < procMapInfo + ProcessMappingInfo.size → Apart A (lowMask bits) root w a

theorem attrOk_present (h : attr &&& ~~~kPageAttrMask = 0#64) : AttrOk (kPageAttrPresent ||| attr) := by
  refine ⟨and_not_eq_zero_iff.2 fun i hi => ?_, ?_⟩
  · rw [getLsbD_or, Bool.or_eq_true] at hi
    rcases hi with hi | hi
    · exact and_not_eq_zero_iff.1 (show kPageAttrPresent &&& ~~~kPageAttrMask = 0#64 by decide) i hi
    · exact and_not_eq_zero_iff.1 h i hi
  · rw [isPresent_eq, getLsbD_or, Bool.or_eq_true]
    exact .inl (by decide)

theorem within_or {attr' : Word} (h : attr &&& ~~~kPageAttrMask = 0#64) (h' : attr' &&& ~~~kPageAttrMask = 0#64) :
    (attr ||| attr') &&& ~~~kPageAttrMask = 0#64 := by
  rw [BitVec.and_comm, BitVec.and_or_distrib_left, BitVec.and_comm _ attr, BitVec.and_comm _ attr', h, h']
  rfl

variable {buf baseAttr : Word} {fileSize procMapInfo : Nat} {seg : Bool → SegmentMapping} {stack : SegmentMapping}
  {m1 : Mem}
  {info : PhdrMappingInfo}

/-- What is copied to a segment is a part of the file, that fits. -/
structure FromFile (buf : Word) (fileSize : Nat) (s : SegmentMapping) (info : PhdrInfo) : Prop where
  copySize : info.copySize.toNat ≤ s.mapSize.toNat
  file : ∀ k < info.copySize.toNat, buf.toNat ≤ info.data.toNat + k ∧ info.data.toNat + k < buf.toNat + fileSize

/-- The two segments are apart, and are to be filled from the file. -/
structure Planned (bits : Nat) (buf : Word) (fileSize : Nat) (seg : Bool → SegmentMapping) (info : PhdrMappingInfo) :
    Prop where
  aligned : buf.toNat % 4096 = 0
  ok : ∀ x, SegmentOk bits (seg x)
  disjoint : ∀ x y, x ≠ y → PageDisjoint (seg x) (seg y)
  file : ∀ x, FromFile buf fileSize (seg x) (info.slot x)

/-- Between the calls of `LoadAndMap` that began in `w0`: the segments in `done` are loaded, and nothing else has
happened to what the next calls read. -/
structure Progress (A : Pool σ) (mask root : Word) (seg : Bool → SegmentMapping)
    (info : PhdrMappingInfo) (w0 : World σ) (done : Bool → Prop) (w : World σ) : Prop where
  inv : TreeInv A mask root w
  apart : ∀ a, Apart A mask root w0 a → Apart A mask root w a
  frame : ∀ a, Apart A mask root w0 a → (∀ x, ¬ InPhys (seg x) a) → w.mem.load a = w0.mem.load a
  loaded : ∀ x, done x → Loaded mask root (seg x) (contents w0.mem (info.slot x)) w
  unmapped : ∀ va, (∀ x, done x → (seg x).mapSize.toNat ≤ offset (seg x).vaddr va) → leaf mask w0.mem 3 root va = none →
    leaf mask w.mem 3 root va = none

section

variable {w0 w : World σ} {done : Bool → Prop} (hbits : bits < 64)
  (p : Progress A (lowMask bits) root seg info w0 done w)
  (h : Prepared A bits root buf fileSize procMapInfo seg stack m1 w0) (hp : Planned bits buf fileSize seg info)

include h in
theorem Prepared.progress : Progress A (lowMask bits) root seg info w0 (fun _ => False) w0 :=
  ⟨h.tree, fun _ ha => ha, fun _ _ _ => rfl, fun _ hx => hx.elim, fun _ _ hnone => hnone⟩

include p h

/-- `proc_map_info` stays as it is. -/
theorem Progress.segmentIs (ha : procMapInfo ≤ a) (ha' : a + 24 ≤ procMapInfo + ProcessMappingInfo.size)
    (hs : SegmentIs w0.mem a s) : SegmentIs w.mem a s := by
  refine hs.frame fun b h1 h2 => p.frame b (h.infoApart b (by omega) (by omega)) fun x hin => ?_
  have := h.besideInfo x b hin
  omega

theorem Progress.slotIs (x : Bool) : SegmentIs w.mem (slot procMapInfo x) (seg x) := by
  have hb := slot_bounds procMapInfo x
  unfold ProcessMappingInfo.heap at hb
  exact p.segmentIs h hb.1 (by unfold ProcessMappingInfo.size; omega) (h.segs x)

theorem Progress.stackIs : SegmentIs w.mem (ProcessMappingInfo.stack procMapInfo) stack :=
  p.segmentIs h (le_add_right _ _) (by unfold ProcessMappingInfo.stack ProcessMappingInfo.size; omega) h.stackIs

variable {heap : SegmentMapping} {w' : World σ} {u : Unit} {x : Bool}

theorem Progress.heapIs (hheap : SegmentIs w0.mem (ProcessMappingInfo.heap procMapInfo) heap) :
    SegmentIs w.mem (ProcessMappingInfo.heap procMapInfo) heap :=
  p.segmentIs h (le_add_right _ _) (by unfold ProcessMappingInfo.heap ProcessMappingInfo.size; omega) hheap

theorem Progress.self (x : Bool) (h1 : slot procMapInfo x ≤ a) (h2 : a < slot procMapInfo x + 24) :
    Apart A (lowMask bits) root w a ∧ ¬ InPhys (seg x) a := by
  have hb := slot_bounds procMapInfo x
  unfold ProcessMappingInfo.heap at hb
  refine ⟨p.apart a (h.infoApart a (by omega) (by unfold ProcessMappingInfo.size; omega)), fun hin => ?_⟩
  have := h.besideInfo x a hin
  unfold ProcessMappingInfo.size at this
  omega

include hp

/-- The file is still there. -/
theorem Progress.contents_eq (x : Bool) : contents w.mem (info.slot x) = contents w0.mem (info.slot x) := by
  funext k
  unfold contents
  split_ifs with hk
  · have hin := (hp.file x).file k hk
    have hbuf := hp.aligned
    refine byteAt_congr (p.frame _ (h.fileApart _ ?_ ?_) fun y hy => ?_)
    · unfold wordOf
      omega
    · unfold wordOf
      omega
    · have := h.besideFile y _ hy
      unfold wordOf at this
      omega
  · rfl

omit p in
theorem Prepared.source (x : Bool) : Source (seg x) (info.slot x) := by
  refine ⟨(hp.file x).copySize, fun k hk hin => ?_⟩
  have := (hp.file x).file k hk
  have := h.besideFile x _ hin
  omega

theorem Progress.loadable (x : Bool) : Loadable A bits root (slot procMapInfo x) (seg x) (info.slot x) w :=
  ⟨p.inv, p.slotIs h x, hp.ok x, fun a ha => p.apart a (h.fresh x a ha), fun _ => p.self h x, h.source hp x⟩

omit h in
/-- The pages of a segment that comes later are not mapped yet. -/
theorem Progress.free (hok : SegmentOk bits s) (hdis : ∀ x, done x → PageDisjoint s (seg x))
    (hfree : Free (lowMask bits) root s w0) : Free (lowMask bits) root s w := by
  intro va hva
  refine p.unmapped va (fun x hx => ?_) (hfree va hva)
  exact le_offset_of_disjoint hok.virt (hp.ok x).virt (hdis x hx) hva

include hbits

/-- Loading the segment `x`. -/
theorem Progress.load (hx : ¬ done x) (hattr : AttrOk (kPageAttrPresent ||| attr))
    (hrun : (loadAndMapSegment allocPages (lowMask bits) root (slot procMapInfo x) (info.slot x) attr
      shouldClflush).run w = .ok u w') : Progress A (lowMask bits) root seg info w0 (fun y => done y ∨ y = x) w' := by
  obtain ⟨hl, hloaded⟩ := loadAndMapSegment_spec hbits (p.loadable h hp x) hattr hrun
  rw [p.contents_eq h hp x] at hloaded
  refine ⟨hl.inv, fun a ha => hl.apart a (p.apart a ha), fun a ha hn => ?_, ?_, fun va hva hnone => ?_⟩
  · rw [hl.frame a (p.apart a ha) (hn x), p.frame a ha hn]
  · rintro y (hy | rfl)
    · have hne : y ≠ x := by
        rintro rfl
        exact hx hy
      refine (p.loaded y hy).keep hl (hp.ok y) (hp.ok x) (hp.disjoint y x hne) fun a ha => ?_
      exact hl.frame a (p.apart a (h.fresh y a ha)) (h.distinct y x hne a ha)
    · exact hloaded
  · exact hl.unmapped va (hva x (.inr rfl)) (p.unmapped va (fun y hy => hva y (.inl hy)) hnone)

theorem Progress.load_returns (shouldClflush : Bool) (hB : Supplies allocPages (lowMask bits) B) (hx : ¬ done x)
    (hattr : AttrOk (kPageAttrPresent ||| attr)) (hagree : Agrees (seg x) (info.slot x))
    (hfree : Free (lowMask bits) root (seg x) w0) (hn : B (n + tablesPerMap) w) :
    ∃ w', (loadAndMapSegment allocPages (lowMask bits) root (slot procMapInfo x) (info.slot x) attr shouldClflush).run
      w = .ok () w' ∧ B n w' := by
  obtain ⟨m, heq, hl, hs, hsame, -⟩ := run_loadAndMapSegment attr shouldClflush hbits (p.loadable h hp x) hagree
  rw [heq]
  have hfree' : Free (lowMask bits) root (seg x) w := by
    refine p.free hp (hp.ok x) (fun y hy => hp.disjoint x y ?_) hfree
    rintro rfl
    exact hx hy
  refine map_returns shouldClflush hB hl.inv hs (hp.ok x) hattr (fun va hva => ?_) (hB.frame hn)
  exact (hsame va).leaf_eq.trans (hfree' va hva)

/-- Mapping the stack disturbs neither the loaded segments nor the heap's entry. -/
theorem Progress.mapStack (hheap : SegmentIs w0.mem (ProcessMappingInfo.heap procMapInfo) heap)
    (hattr : AttrOk (kPageAttrPresent ||| attr))
    (hrun : (map allocPages (lowMask bits) (ProcessMappingInfo.stack procMapInfo) root attr shouldClflush).run w =
      .ok u w') : (∀ x, done x → Loaded (lowMask bits) root (seg x) (contents w0.mem (info.slot x)) w') ∧
      SegmentIs w'.mem (ProcessMappingInfo.heap procMapInfo) heap := by
  have hstack := p.stackIs h
  have hheap' := p.heapIs h hheap
  by_cases hnull : stack.paddr = 0#64
  · rw [run_map_null hstack hnull] at hrun
    cases hrun
    exact ⟨p.loaded, hheap'⟩
  · obtain ⟨hl, -, hsame⟩ := map_spec hbits p.inv hstack h.stackOk hnull hattr hrun
    refine ⟨fun x hx => ?_, hheap'.frame fun a h1 h2 => hsame a (p.apart a (h.infoApart a ?_ ?_))⟩
    · refine (p.loaded x hx).keep hl (hp.ok x) h.stackOk (h.stackDisjoint x) fun a ha =>
        hsame a (p.apart a (h.fresh x a ha))
    · unfold ProcessMappingInfo.heap at h1
      omega
    · unfold ProcessMappingInfo.heap at h2
      unfold ProcessMappingInfo.size
      omega

end

/-- The attributes that `LoadAndMap` gives to the code segment. -/
theorem codeAttr_ok (hbase : baseAttr &&& ~~~kPageAttrMask = 0#64) :
    AttrOk (kPageAttrPresent ||| (kPageAttrPresent ||| baseAttr)) :=
  attrOk_present (within_or (by decide) hbase)

theorem dataAttr_ok (hbase : baseAttr &&& ~~~kPageAttrMask = 0#64) :
    AttrOk (kPageAttrPresent ||| (kPageAttrPresent ||| baseAttr ||| kPageAttrWritable)) :=
  attrOk_present (within_or (within_or (by decide) hbase) (by decide))

/-- The four calls of `LoadAndMap`. -/
theorem run_loadAndMap_ok
    (hrun : (loadAndMap allocPages (lowMask bits) root procMapInfo info baseAttr shouldClflush).run w = .ok u w') :
    ∃ w1 w2 w3,
      (loadAndMapSegment allocPages (lowMask bits) root (ProcessMappingInfo.code procMapInfo) info.code
        (kPageAttrPresent ||| baseAttr) shouldClflush).run w = .ok () w1 ∧
      (loadAndMapSegment allocPages (lowMask bits) root (ProcessMappingInfo.data procMapInfo) info.data
        (kPageAttrPresent ||| baseAttr ||| kPageAttrWritable) shouldClflush).run w1 = .ok () w2 ∧
      (map allocPages (lowMask bits) (ProcessMappingInfo.stack procMapInfo) root
        (kPageAttrPresent ||| baseAttr ||| kPageAttrWritable) shouldClflush).run w2 = .ok () w3 ∧
      (map allocPages (lowMask bits) (ProcessMappingInfo.heap procMapInfo) root
        (kPageAttrPresent ||| baseAttr ||| kPageAttrWritable) shouldClflush).run w3 = .ok u w' := by
  obtain ⟨_, w1, hcode, hrun1⟩ := run_bind_ok hrun
  obtain ⟨_, w2, hdata, hrun2⟩ := run_bind_ok hrun1
  obtain ⟨_, w3, hstack, hheap⟩ := run_bind_ok hrun2
  exact ⟨w1, w2, w3, hcode, hdata, hstack, hheap⟩

/-- Both segments are loaded with their parts of the file. -/
theorem loadAndMap_spec (hbits : bits < 64) (h : Prepared A bits root buf fileSize procMapInfo seg stack m1 w)
    (hp : Planned bits buf fileSize seg info) (hbase : baseAttr &&& ~~~kPageAttrMask = 0#64)
    (hheap : SegmentIs w.mem (ProcessMappingInfo.heap procMapInfo) ⟨0#64, 0#64, 0#64⟩)
    (hrun : (loadAndMap allocPages (lowMask bits) root procMapInfo info baseAttr shouldClflush).run w = .ok u w')
    (x : Bool) : Loaded (lowMask bits) root (seg x) (contents w.mem (info.slot x)) w' := by
  obtain ⟨w1, w2, w3, hcode, hdata, hstack, hrun3⟩ := run_loadAndMap_ok hrun
  have p1 := h.progress.load (x := true) hbits h hp not_false (codeAttr_ok hbase) hcode
  have p2 := p1.load (x := false) hbits h hp (by simp) (dataAttr_ok hbase) hdata
  obtain ⟨hloaded, hheap3⟩ := p2.mapStack hbits h hp hheap (dataAttr_ok hbase) hstack
  rw [run_map_null hheap3 rfl] at hrun3
  cases hrun3
  exact hloaded x (by cases x <;> simp)

/-- It returns when nothing is mapped yet and there are pages for tables. -/
theorem loadAndMap_returns (hbits : bits < 64) (hB : Supplies allocPages (lowMask bits) B)
    (h : Prepared A bits root buf fileSize procMapInfo seg stack m1 w) (hp : Planned bits buf fileSize seg info)
    (hagree : ∀ x, Agrees (seg x) (info.slot x)) (hbase : baseAttr &&& ~~~kPageAttrMask = 0#64)
    (hheap : SegmentIs w.mem (ProcessMappingInfo.heap procMapInfo) ⟨0#64, 0#64, 0#64⟩)
    (hfree : ∀ x, Free (lowMask bits) root (seg x) w) (hstack : Free (lowMask bits) root stack w)
    (hn : B (3 * tablesPerMap) w) :
    ∃ w', (loadAndMap allocPages (lowMask bits) root procMapInfo info baseAttr shouldClflush).run w = .ok () w' := by
  obtain ⟨w1, hcode, hn1⟩ := h.progress.load_returns (x := true) (n := 2 * tablesPerMap) hbits h hp
    shouldClflush hB not_false
    (codeAttr_ok hbase) (hagree true) (hfree true) (hB.less (by omega) hn)
  have p1 := h.progress.load hbits h hp not_false (codeAttr_ok hbase) hcode
  obtain ⟨w2, hdata, hn2⟩ := p1.load_returns (x := false) (n := tablesPerMap) hbits h hp shouldClflush hB (by simp)
    (dataAttr_ok hbase) (hagree false) (hfree false) (hB.less (by omega) hn1)
  have p2 := p1.load hbits h hp (by simp) (dataAttr_ok hbase) hdata
  obtain ⟨w3, hst, -⟩ := map_returns (n := 0) shouldClflush hB p2.inv (p2.stackIs h) h.stackOk (dataAttr_ok hbase)
    (p2.free hp h.stackOk (fun x _ => (h.stackDisjoint x).symm) hstack) (hB.less (by omega) hn2)
  have hheap3 := (p2.mapStack hbits h hp hheap (dataAttr_ok hbase) hst).2
  exact ⟨w3, (run_bind_eq hcode).trans ((run_bind_eq hdata).trans ((run_bind_eq hst).trans (run_map_null hheap3 rfl)))⟩

end

end Liumos.Elf
