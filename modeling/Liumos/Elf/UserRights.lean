/-
The rights of a loaded program. `LoadAndMap` maps the code before everything that is writable, so that what the later
calls write into entries they share with the code takes no right away, and the code stays read-only through the
entries of its pages.
Source: elf.cc (`LoadAndMap`), execution_context.h (`SegmentMapping::Map`).
-/
import Liumos.Elf.Faithful
import Liumos.Paging.RightsInside

namespace Liumos.Elf

open Process Paging

section

variable {σ : Type} {A : Pool σ} {allocPages : Word → WM σ Word} [hA : AllocOk allocPages A]
  {root attr : Word} {bits a : Nat} {s : SegmentMapping} {shouldClflush : Bool}

/-- The virtual address is in the segment. -/
def InSegment (s : SegmentMapping) (va : Word) : Prop := (va - s.vaddr).toNat < s.mapSize.toNat

/-! ## One segment -/

theorem SegmentOk.pages (h : SegmentOk bits s) : pageCount s.mapSize = s.mapSize.toNat / 4096 := by
  have := h.whole
  rw [pageCount_eq (by omega)]
  omega

variable {va : Word} {w w' : World σ} {u : Unit} {m : Mem}

/-- Every address of the segment is in a page of its range. -/
theorem SegmentOk.page (h : SegmentOk bits s) (hva : InSegment s va) :
    ∃ k < mappedPages s.vaddr (pageCount s.mapSize), path 4 va = path 4 (pageAddr s.vaddr k) := by
  have hvirt := h.virt
  have hwhole := h.whole
  have hal := h.vAligned
  unfold InSegment at hva
  have hoff : va.toNat = s.vaddr.toNat + (va - s.vaddr).toNat := by
    rw [BitVec.toNat_sub] at hva ⊢
    omega
  refine ⟨(va - s.vaddr).toNat / 4096, ?_, ?_⟩
  · rw [h.pages, mappedPages]
    omega
  · rw [path_pageAddr, path, pos, hoff]
    omega

/-- Another segment's addresses are outside the range. -/
theorem outside_of_disjoint {s' : SegmentMapping} (hok : SegmentOk bits s) (hok' : SegmentOk bits s')
    (hdis : PageDisjoint s' s) (hva : InSegment s' va) : Outside s.vaddr (pageCount s.mapSize) va := by
  have hle := le_offset_of_disjoint hok'.virt hok.virt hdis (lt_of_le_of_lt (Nat.mod_le _ _) hva)
  rw [Outside, hok.pages, mappedPages]
  omega

/-- What mapping a segment grants, to its own addresses, and to those of segments mapped before if it grants
everything. -/
structure GrantsSegment (bits : Nat) (root attr : Word) (s : SegmentMapping) (m m' : Mem) : Prop where
  own : ∀ va, InSegment s va → Grants (lowMask bits) root m' va (entryRights (kPageAttrPresent ||| attr))
  others : entryRights (kPageAttrPresent ||| attr) = ⟨true, true, true⟩ → ∀ s' va r, SegmentOk bits s' →
    PageDisjoint s' s → InSegment s' va → Grants (lowMask bits) root m va r → Grants (lowMask bits) root m' va r

theorem grants_map (hw : TreeInv A (lowMask bits) root w) (hs : SegmentIs w.mem a s)
    (hok : SegmentOk bits s) (hp : s.paddr ≠ 0#64) (hattr : AttrOk (kPageAttrPresent ||| attr))
    (hrun : (SegmentMapping.map allocPages (lowMask bits) a root attr shouldClflush).run w = .ok u w') :
    GrantsSegment bits root attr s w.mem w'.mem := by
  rw [run_map hs hp] at hrun
  refine ⟨fun va hva => ?_, fun hall s' va r hok' hdis hva hg => ?_⟩
  · obtain ⟨k, hk, hpath⟩ := hok.page hva
    exact (grants_inside hattr hw hrun hk).congr hpath
  · exact hg.outside hattr hall hw hrun (outside_of_disjoint hok hok' hdis hva)

/-- The same for a segment that is loaded from the file. -/
theorem grants_loadAndMapSegment (hbits : bits < 64) {info : PhdrInfo} (h : Loadable A bits root a s info w)
    (hattr : AttrOk (kPageAttrPresent ||| attr))
    (hrun : (loadAndMapSegment allocPages (lowMask bits) root a info attr shouldClflush).run w = .ok u w') :
    GrantsSegment bits root attr s w.mem w'.mem := by
  have hagree := agrees_of_run h.segment hrun
  obtain ⟨m, heq, hl, hs, hsame, -⟩ := run_loadAndMapSegment attr shouldClflush hbits h hagree
  rw [heq] at hrun
  obtain ⟨hown, hothers⟩ := grants_map hl.inv hs h.ok hagree.paddr hattr hrun
  refine ⟨hown, fun hall s' va r hok' hdis hva hg => hothers hall s' va r hok' hdis hva ?_⟩
  -- the bytes are written apart from the tables
  exact hg.of_same (hsame va)

/-! ## The program -/

variable {buf : Word} {fileSize procMapInfo : Nat} {seg : Bool → SegmentMapping} {stack heap : SegmentMapping}
  {m1 : Mem}
  {info : PhdrMappingInfo}

theorem dataRights : entryRights (kPageAttrPresent ||| (kPageAttrPresent ||| kPageAttrUser ||| kPageAttrWritable)) =
    ⟨true, true, true⟩ := by decide

theorem Prepared.apartStores (h : Prepared A bits root buf fileSize procMapInfo seg stack m1 w)
    (hm : SameOutside (ProcessMappingInfo.stack procMapInfo) (procMapInfo + ProcessMappingInfo.size) w.mem m) :
    ApartStores A (lowMask bits) root w { w with mem := m } := by
  refine ⟨rfl, fun x hx => ?_⟩
  unfold ProcessMappingInfo.stack at hm
  by_cases hin : procMapInfo ≤ x ∧ x < procMapInfo + ProcessMappingInfo.size
  · exact h.infoApart x hin.1 hin.2
  · exact absurd (hm x (by omega)) hx

include hA in
/-- The stack and the heap are set after the segments have been given pages. -/
theorem Prepared.setSlots {stack' : SegmentMapping} (h : Prepared A bits root buf fileSize procMapInfo seg stack m1 w)
    (hm : SameOutside (ProcessMappingInfo.stack procMapInfo) (procMapInfo + ProcessMappingInfo.size) w.mem m)
    (hs : SegmentIs m (ProcessMappingInfo.stack procMapInfo) stack') (hok : SegmentOk bits stack')
    (hdis : ∀ x, PageDisjoint (seg x) stack') :
    Prepared A bits root buf fileSize procMapInfo seg stack' m { w with mem := m } := by
  obtain ⟨hkept, hapart⟩ := (h.apartStores hm).kept h.tree
  have hsegs : ∀ x, SegmentIs m (slot procMapInfo x) (seg x) := by
    intro x
    refine (h.segs x).frame fun a _ h2 => hm a (.inl ?_)
    unfold ProcessMappingInfo.stack
    cases x
    · change a < procMapInfo + 24 + 24 at h2
      omega
    · change a < procMapInfo + 24 at h2
      omega
  exact
    { h with
      tree := hkept.inv
      file := fun _ _ _ => rfl
      segs := hsegs
      parsed := fun x s hs' => ⟨(hsegs x).vaddr.symm.trans hs'.vaddr, (hsegs x).mapSize.symm.trans hs'.mapSize⟩
      stackIs := hs
      heap := fun s hs' => hs'
      stackOk := hok
      stackDisjoint := hdis
      fresh := fun x a ha => hapart a (h.fresh x a ha)
      fileApart := fun a h1 h2 => hapart a (h.fileApart a h1 h2)
      infoApart := fun a h1 h2 => hapart a (h.infoApart a h1 h2) }

/-- What the segments of a program are to be granted: the code is present, open to the user and not writable; the
data, the stack and the heap, if it has pages, are present, open to the user and writable. -/
structure UserRights (mask root : Word) (m : Mem) (seg : Bool → SegmentMapping) (stack heap : SegmentMapping) :
    Prop where
  code : ∀ va, InSegment (seg true) va → rights mask m 3 root va = ⟨true, false, true⟩
  data : ∀ va, InSegment (seg false) va → rights mask m 3 root va = ⟨true, true, true⟩
  stack : ∀ va, InSegment stack va → rights mask m 3 root va = ⟨true, true, true⟩
  heap : heap.paddr ≠ 0#64 → ∀ va, InSegment heap va → rights mask m 3 root va = ⟨true, true, true⟩

/-- The heap is optional. -/
def HeapOk (bits : Nat) (seg : Bool → SegmentMapping) (stack heap : SegmentMapping) : Prop :=
  heap.paddr ≠ 0#64 → SegmentOk bits heap ∧ (∀ x, PageDisjoint (seg x) heap) ∧ PageDisjoint stack heap

theorem userRights_loadAndMap (hbits : bits < 64) (h : Prepared A bits root buf fileSize procMapInfo seg stack m1 w)
    (hp : Planned bits buf fileSize seg info) (hstack : stack.paddr ≠ 0#64)
    (hheap : SegmentIs w.mem (ProcessMappingInfo.heap procMapInfo) heap) (hheapOk : HeapOk bits seg stack heap)
    (hrun : (loadAndMap allocPages (lowMask bits) root procMapInfo info kPageAttrUser shouldClflush).run w = .ok u w') :
    UserRights (lowMask bits) root w'.mem seg stack heap := by
  have hbase : kPageAttrUser &&& ~~~kPageAttrMask = 0#64 := by decide
  obtain ⟨w1, w2, w3, hcode, hdata, hst, hrun3⟩ := run_loadAndMap_ok hrun
  have p0 : Progress A (lowMask bits) root seg info w (fun _ => False) w := h.progress
  have p1 := p0.load (x := true) hbits h hp not_false (codeAttr_ok hbase) hcode
  have p2 := p1.load (x := false) hbits h hp (by simp) (dataAttr_ok hbase) hdata
  have hheap3 := (p2.mapStack hbits h hp hheap (dataAttr_ok hbase) hst).2
  have hinv3 := (map_spec hbits p2.inv (p2.stackIs h) h.stackOk hstack (dataAttr_ok hbase) hst).1.inv
  -- what each call grants, and that the later ones take nothing away
  have hcode1 := (grants_loadAndMapSegment hbits (p0.loadable h hp true) (codeAttr_ok hbase) hcode).1
  obtain ⟨hdata2, hkeep2⟩ := grants_loadAndMapSegment hbits (p1.loadable h hp false) (dataAttr_ok hbase) hdata
  obtain ⟨hstack3, hkeep3⟩ := grants_map p2.inv (p2.stackIs h) h.stackOk hstack (dataAttr_ok hbase) hst
  replace hkeep2 := hkeep2 dataRights
  replace hkeep3 := hkeep3 dataRights
  have hcode3 : ∀ va, InSegment (seg true) va →
      Grants (lowMask bits) root w3.mem va ⟨true, false, true⟩ := fun va hva =>
    hkeep3 _ va _ (hp.ok true) (h.stackDisjoint true) hva
      (hkeep2 _ va _ (hp.ok true) (hp.disjoint true false (by decide)) hva (hcode1 va hva))
  have hdata3 : ∀ va, InSegment (seg false) va → Grants (lowMask bits) root w3.mem va
    ⟨true, true, true⟩ := fun va hva =>
    hkeep3 _ va _ (hp.ok false) (h.stackDisjoint false) hva (hdata2 va hva)
  by_cases hnull : heap.paddr = 0#64
  · rw [run_map_null hheap3 hnull] at hrun3
    cases hrun3
    exact ⟨fun va hva => (hcode3 va hva).rights, fun va hva => (hdata3 va hva).rights,
      fun va hva => (hstack3 va hva).rights, fun hne => absurd hnull hne⟩
  · obtain ⟨hok, hdis, hdisStack⟩ := hheapOk hnull
    obtain ⟨hheap4, hkeep4⟩ := grants_map hinv3 hheap3 hok hnull (dataAttr_ok hbase) hrun3
    replace hkeep4 := hkeep4 dataRights
    refine ⟨fun va hva => ?_, fun va hva => ?_, fun va hva => ?_, fun _ va hva => (hheap4 va hva).rights⟩
    · exact (hkeep4 _ va _ (hp.ok true) (hdis true) hva (hcode3 va hva)).rights
    · exact (hkeep4 _ va _ (hp.ok false) (hdis false) hva (hdata3 va hva)).rights
    · exact (hkeep4 _ va _ h.stackOk hdisStack hva (hstack3 va hva)).rights

/-- For every well-formed file, with fresh pages for its segments, and a stack and possibly a heap apart from them: with
`kPageAttrUser` as its base attribute, `LoadAndMap` leaves each segment with its rights. -/
theorem load_userRights (hbits : bits < 64) {w0 : World σ} (hf : WellFormed w0.mem buf fileSize)
    (hb : Beside procMapInfo buf fileSize) :
    ∃ info w1, (parseProgramHeader buf procMapInfo).run w0 = .ok (.ok info) w1 ∧
      ∀ (root : Word) (seg : Bool → SegmentMapping) (stack heap : SegmentMapping) (w2 : World σ) (m : Mem)
        (shouldClflush : Bool),
        Prepared A bits root buf fileSize procMapInfo seg stack w1.mem w2 → stack.paddr ≠ 0#64 →
        SegmentIs m (ProcessMappingInfo.heap procMapInfo) heap →
        SameOutside (ProcessMappingInfo.heap procMapInfo) (procMapInfo + ProcessMappingInfo.size) w2.mem m →
        HeapOk bits seg stack heap →
        ∀ u w3, (loadAndMap allocPages (lowMask bits) root procMapInfo info kPageAttrUser shouldClflush).run
            { w2 with mem := m } = .ok u w3 → UserRights (lowMask bits) root w3.mem seg stack heap := by
  obtain ⟨_, w1, hrun1, info, rfl, hparsed, -⟩ := (yields_parseProgramHeader hb hf).returns
  refine ⟨info, w1, hrun1, fun root seg stack heap w2 m shouldClflush h hstack hheap hm hheapOk u w3 hrun => ?_⟩
  have hm' : SameOutside (ProcessMappingInfo.stack procMapInfo) (procMapInfo + ProcessMappingInfo.size) w2.mem m := by
    intro x hx
    refine hm x ?_
    unfold ProcessMappingInfo.stack at hx
    unfold ProcessMappingInfo.heap
    omega
  have hstackIs : SegmentIs m (ProcessMappingInfo.stack procMapInfo) stack :=
    h.stackIs.frame fun x _ h2 => hm x (.inl h2)
  exact userRights_loadAndMap hbits (h.setSlots hm' hstackIs h.stackOk h.stackDisjoint)
    (hparsed.planned hf h) hstack hheap
    hheapOk hrun

end

/-! ## The small file -/

theorem load_userRights_small : ∃ (info : PhdrMappingInfo) (w0 w1 w2 w3 : World (List Word)),
    w0.mem = smallMem ∧ (parseProgramHeader 0x10000#64 0x2000).run w0 = .ok (.ok info) w1 ∧
      (loadAndMap allocFromList (lowMask 46) 0x1000#64 0x2000 info kPageAttrUser false).run w2 = .ok () w3 ∧
      UserRights (lowMask 46) 0x1000#64 w3.mem smallSeg smallStack ⟨0#64, 0#64, 0#64⟩ := by
  obtain ⟨ps, hps, hlen⟩ := exists_smallPages
  obtain ⟨info, w1, hrun1, hrights⟩ := load_userRights (A := pageList) (show 46 < 64 by norm_num)
    (show WellFormed (World.mem ⟨smallMem, ps⟩) 0x10000#64 128 from wellFormed_smallMem) beside_small
  have hparsed := parsed_small hrun1
  have h := prepared_small hps hparsed
  have hp := hparsed.planned wellFormed_smallMem h
  have hheap := h.heap _ hparsed.heap
  obtain ⟨w3, hrun3⟩ := loadAndMap_returns (show 46 < 64 by norm_num) (allocFromList_supplies (lowMask 46))
    h hp (fun x => hparsed.agrees h (by cases x <;> decide)) (show kPageAttrUser &&& _ = _ by decide)
    hheap (fun x => free_small hps hparsed _) (free_small hps hparsed _) ⟨hlen, hps.holds⟩
  exact ⟨info, _, w1, _, w3, rfl, hrun1, hrun3,
    hrights _ smallSeg smallStack _ _ _ false h (by decide) hheap (fun _ _ => rfl)
    (fun hne => absurd rfl hne) () w3 hrun3⟩

end Liumos.Elf
