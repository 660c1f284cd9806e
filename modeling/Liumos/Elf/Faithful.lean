/-
Loading a file, end to end: what a process finds at the virtual addresses of a segment is what the file has
at the segment's offset, and zero bytes after that. The parser rounds the address and the offset of a segment
down to pages; the copy starts at the page, so that the byte `k` of the segment is the byte
`p_vaddr % 4096 + k` of the copy.
-/
import Liumos.Elf.Load

namespace Liumos.Elf

open Process Paging BitVec
open WriteBack.Memory (load_store ofInit)

/-! ## The pages of a program header -/

theorem toNat_floorToPageAlignment (v : Word) : (floorToPageAlignment v).toNat = v.toNat / 4096 * 4096 := by
  rw [floorToPageAlignment, kPageAddrMask_eq, toNat_and_not_lowMask, show 2 ^ 12 = 4096 from rfl]

theorem toNat_ceilToPageAlignment {v : Word} (h : v.toNat + 4095 < 2 ^ 64) :
    (ceilToPageAlignment v).toNat = (v.toNat + 4095) / 4096 * 4096 := by
  have hs : (v + kPageSize - 1#64).toNat = v.toNat + 4095 := by
    simp only [kPageSize, kPageSizeExponent]
    bv_omega
  rw [ceilToPageAlignment, kPageAddrMask_eq, toNat_and_not_lowMask, hs, show 2 ^ 12 = 4096 from rfl]

theorem toNat_sub_floor (v : Word) : (v - floorToPageAlignment v).toNat = v.toNat % 4096 := by
  have hle : (floorToPageAlignment v).toNat ≤ v.toNat := by
    rw [toNat_floorToPageAlignment]
    omega
  rw [toNat_sub_of_le hle, toNat_floorToPageAlignment]
  omega

section

variable {m : Mem} {buf phdr : Word} {fileSize : Nat}

theorem toNat_segmentOf_vaddr : (segmentOf m phdr).vaddr.toNat = (pVaddr m phdr).toNat / 4096 * 4096 :=
  toNat_floorToPageAlignment _

section

variable (h : PhdrOk m phdr fileSize)

include h

theorem PhdrOk.mapSize :
    (segmentOf m phdr).mapSize.toNat = ((pMemsz m phdr).toNat + (pVaddr m phdr).toNat % 4096 + 4095) / 4096 * 4096 := by
  have hlow := h.lowerHalf
  have hsum : (pMemsz m phdr + (pVaddr m phdr - floorToPageAlignment (pVaddr m phdr))).toNat =
      (pMemsz m phdr).toNat + (pVaddr m phdr).toNat % 4096 := by
    rw [toNat_add, toNat_sub_floor]
    omega
  unfold segmentOf
  rw [toNat_ceilToPageAlignment (by rw [hsum]; omega), hsum]

theorem PhdrOk.copySize :
    (infoOf m buf phdr).copySize.toNat = (pFilesz m phdr).toNat + (pVaddr m phdr).toNat % 4096 := by
  have hlow := h.lowerHalf
  have hfilesz := h.filesz
  unfold infoOf segmentOf
  rw [toNat_add, toNat_sub_floor]
  omega

theorem PhdrOk.data (hbuf : buf.toNat + fileSize < 2 ^ 64) :
    (infoOf m buf phdr).data.toNat = buf.toNat + (pOffset m phdr).toNat / 4096 * 4096 := by
  have hin := h.inFile
  unfold infoOf
  rw [toNat_add, toNat_floorToPageAlignment]
  omega

variable {s : SegmentMapping}

/-- A segment with pages, laid out as the program header says. -/
theorem PhdrOk.segmentOk {bits : Nat} (hs : PagesOk bits s)
    (hv : s.vaddr = (segmentOf m phdr).vaddr) (hsize : s.mapSize = (segmentOf m phdr).mapSize) : SegmentOk bits s := by
  have hlow := h.lowerHalf
  refine ⟨hs, ?_, ?_, ?_⟩
  · rw [hv, toNat_segmentOf_vaddr]
    omega
  · rw [hsize, h.mapSize]
    omega
  · rw [hv, hsize, toNat_segmentOf_vaddr, h.mapSize]
    omega

theorem PhdrOk.fromFile (hbuf : buf.toNat + fileSize < 2 ^ 64)
    (hsize : s.mapSize = (segmentOf m phdr).mapSize) : FromFile buf fileSize s (infoOf m buf phdr) := by
  have hfilesz := h.filesz
  have hcong := h.congruent
  have hin := h.inFile
  refine ⟨?_, fun k hk => ?_⟩
  · rw [hsize, h.mapSize, h.copySize]
    omega
  · rw [h.copySize] at hk
    rw [h.data hbuf]
    omega

end

end

/-- The byte `k` of the segment of a program header. -/
def segmentByte (m : Mem) (buf phdr : Word) (k : Nat) : BitVec 8 :=
  if k < (pFilesz m phdr).toNat then byteAt m (buf.toNat + (pOffset m phdr).toNat + k) else 0#8

/-- The byte that a process with the page table `root` finds at a virtual address. -/
def byteThrough (mask : Word) (m : Mem) (root va : Word) : BitVec 8 := byteAt m (v2p mask m 3 root va).toNat

section

variable {σ : Type} {A : Pool σ} {allocPages : Word → WM σ Word} [hA : AllocOk allocPages A]
  {root buf : Word} {bits fileSize procMapInfo : Nat} {seg : Bool → SegmentMapping} {stack : SegmentMapping}
  {info : PhdrMappingInfo} {m0 m1 : Mem} {w : World σ}

/-- A slot is that of a program header, or empty. -/
theorem Parsed.slot_cases (hparsed : Parsed m0 buf procMapInfo (ePhnum m0 buf).toNat info m1)
    (h : Prepared A bits root buf fileSize procMapInfo seg stack m1 w) (x : Bool) :
    ((seg x).vaddr = 0#64 ∧ (seg x).mapSize = 0#64 ∧ info.slot x = PhdrInfo.clear) ∨
      ∃ i, IsLoad m0 buf i ∧ isExec m0 (phdrAddr m0 buf i) = x ∧ (seg x).vaddr =
      (segmentOf m0 (phdrAddr m0 buf i)).vaddr ∧
        (seg x).mapSize = (segmentOf m0 (phdrAddr m0 buf i)).mapSize ∧ info.slot x =
        infoOf m0 buf (phdrAddr m0 buf i) := by
  by_cases hx : ∀ j < (ePhnum m0 buf).toNat, IsLoad m0 buf j → isExec m0 (phdrAddr m0 buf j) ≠ x
  · obtain ⟨hseg, hinfo⟩ := hparsed.empty x hx
    obtain ⟨hv, hsize⟩ := h.parsed x _ hseg
    exact .inl ⟨hv, hsize, hinfo⟩
  · push Not at hx
    obtain ⟨i, hi, hload, rfl⟩ := hx
    obtain ⟨hseg, hinfo⟩ := hparsed.loads i hi hload
    obtain ⟨hv, hsize⟩ := h.parsed _ _ hseg
    exact .inr ⟨i, hload, rfl, hv, hsize, hinfo⟩

theorem Parsed.planned (hf : WellFormed m0 buf fileSize)
    (hparsed : Parsed m0 buf procMapInfo (ePhnum m0 buf).toNat info m1)
    (h : Prepared A bits root buf fileSize procMapInfo seg stack m1 w) : Planned bits buf fileSize seg info := by
  refine ⟨hf.aligned, fun x => ?_, fun x y hxy => ?_, fun x => ?_⟩
  · rcases hparsed.slot_cases h x with ⟨hv, hsize, -⟩ | ⟨i, hload, -, hv, hsize, -⟩
    · refine ⟨h.pages x, ?_, ?_, ?_⟩ <;> simp [hv, hsize]
    · exact (hf.phdrs i hload).segmentOk (h.pages x) hv hsize
  · rcases hparsed.slot_cases h x with ⟨hv, hsize, -⟩ | ⟨i, hload, rfl, hv, hsize, -⟩
    · unfold PageDisjoint
      simp [hv, hsize]
    · rcases hparsed.slot_cases h y with ⟨hv', hsize', -⟩ | ⟨j, hload', rfl, hv', hsize', -⟩
      · unfold PageDisjoint
        simp [hv', hsize']
      · have hdis := hf.disjoint i j hload hload' fun he => hxy (by rw [he])
        unfold PageDisjoint at hdis ⊢
        rw [hv, hsize, hv', hsize']
        exact hdis
  · rcases hparsed.slot_cases h x with ⟨-, -, hinfo⟩ | ⟨i, hload, -, -, hsize, hinfo⟩
    · rw [hinfo]
      exact ⟨Nat.zero_le _, fun k hk => absurd hk (Nat.not_lt_zero k)⟩
    · rw [hinfo]
      exact (hf.phdrs i hload).fromFile hf.inMemory hsize

theorem Parsed.agrees (hparsed : Parsed m0 buf procMapInfo (ePhnum m0 buf).toNat info m1)
    (h : Prepared A bits root buf fileSize procMapInfo seg stack m1 w) {x : Bool} (hp : (seg x).paddr ≠ 0#64) :
    Agrees (seg x) (info.slot x) := by
  rcases hparsed.slot_cases h x with ⟨hv, hsize, hinfo⟩ | ⟨i, -, -, hv, hsize, hinfo⟩
  · rw [hinfo]
    exact ⟨hv, hsize, hp⟩
  · rw [hinfo]
    exact ⟨hv, hsize, hp⟩

/-- A loaded segment, seen through the page table. -/
theorem Loaded.byteThrough_eq {i : Nat} (hf : WellFormed m0 buf fileSize) (hload : IsLoad m0 buf i)
    (hok : SegmentOk bits s) (hbits : bits < 64) (hv : s.vaddr = (segmentOf m0 (phdrAddr m0 buf i)).vaddr)
    (hsize : s.mapSize = (segmentOf m0 (phdrAddr m0 buf i)).mapSize) {m : Mem} (hsame : SameFile m0 m buf fileSize)
    (h : Loaded (lowMask bits) root s (contents m (infoOf m0 buf (phdrAddr m0 buf i))) w) {k : Nat}
    (hk : k < (pMemsz m0 (phdrAddr m0 buf i)).toNat) :
    byteThrough (lowMask bits) w.mem root (pVaddr m0 (phdrAddr m0 buf i) + BitVec.ofNat 64 k) =
      segmentByte m0 buf (phdrAddr m0 buf i) k := by
  have hphdr := hf.phdrs i hload
  generalize phdrAddr m0 buf i = phdr at *
  have hcong := hphdr.congruent
  have hin := hphdr.inFile
  have hmap := hphdr.mapSize
  -- the place of the byte in the copy
  have hoff : (pVaddr m0 phdr + BitVec.ofNat 64 k - s.vaddr).toNat = (pVaddr m0 phdr).toNat % 4096 + k := by
    have hfloor : s.vaddr.toNat = (pVaddr m0 phdr).toNat / 4096 * 4096 := by rw [hv, toNat_segmentOf_vaddr]
    rw [toNat_sub, toNat_add, toNat_ofNat, hfloor]
    omega
  have hlt : (pVaddr m0 phdr).toNat % 4096 + k < s.mapSize.toNat := by
    rw [hsize, hmap]
    omega
  have hphys : s.paddr.toNat + s.mapSize.toNat < 2 ^ 64 :=
    lt_of_le_of_lt hok.phys (Nat.pow_lt_pow_right (by norm_num) hbits)
  have haddr : (s.paddr + (pVaddr m0 phdr + BitVec.ofNat 64 k - s.vaddr)).toNat =
      s.paddr.toNat + ((pVaddr m0 phdr).toNat % 4096 + k) := by
    rw [toNat_add, hoff]
    omega
  rw [byteThrough, h.mapped _ (by rw [hoff]; exact hlt), haddr, h.bytes _ hlt, contents, hphdr.copySize,
    hphdr.data hf.inMemory, segmentByte]
  by_cases hfile : k < (pFilesz m0 phdr).toNat
  · rw [if_pos (by omega), if_pos hfile, hsame _ (by omega) (by omega)]
    congr 1
    omega
  · rw [if_neg (by omega), if_neg hfile]

/-- The loader is faithful. `ParseProgramHeader` accepts every well-formed file. Given fresh physical pages for the
segments it has laid out, `LoadAndMap` leaves a page table through which the process finds, at the addresses of each
segment, the bytes of the file and zero bytes up to the size in memory; and it returns when the addresses were not
mapped before and the allocator has pages for tables. -/
theorem load_faithful (hbits : bits < 64) {w0 : World σ} (hf : WellFormed w0.mem buf fileSize)
    (hb : Beside procMapInfo buf fileSize) :
    ∃ info w1, (parseProgramHeader buf procMapInfo).run w0 = .ok (.ok info) w1 ∧
      ∀ (seg : Bool → SegmentMapping) (stack : SegmentMapping) (w2 : World σ) (baseAttr : Word) (shouldClflush : Bool),
        Prepared A bits root buf fileSize procMapInfo seg stack w1.mem w2 → baseAttr &&& ~~~kPageAttrMask = 0#64 →
        (∀ u w3, (loadAndMap allocPages (lowMask bits) root procMapInfo info baseAttr shouldClflush).run w2 = .ok u w3 →
          ∀ i, IsLoad w0.mem buf i → ∀ k < (pMemsz w0.mem (phdrAddr w0.mem buf i)).toNat,
            byteThrough (lowMask bits) w3.mem root (pVaddr w0.mem (phdrAddr w0.mem buf i) + BitVec.ofNat 64 k) =
              segmentByte w0.mem buf (phdrAddr w0.mem buf i) k) ∧
        ∀ B, Supplies allocPages (lowMask bits) B → (∀ x, (seg x).paddr ≠ 0#64) →
          (∀ x, Free (lowMask bits) root (seg x) w2) → Free (lowMask bits) root stack w2 → B (3 * tablesPerMap) w2 →
          ∃ w3, (loadAndMap allocPages (lowMask bits) root procMapInfo info baseAttr shouldClflush).run w2 =
            .ok () w3 := by
  obtain ⟨_, w1, hrun1, info, rfl, hparsed, -⟩ := (yields_parseProgramHeader hb hf).returns
  refine ⟨info, w1, hrun1, fun seg stack w2 baseAttr shouldClflush h hbase => ?_⟩
  have hp := hparsed.planned hf h
  have hheap := h.heap _ hparsed.heap
  refine ⟨fun u w3 hrun i hload k hk => ?_, fun B hB hne hfree hstack hn => ?_⟩
  · obtain ⟨hseg, hinfo⟩ := hparsed.loads i hload.1 hload
    obtain ⟨hv, hsize⟩ := h.parsed _ _ hseg
    have hloaded := loadAndMap_spec hbits h hp hbase hheap hrun (isExec w0.mem (phdrAddr w0.mem buf i))
    rw [hinfo] at hloaded
    have hsame : SameFile w0.mem w2.mem buf fileSize := fun a h1 h2 =>
      (h.file a h1 h2).trans (hparsed.sameFile hb hf.aligned a h1 h2)
    exact hloaded.byteThrough_eq hf hload (hp.ok _) hbits hv hsize hsame hk
  · exact loadAndMap_returns hbits hB h hp (fun x => hparsed.agrees h (hne x)) hbase hheap hfree hstack hn

end

/-! ## A small file -/

/-- A file with one executable segment: eight bytes from the offset 120, and as many zero bytes after them. -/
def smallFile : List Word :=
  [0x00010102464C457F#64, 0#64, 0x00000001003E0002#64, 0x400078#64, 64#64, 0#64, 0x0038004000000000#64, 1#64,
    0x0000000500000001#64, 120#64, 0x400078#64, 0x400078#64, 8#64, 16#64, 0x1000#64, 0x90909090909090C3#64]

def smallMem : Mem :=
  WriteBack.Memory.ofInit fun a => if 0x10000 ≤ a then smallFile.getD ((a - 0x10000) / 8) 0#64 else 0#64

theorem isLoad_smallMem_zero : IsLoad smallMem 0x10000#64 0 := ⟨by decide, by decide⟩

theorem isLoad_smallMem {i : Nat} (h : IsLoad smallMem 0x10000#64 i) : i = 0 := by
  have hlt : i < 1 := h.1
  omega

theorem wellFormed_smallMem : WellFormed smallMem 0x10000#64 128 := by
  have hphdr : PhdrOk smallMem (phdrAddr smallMem 0x10000#64 0) 128 :=
    ⟨by decide, by decide, by decide, by decide, by decide⟩
  refine ⟨by decide, by decide, by decide, by decide, by decide, by decide, by decide, by decide, by decide, by decide,
    by decide, fun i hi => ?_, fun i j hi hj _ => ?_, fun i j hi hj hne => ?_⟩
  · obtain rfl := isLoad_smallMem hi
    exact hphdr
  · rw [isLoad_smallMem hi, isLoad_smallMem hj]
  · exact absurd ((isLoad_smallMem hi).trans (isLoad_smallMem hj).symm) hne

def smallStack : SegmentMapping := ⟨0xBEEF0000#64, 0x31000#64, 0x20000#64⟩

/-- What the caller stores into `proc_map_info` after the parser: the pages of the two segments, and the stack. -/
def givePages (m : Mem) : Mem :=
  ((((m.store 0x2008 0x20000#64).store 0x2020 0x30000#64).store
    0x2030 smallStack.vaddr).store 0x2038 smallStack.paddr).store 0x2040 smallStack.mapSize

theorem givePages_load (m : Mem) {a : Nat} (ha : a < 0x2008 ∨ 0x2048 ≤ a ∨ a = 0x2010 ∨ a = 0x2018 ∨ a = 0x2028) :
    (givePages m).load a = m.load a := by
  unfold givePages
  simp only [load_store]
  rw [if_neg (by omega), if_neg (by omega), if_neg (by omega), if_neg (by omega), if_neg (by omega)]

def smallSeg (isCode : Bool) : SegmentMapping :=
  if isCode then ⟨0x400000#64, 0x20000#64, 0x1000#64⟩ else ⟨0#64, 0x30000#64, 0#64⟩

section

variable {w1 : World (List Word)} {info : PhdrMappingInfo}

theorem smallMem_load {a : Nat} (ha : a < 0x10000 ∨ 0x40000 ≤ a) : smallMem.load a = 0#64 := by
  change (if 0x10000 ≤ a then smallFile.getD ((a - 0x10000) / 8) 0#64 else 0#64) = 0#64
  split_ifs with h
  · rw [List.getD_eq_default]
    change 16 ≤ (a - 0x10000) / 8
    omega
  · rfl

theorem smallSeg_bounds {x : Bool} {a : Nat} (h : InPhys (smallSeg x) a) : x = true ∧ 0x20000 ≤ a ∧ a < 0x21000 := by
  cases x
  · have h1 : 0x30000 ≤ a := h.1
    have h2 : a < 0x30000 + 0 := h.2
    omega
  · exact ⟨rfl, h.1, h.2⟩

/-- Pages for tables, from `0x40000` on. -/
structure SmallPages (ps : List Word) : Prop where
  nodup : ps.Nodup
  page : ∀ p ∈ ps, p.toNat % 4096 = 0 ∧ 0x40000 ≤ p.toNat ∧ p.toNat < 2 ^ 46

variable {ps : List Word} (hps : SmallPages ps)

include hps

/-- Memory between the page table and the pages for tables. -/
theorem apart_empty {a : Nat} (h1 : 0x2000 ≤ a) (h2 : a < 0x40000) :
    Apart pageList (lowMask 46) 0x1000#64 (⟨ofInit fun _ => 0#64, ps⟩ : World (List Word)) a := by
  refine ⟨?_, ?_⟩
  · rintro ⟨p, hp, he⟩
    have hpage := hps.page p hp
    change p.toNat = a / 4096 * 4096 at he
    omega
  · rintro va (_ | d) t - ht he
    · cases ht
      change 0x1000 = a / 4096 * 4096 at he
      omega
    · rw [tableAt_empty] at ht
      cases ht

theorem treeInv_small : TreeInv pageList (lowMask 46) 0x1000#64 (⟨ofInit fun _ => 0#64, ps⟩ : World (List Word)) := by
  refine treeInv_empty (by decide) hps.nodup (fun p hp => (hps.page p hp).1) ?_
  intro p hp
  have hpage := hps.page p hp
  change p.toNat ≠ 0x1000
  omega

section

variable (hparsed : Parsed smallMem 0x10000#64 0x2000 1 info w1.mem)

include hparsed

theorem apartStores_small : ApartStores pageList (lowMask 46) 0x1000#64
      (⟨ofInit fun _ => 0#64, ps⟩ : World (List Word)) ⟨givePages w1.mem, ps⟩ := by
  refine ⟨rfl, fun a ha => ?_⟩
  by_contra hnot
  have hout : a < 0x2000 ∨ 0x40000 ≤ a := by
    by_contra hin
    exact hnot (apart_empty hps (by omega) (by omega))
  refine ha ?_
  rw [givePages_load _ (by omega), hparsed.frame a (by unfold ProcessMappingInfo.size; omega), smallMem_load (by omega)]
  rfl

theorem prepared_small : Prepared pageList 46 0x1000#64 0x10000#64 128 0x2000 smallSeg smallStack w1.mem
    (⟨givePages w1.mem, ps⟩ : World (List Word)) := by
  obtain ⟨hkept, hapart⟩ := (apartStores_small hps hparsed).kept (treeInv_small hps)
  have hap : ∀ a, 0x2000 ≤ a → a < 0x40000 → Apart _ (lowMask 46) 0x1000#64 _ a :=
    fun a h1 h2 => hapart a (apart_empty hps h1 h2)
  have hcode : SegmentIs w1.mem 0x2000 ⟨0x400000#64, 0#64, 0x1000#64⟩ :=
    (hparsed.loads 0 (by norm_num) isLoad_smallMem_zero).1
  have hdata : SegmentIs w1.mem 0x2018 ⟨0#64, 0#64, 0#64⟩ := by
    refine (hparsed.empty false fun j hj _ => ?_).1
    obtain rfl : j = 0 := by omega
    decide
  have hin : ∀ {x : Bool} {a : Nat}, InPhys (smallSeg x) a → 0x20000 ≤ a ∧ a < 0x21000 := fun h => (smallSeg_bounds h).2
  refine
    { tree := hkept.inv
      file := fun a h1 h2 => byteAt_congr (givePages_load _ (.inr (.inl ?_)))
      segs := fun x => ?_
      parsed := fun x s hs => ?_
      stackIs := ⟨rfl, rfl, rfl⟩
      heap := fun s hs => hs.frame fun a h1 h2 => givePages_load _ (.inr (.inl h1))
      pages := fun x => ?_
      stackOk := ⟨⟨by decide, by decide⟩, by decide, by decide, by decide⟩
      stackDisjoint := fun x => by cases x <;> exact .inl (by decide)
      fresh := fun x a ha => hap a (by have := hin ha; omega) (by have := hin ha; omega)
      distinct := fun x y hxy a hx hy => hxy ((smallSeg_bounds hx).1.trans (smallSeg_bounds hy).1.symm)
      besideFile := fun x a ha => .inr (by have := hin ha; change 0x10000 + 128 ≤ a; omega)
      besideInfo := fun x a ha => .inr (by have := hin ha; unfold ProcessMappingInfo.size; omega)
      fileApart := fun a h1 h2 => ?_
      infoApart := fun a h1 h2 => hap a h1 (by unfold ProcessMappingInfo.size at h2; omega) }
  · change 0x10000 ≤ a at h1
    unfold wordOf
    omega
  · cases x
    · change SegmentIs _ 0x2018 _
      exact ⟨(givePages_load _ (by omega)).trans hdata.vaddr, rfl, (givePages_load _ (by omega)).trans hdata.mapSize⟩
    · change SegmentIs _ 0x2000 _
      exact ⟨(givePages_load _ (by omega)).trans hcode.vaddr, rfl, (givePages_load _ (by omega)).trans hcode.mapSize⟩
  · cases x
    · exact ⟨hdata.vaddr.symm.trans hs.vaddr, hdata.mapSize.symm.trans hs.mapSize⟩
    · exact ⟨hcode.vaddr.symm.trans hs.vaddr, hcode.mapSize.symm.trans hs.mapSize⟩
  · cases x <;> exact ⟨by decide, by decide⟩
  · change 0x10000 ≤ a at h1
    change a < 0x10000 + 128 at h2
    exact hap a (by omega) (by omega)

theorem free_small (s : SegmentMapping) :
    Free (lowMask 46) 0x1000#64 s (⟨givePages w1.mem, ps⟩ : World (List Word)) := by
  intro va _
  have hsame := (apartStores_small hps hparsed).sameBelow (treeInv_small hps).tree va
  rw [hsame.leaf_eq]
  exact leaf_absent (by simp [isPresent])

end

end

theorem smallPages_from {n : Nat} (hn : n < 2 ^ 29) : SmallPages (pagesFrom 0x40000#64 n) := by
  have hbound : (0x40000#64).toNat + 4096 * n ≤ 2 ^ 64 := by
    change 0x40000 + 4096 * n ≤ 2 ^ 64
    omega
  refine ⟨nodup_pagesFrom hbound, fun p hp => ?_⟩
  obtain ⟨i, hi, hpi⟩ := toNat_of_mem_pagesFrom hbound hp
  change p.toNat = 0x40000 + 4096 * i at hpi
  omega

theorem exists_smallPages : ∃ ps, SmallPages ps ∧ 3 * tablesPerMap ≤ ps.length :=
  ⟨pagesFrom 0x40000#64 (3 * tablesPerMap), smallPages_from (by decide), by simp [pagesFrom]⟩

theorem SmallPages.holds {ps : List Word} (hps : SmallPages ps) : ∀ p ∈ ps, canHoldTable (lowMask 46) p = true := by
  intro p hp
  obtain ⟨h1, -, h2⟩ := hps.page p hp
  exact canHoldTable_of_lt h1 h2

theorem beside_small : Beside 0x2000 0x10000#64 128 := ⟨by decide, .inl (by decide)⟩

/-- What the parser leaves. -/
theorem parsed_small {ps : List Word} {w1 : World (List Word)} {info : PhdrMappingInfo}
    (hrun : (parseProgramHeader 0x10000#64 0x2000).run ⟨smallMem, ps⟩ = .ok (.ok info) w1) :
    Parsed smallMem 0x10000#64 0x2000 1 info w1.mem := by
  obtain ⟨_, he, hparsed, -⟩ := (yields_parseProgramHeader (w := ⟨smallMem, ps⟩) beside_small wellFormed_smallMem).of_ok
    hrun
  cases he
  rwa [show (ePhnum smallMem 0x10000#64).toNat = 1 by decide] at hparsed

theorem load_faithful_small : ∃ (info : PhdrMappingInfo) (w0 w1 w2 w3 : World (List Word)),
    w0.mem = smallMem ∧ (parseProgramHeader 0x10000#64 0x2000).run w0 = .ok (.ok info) w1 ∧
      (loadAndMap allocFromList (lowMask 46) 0x1000#64 0x2000 info kPageAttrUser false).run w2 = .ok () w3 ∧
      ∀ k < 16, byteThrough (lowMask 46) w3.mem 0x1000#64 (0x400078#64 + BitVec.ofNat 64 k) =
        segmentByte smallMem 0x10000#64 0x10040#64 k := by
  obtain ⟨ps, hps, hlen⟩ := exists_smallPages
  obtain ⟨info, w1, hrun1, hload⟩ := load_faithful (A := pageList) (show 46 < 64 by norm_num)
    (show WellFormed (World.mem ⟨smallMem, ps⟩) 0x10000#64 128 from wellFormed_smallMem) beside_small
  have hparsed := parsed_small hrun1
  obtain ⟨hbytes, hreturns⟩ := hload smallSeg smallStack _ kPageAttrUser false (prepared_small hps hparsed) (by decide)
  obtain ⟨w3, hrun3⟩ := hreturns _ (allocFromList_supplies (lowMask 46))
    (by intro x; cases x <;> decide) (fun x => free_small hps hparsed _) (free_small hps hparsed _) ⟨hlen, hps.holds⟩
  have hread := hbytes () w3 hrun3 0 isLoad_smallMem_zero
  dsimp only at hread
  rw [show phdrAddr smallMem 0x10000#64 0 = 0x10040#64 by decide,
    show pMemsz smallMem 0x10040#64 = 16#64 by decide] at hread
  exact ⟨info, _, w1, _, w3, rfl, hrun1, hrun3, hread⟩

end Liumos.Elf
