/-
`ParseProgramHeader` on a well-formed file: it returns, with the code and the data segment laid out as
their program headers say.
-/
import Liumos.Elf.Parse

namespace Liumos.Elf

open Process

/-! ## Well-formed files -/

/-- The `i`-th program header. -/
def phdrAddr (m : Mem) (buf : Word) (i : Nat) : Word := buf + ePhoff m buf + ePhentsize m buf * BitVec.ofNat 64 i

/-- The `i`-th program header is that of a segment to be loaded. -/
def IsLoad (m : Mem) (buf : Word) (i : Nat) : Prop := i < (ePhnum m buf).toNat ∧ pType m (phdrAddr m buf i) = PT_LOAD

/-- The segment of a program header is executable. -/
def isExec (m : Mem) (phdr : Word) : Bool := pFlags m phdr &&& PF_X != 0#64

/-- The segment that a program header asks for, before it has physical pages. -/
def segmentOf (m : Mem) (phdr : Word) : SegmentMapping :=
  ⟨floorToPageAlignment (pVaddr m phdr), 0#64,
    ceilToPageAlignment (pMemsz m phdr + (pVaddr m phdr - floorToPageAlignment (pVaddr m phdr)))⟩

/-- What is to be copied for a program header. -/
def infoOf (m : Mem) (buf phdr : Word) : PhdrInfo :=
  ⟨buf + floorToPageAlignment (pOffset m phdr), (segmentOf m phdr).vaddr, (segmentOf m phdr).mapSize,
    pFilesz m phdr + (pVaddr m phdr - (segmentOf m phdr).vaddr)⟩

/-- The pages of a segment and those of another are different. -/
def PageDisjoint (s s' : SegmentMapping) : Prop :=
  s.vaddr.toNat + s.mapSize.toNat ≤ s'.vaddr.toNat ∨ s'.vaddr.toNat + s'.mapSize.toNat ≤ s.vaddr.toNat

/-- A program header of a segment in the lower half. -/
structure PhdrOk (m : Mem) (phdr : Word) (fileSize : Nat) : Prop where
  align : (pAlign m phdr).toNat % 4096 = 0
  filesz : (pFilesz m phdr).toNat ≤ (pMemsz m phdr).toNat
  congruent : (pOffset m phdr).toNat % 4096 = (pVaddr m phdr).toNat % 4096
  inFile : (pOffset m phdr).toNat + (pFilesz m phdr).toNat ≤ fileSize
  lowerHalf : (pVaddr m phdr).toNat + (pMemsz m phdr).toNat ≤ 2 ^ 47

/-- The file of `fileSize` bytes at `buf` is a well-formed ELF64 file, with at most one segment of each kind. -/
structure WellFormed (m : Mem) (buf : Word) (fileSize : Nat) : Prop where
  aligned : buf.toNat % 4096 = 0
  inMemory : buf.toNat + fileSize < 2 ^ 64
  mag : eIdentMag m buf = ELFMAG
  elfClass : eIdentClass m buf = ELFCLASS64
  data : eIdentData m buf = ELFDATA2LSB
  osabi : eIdentOsabi m buf = ELFOSABI_SYSV
  type : eType m buf = ET_EXEC
  machine : eMachine m buf = EM_X86_64
  header : 64 ≤ fileSize
  entsize : ePhentsize m buf = 56#64
  table : (ePhoff m buf).toNat + 56 * (ePhnum m buf).toNat ≤ fileSize
  phdrs : ∀ i, IsLoad m buf i → PhdrOk m (phdrAddr m buf i) fileSize
  single : ∀ i j, IsLoad m buf i → IsLoad m buf j → isExec m (phdrAddr m buf i) = isExec m (phdrAddr m buf j) → i = j
  disjoint : ∀ i j, IsLoad m buf i → IsLoad m buf j → i ≠ j →
    PageDisjoint (segmentOf m (phdrAddr m buf i)) (segmentOf m (phdrAddr m buf j))

/-- The bytes of the file are those of `m`. -/
def SameFile (m m' : Mem) (buf : Word) (fileSize : Nat) : Prop :=
  ∀ a, buf.toNat ≤ a → a < buf.toNat + fileSize → byteAt m' a = byteAt m a

section

variable {m m' : Mem} {buf : Word} {fileSize i : Nat}

variable {off n : Nat} {p : Word}

theorem field_congr (h : SameFile m m' buf fileSize) (h1 : buf.toNat ≤ p.toNat)
    (h2 : p.toNat + off + n ≤ buf.toNat + fileSize) : field off n m' p = field off n m p :=
  leWord_congr fun i hi => h _ (by omega) (by omega)

theorem WellFormed.phdr_toNat (h : WellFormed m buf fileSize) (hi : i < (ePhnum m buf).toNat) :
    (phdrAddr m buf i).toNat = buf.toNat + (ePhoff m buf).toNat + 56 * i := by
  have := h.table
  have := h.inMemory
  unfold phdrAddr
  rw [h.entsize, BitVec.toNat_add, BitVec.toNat_add, BitVec.toNat_mul, BitVec.toNat_ofNat, BitVec.toNat_ofNat]
  omega

section

variable (h : WellFormed m buf fileSize) (hs : SameFile m m' buf fileSize)

include h hs

theorem WellFormed.ehdr_congr (hn : off + n ≤ 64) : field off n m' buf = field off n m buf := by
  have := h.header
  exact field_congr hs (le_refl _) (by omega)

theorem WellFormed.phdr_congr (hi : i < (ePhnum m buf).toNat)
    (hn : off + n ≤ 56) : field off n m' (phdrAddr m buf i) = field off n m (phdrAddr m buf i) := by
  have := h.phdr_toNat hi
  have := h.table
  exact field_congr hs (by omega) (by omega)

theorem WellFormed.phdrAddr_congr (i : Nat) :
    buf + ePhoff m' buf + ePhentsize m' buf * BitVec.ofNat 64 i = phdrAddr m buf i := by
  unfold phdrAddr ePhoff ePhentsize
  rw [h.ehdr_congr hs (by omega), h.ehdr_congr hs (by omega)]

end

/-! ## The loop -/

/-- The place of the code segment, or of the data segment. -/
def slot (procMapInfo : Nat) (isCode : Bool) : Nat :=
  if isCode then ProcessMappingInfo.code procMapInfo else ProcessMappingInfo.data procMapInfo

def PhdrMappingInfo.slot (info : PhdrMappingInfo) (isCode : Bool) : PhdrInfo := if isCode then info.code else info.data

/-- `proc_map_info` lies beside the file. -/
structure Beside (procMapInfo : Nat) (buf : Word) (fileSize : Nat) : Prop where
  aligned : procMapInfo % 8 = 0
  disjoint : procMapInfo + ProcessMappingInfo.size ≤ buf.toNat ∨ buf.toNat + fileSize ≤ procMapInfo

/-- After `i` program headers: the segments of those that were loads are laid out, and the others empty. -/
structure Parsed (m0 : Mem) (buf : Word) (procMapInfo i : Nat) (info : PhdrMappingInfo) (m : Mem) : Prop where
  frame : SameOutside procMapInfo (procMapInfo + ProcessMappingInfo.size) m0 m
  heap : SegmentIs m (ProcessMappingInfo.heap procMapInfo) ⟨0#64, 0#64, 0#64⟩
  empty : ∀ x, (∀ j < i, IsLoad m0 buf j → isExec m0 (phdrAddr m0 buf j) ≠ x) →
    SegmentIs m (slot procMapInfo x) ⟨0#64, 0#64, 0#64⟩ ∧ info.slot x = PhdrInfo.clear
  loads : ∀ j < i, IsLoad m0 buf j →
    SegmentIs m (slot procMapInfo (isExec m0 (phdrAddr m0 buf j))) (segmentOf m0 (phdrAddr m0 buf j)) ∧
      info.slot (isExec m0 (phdrAddr m0 buf j)) = infoOf m0 buf (phdrAddr m0 buf j)

theorem sameFile_of_frame {procMapInfo : Nat} (hb : Beside procMapInfo buf fileSize) (hbuf : buf.toNat % 4096 = 0)
    (h : SameOutside procMapInfo (procMapInfo + ProcessMappingInfo.size) m m') : SameFile m m' buf fileSize := by
  intro a h1 h2
  refine byteAt_congr (h _ ?_)
  have := hb.disjoint
  unfold wordOf
  omega

variable {procMapInfo : Nat} {info : PhdrMappingInfo}

theorem Parsed.sameFile (h : Parsed m buf procMapInfo i info m') (hb : Beside procMapInfo buf fileSize)
    (hbuf : buf.toNat % 4096 = 0) : SameFile m m' buf fileSize := sameFile_of_frame hb hbuf h.frame

theorem Parsed.skip (h : Parsed m buf procMapInfo i info m') (hi : ¬ IsLoad m buf i) :
    Parsed m buf procMapInfo (i + 1) info m' := by
  refine ⟨h.frame, h.heap, fun x hx => h.empty x fun j hj => hx j (by omega), fun j hj hl => h.loads j ?_ hl⟩
  rcases Nat.lt_succ_iff_lt_or_eq.1 hj with hlt | rfl
  · exact hlt
  · exact absurd hl hi

theorem slot_other (procMapInfo : Nat) {x y : Bool} (hxy : x ≠ y) :
    slot procMapInfo x + 24 ≤ slot procMapInfo y ∨ slot procMapInfo y + 24 ≤ slot procMapInfo x := by
  cases x <;> cases y <;> simp_all [slot, ProcessMappingInfo.code, ProcessMappingInfo.data]

theorem slot_bounds (procMapInfo : Nat) (x : Bool) :
    procMapInfo ≤ slot procMapInfo x ∧ slot procMapInfo x + 24 ≤ ProcessMappingInfo.heap procMapInfo := by
  cases x <;> simp [slot, ProcessMappingInfo.code, ProcessMappingInfo.data, ProcessMappingInfo.heap]

def PhdrMappingInfo.setSlot (info : PhdrMappingInfo) (isCode : Bool) (p : PhdrInfo) : PhdrMappingInfo :=
  if isCode then { info with code := p } else { info with data := p }

theorem PhdrMappingInfo.slot_setSlot (info : PhdrMappingInfo) (x y : Bool) (p : PhdrInfo) :
    (info.setSlot x p).slot y = if y = x then p else info.slot y := by
  cases x <;> cases y <;> rfl

/-- Laying out the segment of the next program header. -/
theorem Parsed.load (hf : WellFormed m buf fileSize) (h : Parsed m buf procMapInfo i info m') (hi : IsLoad m buf i)
    {m'' : Mem} (hseg : SegmentIs m'' (slot procMapInfo (isExec m (phdrAddr m buf i))) (segmentOf m (phdrAddr m buf i)))
    (hframe : SameOutside (slot procMapInfo (isExec m (phdrAddr m buf i)))
      (slot procMapInfo (isExec m (phdrAddr m buf i)) + 24) m' m'') :
    Parsed m buf procMapInfo (i + 1) (info.setSlot (isExec m (phdrAddr m buf i)) (infoOf m buf (phdrAddr m buf i)))
      m'' := by
  have hother : ∀ {x : Bool} {s : SegmentMapping}, x ≠ isExec m (phdrAddr m buf i) →
    SegmentIs m' (slot procMapInfo x) s →
      SegmentIs m'' (slot procMapInfo x) s := by
    intro x s hx hs
    refine hs.frame fun a _ _ => hframe a ?_
    have := slot_other procMapInfo hx
    omega
  have hbound := slot_bounds procMapInfo (isExec m (phdrAddr m buf i))
  refine ⟨?_, ?_, ?_, ?_⟩
  · intro x hx
    rw [hframe x, h.frame x hx]
    unfold ProcessMappingInfo.heap at hbound
    unfold ProcessMappingInfo.size at hx
    omega
  · exact h.heap.frame fun a _ _ => hframe a (by omega)
  · intro x hx
    have hne : x ≠ isExec m (phdrAddr m buf i) := (hx i (Nat.lt_succ_self i) hi).symm
    rw [PhdrMappingInfo.slot_setSlot, if_neg hne]
    obtain ⟨hs, hinfo⟩ := h.empty x fun j hj => hx j (by omega)
    exact ⟨hother hne hs, hinfo⟩
  · intro j hj hl
    rw [PhdrMappingInfo.slot_setSlot]
    rcases Nat.lt_succ_iff_lt_or_eq.1 hj with hlt | rfl
    · have hne : isExec m (phdrAddr m buf j) ≠ isExec m (phdrAddr m buf i) := by
        intro he
        have := hf.single j i hl hi he
        omega
      rw [if_neg hne]
      obtain ⟨hs, hinfo⟩ := h.loads j hlt hl
      exact ⟨hother hne hs, hinfo⟩
    · rw [if_pos rfl]
      exact ⟨hseg, rfl⟩

theorem yields_read {σ : Type} {E : Panic → Prop} {f : Mem → Word → Word} {w : World σ} {Q : Word → World σ → Prop}
    (h : Q (f w.mem p) w) : Yields E (read f p) w Q := h

theorem isAlignedToPageSize_iff (v : Word) : isAlignedToPageSize v = true ↔ v.toNat % 4096 = 0 :=
  Paging.beq_kPageAddrMask_iff v

variable {σ : Type}

theorem yields_parseLoop (hf : WellFormed m buf fileSize) (hb : Beside procMapInfo buf fileSize) :
    ∀ (n i : Nat) {info : PhdrMappingInfo} {w : World σ}, i + n = (ePhnum m buf).toNat → Parsed m buf procMapInfo i info
      w.mem → Yields (fun _ => False) (parseLoop buf procMapInfo n i info) w fun info' w' =>
        Parsed m buf procMapInfo (ePhnum m buf).toNat info' w'.mem ∧ w'.alloc = w.alloc
  | 0, i, info, w, hi, h => by
    obtain rfl : i = (ePhnum m buf).toNat := hi
    exact ⟨h, rfl⟩
  | n + 1, i, info, w, hi, h => by
    have hs := h.sameFile hb hf.aligned
    have hlt : i < (ePhnum m buf).toNat := by omega
    rw [parseLoop]
    refine (yields_read ?_).bind
    refine (yields_read ?_).bind
    rw [hf.phdrAddr_congr hs i]
    refine (yields_read ?_).bind
    have htype : pType w.mem (phdrAddr m buf i) = pType m (phdrAddr m buf i) := hf.phdr_congr hs hlt (by omega)
    rw [htype]
    split
    · rename_i hne
      exact yields_parseLoop hf hb n (i + 1) (by omega) (h.skip fun hl => hne hl.2)
    · rename_i hload
      have hl : IsLoad m buf i := ⟨hlt, not_not.1 hload⟩
      have hfield : ∀ {off n' : Nat}, off + n' ≤ 56 → ∀ {m' : Mem}, SameFile m m' buf fileSize →
          field off n' m' (phdrAddr m buf i) = field off n' m (phdrAddr m buf i) :=
          fun hn _ hs' => hf.phdr_congr hs' hlt hn
      have halign : isAlignedToPageSize (pAlign w.mem (phdrAddr m buf i)) = true := by
        rw [isAlignedToPageSize_iff, show pAlign w.mem _ = pAlign m _ from hfield (by omega) hs]
        exact (hf.phdrs i hl).align
      have hflags : (pFlags w.mem (phdrAddr m buf i) &&& PF_X != 0#64) = isExec m (phdrAddr m buf i) := by
        rw [show pFlags w.mem _ = pFlags m _ from hfield (by omega) hs]
        rfl
      -- no earlier program header has taken the place
      have hempty := (h.empty (isExec m (phdrAddr m buf i)) fun j hj hlj he => by
        have := hf.single j i hlj hl he
        omega).1
      refine (yields_read ?_).bind
      refine (yields_assert halign ?_).bind
      refine (yields_read ?_).bind
      rw [hflags]
      refine yields_load_bind ?_
      refine (yields_assert (by rw [← slot, hempty.mapSize]; rfl) ?_).bind
      refine (yields_read ?_).bind
      refine (yields_read ?_).bind
      refine (yields_read ?_).bind
      refine (yields_set fun m1 hseg hframe => ?_).bind
      have hs1 : SameFile m m1 buf fileSize := by
        refine sameFile_of_frame hb hf.aligned fun x hx => ?_
        have hbound := slot_bounds procMapInfo (isExec m (phdrAddr m buf i))
        rw [hframe x, h.frame x hx]
        unfold ProcessMappingInfo.size at hx
        unfold ProcessMappingInfo.heap slot at hbound
        omega
      refine (yields_read ?_).bind
      refine yields_load_bind ?_
      refine yields_load_bind ?_
      refine (yields_read ?_).bind
      refine (yields_read ?_).bind
      refine yields_load_bind ?_
      have hv : pVaddr w.mem (phdrAddr m buf i) = pVaddr m (phdrAddr m buf i) := hfield (by omega) hs
      have hm : pMemsz w.mem (phdrAddr m buf i) = pMemsz m (phdrAddr m buf i) := hfield (by omega) hs
      have hv1 : pVaddr m1 (phdrAddr m buf i) = pVaddr m (phdrAddr m buf i) := hfield (by omega) hs1
      have hfs1 : pFilesz m1 (phdrAddr m buf i) = pFilesz m (phdrAddr m buf i) := hfield (by omega) hs1
      have ho1 : pOffset m1 (phdrAddr m buf i) = pOffset m (phdrAddr m buf i) := hfield (by omega) hs1
      rw [hv, hm] at hseg
      rw [hseg.vaddr, hseg.mapSize, hv1, hfs1, ho1]
      exact yields_parseLoop hf hb n (i + 1) (by omega) (h.load hf hl hseg hframe)

/-- The whole parser. -/
theorem yields_parseProgramHeader (hb : Beside procMapInfo buf fileSize) {w : World σ}
    (hf : WellFormed w.mem buf fileSize) :
    Yields (fun _ => False) (parseProgramHeader buf procMapInfo) w fun r w' =>
      ∃ info, r = .ok info ∧ Parsed w.mem buf procMapInfo (ePhnum w.mem buf).toNat info w'.mem ∧
      w'.alloc = w.alloc := by
  unfold parseProgramHeader
  refine (yields_clearInfo fun m1 hseg hframe => ?_).bind
  have hs1 := sameFile_of_frame hb hf.aligned hframe
  have hfield : ∀ {off n : Nat}, off + n ≤ 64 → field off n m1 buf = field off n w.mem buf :=
    fun hn => hf.ehdr_congr hs1 hn
  refine (yields_assert ((isAlignedToPageSize_iff buf).2 hf.aligned) ?_).bind
  have hload : Yields (fun _ => False) (ensureLoadable buf) { w with mem := m1 } fun r w' => r = none ∧
      w' = { w with mem := m1 } := by
    unfold ensureLoadable
    refine (yields_read ?_).bind
    rw [if_neg (by rw [not_not, eIdentMag, hfield (by omega)]; exact hf.mag)]
    refine (yields_read ?_).bind
    rw [if_neg (by rw [not_not, eIdentClass, hfield (by omega)]; exact hf.elfClass)]
    refine (yields_read ?_).bind
    rw [if_neg (by rw [not_not, eIdentData, hfield (by omega)]; exact hf.data)]
    refine (yields_read ?_).bind
    rw [if_neg (by rw [not_not, eIdentOsabi, hfield (by omega)]; exact hf.osabi)]
    refine (yields_read ?_).bind
    rw [if_neg (by rw [not_not, eType, hfield (by omega)]; exact hf.type)]
    refine (yields_read ?_).bind
    rw [if_neg (by rw [not_not, eMachine, hfield (by omega)]; exact hf.machine)]
    exact ⟨rfl, rfl⟩
  refine (hload.mono ?_).bind
  rintro _ _ ⟨rfl, rfl⟩
  refine (yields_read ?_).bind
  rw [show ePhnum m1 buf = ePhnum w.mem buf from hfield (by omega)]
  have h0 : Parsed w.mem buf procMapInfo 0 .clear m1 := by
    refine ⟨hframe, hseg 3 (by omega), fun x _ => ⟨?_, by cases x <;> rfl⟩, fun j hj => absurd hj (Nat.not_lt_zero j)⟩
    cases x
    · exact hseg 1 (by omega)
    · exact hseg 0 (by omega)
  refine ((yields_parseLoop hf hb _ 0 (Nat.zero_add _) h0).mono ?_).bind
  rintro info w' ⟨hparsed, halloc⟩
  exact ⟨info, rfl, hparsed, halloc⟩

end

end Liumos.Elf
