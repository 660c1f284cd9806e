/-
Updating a window: how much `msync` copies, and how much was allocated for the window when it was made.
Source: syscall.cc.
-/
import Liumos.Syscall.Handler

namespace Liumos.Syscall

open BitVec

/-! ## One call -/

section

variable {hasPages : Word → Bool} {pid addr : Word} {header : BMPHeader} {c : Copy} {s s' : SyscallState}

/-- The width, and the height as the kernel means to compute it. -/
def BMPHeader.width (header : BMPHeader) : Int := header.xsize.toInt

def BMPHeader.height (header : BMPHeader) : Int := -header.ysize.toInt

/-- What an accepted call copies, to a buffer of some pages. -/
def copyOf (header : BMPHeader) (pages : Word) : Copy :=
  ⟨windowAddr + header.offsetToData.setWidth 64, (byteSize header.xsize (-header.ysize)).signExtend 64, pages⟩

/-- The pages that are allocated for a window. -/
def newPages (header : BMPHeader) : Word := byteSizeToPageSize ((byteSize header.xsize (-header.ysize)).signExtend 64)

/-- What a call that is accepted has done. -/
structure Accepted (pid : Word) (header : BMPHeader) (s : SyscallState) (c : Copy) (s' : SyscallState) : Prop where
  height_pos : 0 < header.height
  height_le : (-header.ysize).toInt ≤ 2048
  width_le : header.width ≤ 2048
  src : c.src = windowAddr + header.offsetToData.setWidth 64
  size : c.size = (byteSize header.xsize (-header.ysize)).signExtend 64
  -- the window exists, or is made with the size of this call
  window : (∃ w, (s.perProcess pid).window = some w ∧ c.pages = w.pages ∧ s' = s) ∨
    ((s.perProcess pid).window = none ∧ c.pages = byteSizeToPageSize c.size ∧
      ∃ w, (s'.perProcess pid).window = some w ∧ w.pages = c.pages)

/-- A call is refused, or it gets to the window of its process. -/
theorem run_sysMsync : (sysMsync hasPages pid addr header).run s =
    if addr = windowAddr ∧ 0 < header.height ∧ (-header.ysize).toInt ≤ 2048 ∧ header.width ≤ 2048 then
      match (s.perProcess pid).window with
      | some w => .ok (some (copyOf header w.pages)) s
      | none =>
        if hasPages 1#64 && hasPages (newPages header) then
          .ok (some (copyOf header (newPages header))) (s.setData pid { s.perProcess pid with
            window := some ⟨header.xsize.toInt, (-header.ysize).toInt, newPages header⟩ })
        else .error (.message "Cannot allocate pages") s
    else .ok none s := by
  rw [sysMsync]
  by_cases h1 : addr = windowAddr
  · subst h1
    rw [if_neg (not_not.2 rfl)]
    by_cases h2 : 0 ≤ header.ysize.toInt
    · rw [if_pos h2, if_neg (by unfold BMPHeader.height; omega)]
      rfl
    · rw [if_neg h2]
      dsimp only
      by_cases h3 : 2048 < (-header.ysize).toInt ∨ 2048 < header.xsize.toInt
      · rw [if_pos h3, if_neg (by unfold BMPHeader.width; omega)]
        rfl
      · have hc : windowAddr = windowAddr ∧ 0 < header.height ∧ (-header.ysize).toInt ≤ 2048 ∧ header.width ≤ 2048 := by
          unfold BMPHeader.height BMPHeader.width
          exact ⟨rfl, by omega, by omega, by omega⟩
        rw [if_neg h3, if_pos hc, run_get_bind]
        cases (s.perProcess pid).window with
        | some w => rfl
        | none =>
          by_cases hp : (hasPages 1#64 && hasPages (newPages header)) = true
          · rw [if_pos hp]
            exact congrFun (if_pos hp) s
          · rw [if_neg hp]
            exact congrFun (if_neg hp) s
  · rw [if_pos h1, if_neg (by simp [h1])]
    rfl

theorem accepted_of_run (h : (sysMsync hasPages pid addr header).run s = .ok (some c) s') :
    Accepted pid header s c s' := by
  rw [run_sysMsync] at h
  cases hw : (s.perProcess pid).window with
  | some w =>
    rw [hw] at h
    dsimp only at h
    split_ifs at h with hc
    · cases h
      exact ⟨hc.2.1, hc.2.2.1, hc.2.2.2, rfl, rfl, Or.inl ⟨w, hw, rfl, rfl⟩⟩
    · cases h
  | none =>
    rw [hw] at h
    split_ifs at h with hc hp
    · cases h
      refine ⟨hc.2.1, hc.2.2.1, hc.2.2.2, rfl, rfl,
        Or.inr ⟨hw, rfl, ⟨header.xsize.toInt, (-header.ysize).toInt, newPages header⟩, ?_, rfl⟩⟩
      rw [SyscallState.perProcess_setData, Function.update_self]
    · cases h

/-- A call that is refused changes nothing. -/
theorem eq_of_refused (h : (sysMsync hasPages pid addr header).run s = .ok none s') : s' = s := by
  rw [run_sysMsync] at h
  cases hw : (s.perProcess pid).window with
  | some w =>
    rw [hw] at h
    dsimp only at h
    split_ifs at h
    · cases h
    · cases h
      rfl
  | none =>
    rw [hw] at h
    split_ifs at h
    · cases h
    · cases h
      rfl

/-- A number of type `int`. -/
def IsInt32 (x : Int) : Prop := -2 ^ 31 ≤ x ∧ x < 2 ^ 31

/-- A copy that is what it is meant to be: no computation on its sizes overflows, the pixels lie in the address
space, and they fit the buffer. -/
structure SafeCopy (header : BMPHeader) (c : Copy) : Prop where
  negate : IsInt32 header.height
  mul : IsInt32 (header.width * header.height)
  bytes : IsInt32 (header.width * header.height * 4)
  source : windowAddr.toNat + header.offsetToData.toNat + c.size.toNat ≤ 2 ^ 64
  fits : c.size.toNat ≤ 4096 * c.pages.toNat

/-- The width is not negative, the height is not the one integer without a negative, and the buffer is large enough. -/
structure FitsWindow (header : BMPHeader) (pages : Word) : Prop where
  width : 0 ≤ header.width
  height : header.ysize ≠ BitVec.intMin 32
  fits : 4 * header.width * header.height ≤ 4096 * pages.toNat

theorem isInt32_height_iff : IsInt32 header.height ↔ header.ysize ≠ intMin 32 := by
  have h1 := header.ysize.le_toInt
  have h2 := header.ysize.toInt_lt
  have hmin : (intMin 32).toInt = -2 ^ 31 := by decide
  unfold IsInt32 BMPHeader.height
  rw [ne_eq, ← toInt_inj, hmin]
  omega

theorem toInt_mul_of_isInt32 {x y : BitVec 32} (h : IsInt32 (x.toInt * y.toInt)) :
    (x * y).toInt = x.toInt * y.toInt := by
  rw [toInt_mul]
  obtain ⟨h1, h2⟩ := h
  refine Int.bmod_eq_of_le ?_ ?_
  · exact h1
  · exact h2

/-- The size that is passed to `memcpy`, if nothing overflows. -/
theorem Accepted.size_eq (h : Accepted pid header s c s') (h1 : IsInt32 header.height)
    (h2 : IsInt32 (header.width * header.height)) (h3 : IsInt32 (header.width * header.height * 4)) :
    c.size.toInt = header.width * header.height * 4 := by
  have hneg : (-header.ysize).toInt = header.height := toInt_neg_of_ne_intMin (isInt32_height_iff.1 h1)
  have hmul : (header.xsize * -header.ysize).toInt = header.width * header.height := by
    rw [toInt_mul_of_isInt32 (by rw [hneg]; exact h2), hneg]
    rfl
  have hfour : (4#32).toInt = 4 := by decide
  rw [h.size, toInt_signExtend_of_le (by norm_num), byteSize,
    toInt_mul_of_isInt32 (by rw [hmul, hfour]; exact h3), hmul, hfour]

/-- An accepted copy is safe exactly if the header fits the window. -/
theorem Accepted.safeCopy_iff (h : Accepted pid header s c s') : SafeCopy header c ↔ FitsWindow header c.pages := by
  have hpos := h.height_pos
  have haddr : windowAddr.toNat = 2 ^ 32 := by decide
  have hsize := toInt_eq_toNat_cond c.size
  constructor
  · intro hsafe
    have heq := h.size_eq hsafe.negate hsafe.mul hsafe.bytes
    have hsource := hsafe.source
    have hfits := hsafe.fits
    obtain ⟨hlow, -⟩ := hsafe.bytes
    have hwidth : 0 ≤ header.width := by
      by_contra hneg
      have hmul : header.width * header.height < 0 := Int.mul_neg_of_neg_of_pos (by omega) hpos
      -- a negative size is a huge number of bytes, which cannot all follow the header
      split_ifs at hsize <;> omega
    refine ⟨hwidth, isInt32_height_iff.1 hsafe.negate, ?_⟩
    have hmul : 0 ≤ header.width * header.height := Int.mul_nonneg hwidth hpos.le
    rw [Int.mul_assoc]
    split_ifs at hsize <;> omega
  · intro hfits
    have hneg : IsInt32 header.height := isInt32_height_iff.2 hfits.height
    have hheight : header.height ≤ 2048 := by
      have := h.height_le
      rwa [toInt_neg_of_ne_intMin hfits.height] at this
    have hmul : header.width * header.height ≤ 2048 * 2048 := Int.mul_le_mul h.width_le hheight hpos.le (by norm_num)
    have hmul' : 0 ≤ header.width * header.height := Int.mul_nonneg hfits.width hpos.le
    have hbytes : IsInt32 (header.width * header.height * 4) := ⟨by omega, by omega⟩
    have heq := h.size_eq hneg ⟨by omega, by omega⟩ hbytes
    have hroom := hfits.fits
    rw [Int.mul_assoc] at hroom
    refine ⟨hneg, ⟨by omega, by omega⟩, hbytes, ?_, ?_⟩
    · split_ifs at hsize <;> omega
    · split_ifs at hsize <;> omega

/-- The window that a call makes holds the pixels of this call, if its header is sane. -/
theorem Accepted.fits_of_new (h : Accepted pid header s c s') (hnew : c.pages = byteSizeToPageSize c.size)
    (hwidth : 0 ≤ header.width) (hheight : header.ysize ≠ intMin 32) : FitsWindow header c.pages := by
  refine ⟨hwidth, hheight, ?_⟩
  have hpos := h.height_pos
  have hle : header.height ≤ 2048 := by
    have := h.height_le
    rwa [toInt_neg_of_ne_intMin hheight] at this
  have hmul : header.width * header.height ≤ 2048 * 2048 := Int.mul_le_mul h.width_le hle hpos.le (by norm_num)
  have hmul' : 0 ≤ header.width * header.height := Int.mul_nonneg hwidth hpos.le
  have heq := h.size_eq (isInt32_height_iff.2 hheight) ⟨by omega, by omega⟩ ⟨by omega, by omega⟩
  have hsize := toInt_eq_toNat_cond c.size
  have hpages : (byteSizeToPageSize c.size).toNat = _ := pageCount_eq (by omega)
  rw [Int.mul_assoc, hnew, hpages]
  omega

end

/-! ## Runs -/

/-- A call of a run: the header it found, the state before it, and what it copied if it was accepted. -/
structure MsyncStep where
  header : BMPHeader
  before : SyscallState
  copied : Option Copy

/-- The calls of the process since it had no window, the last one first, and the state after them. -/
inductive MsyncRun (pid : Word) : List MsyncStep → SyscallState → Prop
  | init {s : SyscallState} (h : (s.perProcess pid).window = none) : MsyncRun pid [] s
  | call {path : List MsyncStep} {s s' : SyscallState} {hasPages : Word → Bool} {addr : Word} {header : BMPHeader}
      {copied : Option Copy} (hrun : MsyncRun pid path s)
      (h : (sysMsync hasPages pid addr header).run s = .ok copied s') : MsyncRun pid (⟨header, s, copied⟩ :: path) s'

/-- What a call has to find: a sane header, and if the window exists already, pixels that fit its buffer. -/
structure MsyncStep.Fits (pid : Word) (step : MsyncStep) : Prop where
  width : 0 ≤ step.header.width
  height : step.header.ysize ≠ BitVec.intMin 32
  fits : ∀ w, (step.before.perProcess pid).window = some w → 4 * step.header.width * step.header.height ≤
    4096 * w.pages.toNat

section

variable {pid : Word} {path : List MsyncStep} {s : SyscallState}

/-- A window stays as it is. -/
theorem window_of_run {hasPages : Word → Bool} {addr : Word} {header : BMPHeader} {copied : Option Copy}
    {s' : SyscallState} {w : Window} (h : (sysMsync hasPages pid addr header).run s = .ok copied s')
    (hw : (s.perProcess pid).window = some w) : (s'.perProcess pid).window = some w := by
  cases copied with
  | none => rw [eq_of_refused h, hw]
  | some c =>
    rcases (accepted_of_run h).window with ⟨_, -, -, rfl⟩ | ⟨hnone, -⟩
    · exact hw
    · rw [hw] at hnone
      cases hnone

/-- All accepted calls of a run copy to the buffer that the first of them allocated. -/
theorem MsyncRun.window (hrun : MsyncRun pid path s) :
    ∀ step ∈ path, ∀ c, step.copied = some c → ∃ w, (s.perProcess pid).window = some w ∧ c.pages = w.pages := by
  induction hrun with
  | init h => simp
  | call hrun h ih =>
    intro step hstep c hc
    rcases List.mem_cons.1 hstep with rfl | hstep
    · subst hc
      rcases (accepted_of_run h).window with ⟨w, hw, hpages, rfl⟩ | ⟨-, -, w, hw, hpages⟩
      · exact ⟨w, hw, hpages⟩
      · exact ⟨w, hw, hpages.symm⟩
    · obtain ⟨w, hw, hpages⟩ := ih step hstep c hc
      exact ⟨w, window_of_run h hw, hpages⟩

/-- Whether the copy of a call is safe. -/
theorem MsyncRun.safeCopy_iff (hrun : MsyncRun pid path s) :
    ∀ step ∈ path, ∀ c, step.copied = some c → (SafeCopy step.header c ↔ step.Fits pid) := by
  induction hrun with
  | init h => simp
  | call hrun h ih =>
    intro step hstep c hc
    rcases List.mem_cons.1 hstep with rfl | hstep
    · subst hc
      have hacc := accepted_of_run h
      rw [hacc.safeCopy_iff]
      constructor
      · intro hfits
        refine ⟨hfits.width, hfits.height, fun w hw => ?_⟩
        rcases hacc.window with ⟨_, hw', hpages, -⟩ | ⟨hnone, -⟩
        · cases hw.symm.trans hw'
          rw [← hpages]
          exact hfits.fits
        · cases hw.symm.trans hnone
      · intro hfits
        rcases hacc.window with ⟨w, hw, hpages, -⟩ | ⟨-, hpages, -⟩
        · refine ⟨hfits.width, hfits.height, ?_⟩
          rw [hpages]
          exact hfits.fits w hw
        · exact hacc.fits_of_new hpages hfits.width hfits.height
    · exact ih step hstep c hc

/-- In every run of calls, all accepted calls copy to the buffer that the first of them allocated, and all copies are
safe exactly if every accepted call finds a sane header, with pixels that fit that buffer. -/
theorem msync_safeCopy_iff (hrun : MsyncRun pid path s) :
    (∀ step ∈ path, ∀ step' ∈ path, ∀ c c', step.copied = some c → step'.copied = some c' → c.pages = c'.pages) ∧
    ((∀ step ∈ path, ∀ c, step.copied = some c → SafeCopy step.header c) ↔
      ∀ step ∈ path, step.copied.isSome → step.Fits pid) := by
  refine ⟨?_, ?_, ?_⟩
  · intro step hstep step' hstep' c c' hc hc'
    obtain ⟨_, hw, hpages⟩ := hrun.window step hstep c hc
    obtain ⟨_, hw', hpages'⟩ := hrun.window step' hstep' c' hc'
    cases hw.symm.trans hw'
    rw [hpages, hpages']
  · intro hsafe step hstep hsome
    obtain ⟨c, hc⟩ := Option.isSome_iff_exists.1 hsome
    exact (hrun.safeCopy_iff step hstep c hc).1 (hsafe step hstep c hc)
  · intro hfits step hstep c hc
    exact (hrun.safeCopy_iff step hstep c hc).2 (hfits step hstep (by simp [hc]))

end

/-- A header of a window. -/
def headerOf (xsize ysize : Int) : BMPHeader := ⟨54#32, BitVec.ofInt 32 xsize, BitVec.ofInt 32 (-ysize)⟩

/-- A window of 32 by 32 pixels, a header that is refused, and two updates of the window. -/
theorem msync_updates : ∃ path s, MsyncRun 1#64 path s ∧ path.map (·.copied.isSome) = [true, true, false, true] ∧
    ∀ step ∈ path, ∀ c, step.copied = some c → SafeCopy step.header c := by
  have hrun : MsyncRun 1#64 _ _ := .call (.call (.call (.call (.init (s := .initial) rfl)
    (rfl : (sysMsync (fun _ => true) 1#64 windowAddr (headerOf 32 32)).run .initial = _))
    (rfl : (sysMsync (fun _ => true) 1#64 windowAddr (headerOf 4096 1)).run _ = _))
    (rfl : (sysMsync (fun _ => true) 1#64 windowAddr (headerOf 16 8)).run _ = _))
    (rfl : (sysMsync (fun _ => true) 1#64 windowAddr (headerOf 8 128)).run _ = _)
  refine ⟨_, _, hrun, rfl, (msync_safeCopy_iff hrun).2.2 ?_⟩
  intro step hstep haccepted
  simp only [List.mem_cons, List.not_mem_nil, or_false] at hstep
  rcases hstep with rfl | rfl | rfl | rfl
  case inr.inr.inl => cases haccepted
  all_goals exact ⟨by decide, by decide, by rintro _ ⟨⟩ <;> decide⟩

/-- After a window of one pixel an update of 64 by 64 pixels copies 16384 bytes to a buffer of 4096. -/
theorem msync_outside : ∃ path s, MsyncRun 1#64 path s ∧ ∃ step ∈ path, ∃ c, step.copied = some c ∧
    c.size = 16384#64 ∧ c.pages = 1#64 ∧ ¬SafeCopy step.header c := by
  have hrun : MsyncRun 1#64 _ _ := .call (.call (.init (s := .initial) rfl)
    (rfl : (sysMsync (fun _ => true) 1#64 windowAddr (headerOf 1 1)).run .initial = _))
    (rfl : (sysMsync (fun _ => true) 1#64 windowAddr (headerOf 64 64)).run _ = _)
  refine ⟨_, _, hrun, _, List.mem_cons_self, _, rfl, by decide, by decide, fun hsafe => ?_⟩
  exact absurd hsafe.fits (by decide)

end Liumos.Syscall
