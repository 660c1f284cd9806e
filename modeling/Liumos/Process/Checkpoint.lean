/-
Checkpoints of a persistent process. The process runs on its working context: it writes to its data and
stack segments through the working page table, which sets dirty bits, and the kernel saves its registers
there; `SwitchContext` makes a checkpoint of it. A crash can lose every store that no later flush of its
line covers.

`SwitchContext` flushes the data pages that are dirty in the page table. The data it copies into the new
working context is written through the straight mapping, so these pages are neither flushed nor dirty: the
next checkpoint contains them as they are in the cache, and a crash can lose them. Checkpoints are
consistent as long as each call finds every data page dirty, or with no store that can still be lost.
Sources: execution_context.h, execution_context.cc, paging.cc (`FlushDirtyPages`).
-/
import Liumos.Process.Switch

namespace Liumos.Process

open Layout (owns_ctx owns_word)
open Paging WriteBack PersistentProcessInfo ExecutionContext BitVec

variable {σ : Type}

/-! ## Process states -/

/-- The CPU registers and the data segment of a process. -/
structure ProcessState where
  registers : List Word
  data : List Word
  deriving DecidableEq, Repr

/-- The `n` words from `a` on. -/
def readWords (read : Nat → Word) (a n : Nat) : List Word := (List.range n).map fun i => read (a + 8 * i)

/-- The state held in the context at `ctx`. -/
def stateAt (read : Nat → Word) (ctx : Nat) : ProcessState where
  registers := readWords read ctx cpuContextWords
  data := readWords read (read (dataAddr ctx + 8)).toNat
    ((read (dataAddr ctx + 16)).toNat / 8)

/-- What is found after a crash: the state in the context that the persisted `valid_ctx_idx_` selects. -/
def recovered (info : Nat) (f : Nat → Word) : Option ProcessState :=
  let idx := (low32 (f (validCtxIdxAddr info))).toInt
  if 0 ≤ idx ∧ idx < kNumOfExecutionContext then some (stateAt f (ctxAddr info idx.toNat)) else none

/-- The index of the working context. -/
def Layout.working (L : Layout) (m : Mem) : Fin 2 := if low32 (m.load L.idx) = 0#32 then 1 else 0

/-- The state of the running process. -/
def Layout.workingState (L : Layout) (m : Mem) : ProcessState := stateAt m.load (L.ctx (L.working m))

/-! ## Runs -/

/-- A store of the process to `vaddr`. The processor sets the dirty bit of the entry that maps it; without
such an entry there is a page fault and nothing is stored. -/
def processStore (mask pml4 vaddr value : Word) : WM σ Unit := do
  let w ← get
  match leaf mask w.mem 3 pml4 vaddr with
  | none => pure ()
  | some (_, a) => do
    store a (setDirtyBit (w.mem.load a))
    store (v2p mask w.mem 3 pml4 vaddr).toNat value

/-- What happens while the process runs: it stores to memory, the kernel saves a register, something else
is stored or flushed elsewhere, or `SwitchContext` is called. -/
inductive Event where
  | write (vaddr value : Word)
  | saveRegister (k : Nat) (value : Word)
  | other (addr : Nat) (value : Word)
  | flush (addr : Nat)
  | switchContext

def Event.exec (mask : Word) (info : Nat) : Event → WM σ Unit
  | .write vaddr value => do
    let pml4 ← getCR3 (← getWorkingContext info)
    processStore mask pml4 vaddr value
  | .saveRegister k value => do
    let working ← getWorkingContext info
    store (working + 8 * k) value
  | .other addr value => store addr value
  | .flush addr => clflush addr
  | .switchContext => PersistentProcessInfo.switchContext mask info

/-- Which events can happen: a process stores to its data and its stack, a saved `cr3` is that of the
working context, and other stores stay off the pages of the process. -/
def Event.Allowed (L : Layout) (m : Mem) : Event → Prop
  | .write vaddr _ => ∃ s, (s = L.data (L.working m) ∨ s = L.stack (L.working m)) ∧
      ∃ j, 8 * j < s.mapSize.toNat ∧ vaddr = s.vaddr + BitVec.ofNat 64 (8 * j)
  | .saveRegister k value => k < cpuContextWords ∧ (k = 0 → value = L.cr3 (L.working m))
  | .other addr _ => L.owner (pageOf addr) = none
  | .flush _ => True
  | .switchContext => True

/-- Memory, and the process state at the last `SwitchContext` that returned. -/
structure State (σ : Type) where
  world : World σ
  last : Option ProcessState

def State.after (L : Layout) (s : State σ) (e : Event) (world : World σ) : State σ :=
  match e with
  | .switchContext => ⟨world, some (L.workingState s.world.mem)⟩
  | _ => ⟨world, s.last⟩

/-- The words of the context `v` and of its data segment. -/
def Footprint (L : Layout) (v : Fin 2) (x : Nat) : Prop :=
  (∃ k < 99, x = L.ctx v + 8 * k) ∨ ∃ j, 8 * j < (L.data v).mapSize.toNat ∧ x = (L.data v).word j

/-- A crash leaves context `v` and its data segment as they are in `r`. -/
structure Saved (L : Layout) (v : Fin 2) (m : Mem) (r : Nat → Word) : Prop where
  paddr : r (dataAddr (L.ctx v) + 8) = (L.data v).paddr
  mapSize : r (dataAddr (L.ctx v) + 16) = (L.data v).mapSize
  durable : ∀ x, Footprint L v x → Durable line m x (r x)

/-- Memory between two events: context `v` is valid, and holds the last checkpoint if there is one. -/
structure Intact (L : Layout) (v : Fin 2) (m : Mem) (last : Option ProcessState) : Prop where
  fixed : Fixed L m
  idx : ∃ word, Durable line m L.idx word ∧ low32 word = BitVec.ofNat 32 v
  last : ∀ st, last = some st → ∃ r, Saved L v m r ∧ st = stateAt r (L.ctx v)

/-- The runs of a process in which every call of `SwitchContext` meets `C`. A run starts without a
checkpoint, or with one that is intact. -/
inductive Run (L : Layout) (C : Mem → Prop) : State σ → Prop
  | init {v : Fin 2} {s : State σ} : Intact L v s.world.mem s.last → Run L C s
  | step {s : State σ} {e : Event} {w' : World σ} : Run L C s → e.Allowed L s.world.mem →
      (e = .switchContext → C s.world.mem) → (e.exec L.mask L.info).run s.world = .ok () w' → Run L C (s.after L e w')

/-- Page `k` of the data segment of context `u` is dirty in its page table. -/
def DirtyPage (L : Layout) (u : Fin 2) (m : Mem) (k : Nat) : Prop :=
  ∃ l a, leaf L.mask m 3 (L.cr3 u) (pageAddr (L.data u).vaddr k) = some (l, a) ∧ isDirty (m.load a) = true

/-- Every page of the working data segment is dirty in the working page table, or none of its words has a
store that a crash can still lose. -/
def FlushReady (L : Layout) (m : Mem) : Prop :=
  ∀ k, 4096 * k < (L.data (L.working m)).mapSize.toNat → DirtyPage L (L.working m) m k ∨
    ∀ j, 512 * k ≤ j → j < 512 * (k + 1) →
      Durable line m ((L.data (L.working m)).word j) (m.load ((L.data (L.working m)).word j))

/-! ## What a crash leaves -/

section

variable {L : Layout} {u v : Fin 2} {m m0 : Mem} {last : Option ProcessState} {r : Nat → Word}

theorem IdxIs.working (h : IdxIs m L v) : L.working m = 1 - v := by
  rw [Layout.working, show low32 (m.load L.idx) = _ from h]
  fin_cases v <;> rfl

theorem readWords_congr {f g : Nat → Word} {a n : Nat} (h : ∀ i < n, f (a + 8 * i) = g (a + 8 * i)) :
    readWords f a n = readWords g a n := List.map_congr_left fun i hi => h i (List.mem_range.1 hi)

variable {f : Nat → Word}

/-- The state in a context is read from its footprint. -/
theorem Saved.stateAt_eq (hr : Saved L v m r) (h : ∀ x, Footprint L v x → f x = r x) :
    stateAt f (L.ctx v) = stateAt r (L.ctx v) := by
  have hword : ∀ k < 99, f (L.ctx v + 8 * k) = r (L.ctx v + 8 * k) := fun k hk => h _ (.inl ⟨k, hk, rfl⟩)
  have hp' : f (dataAddr (L.ctx v) + 8) = (L.data v).paddr := (hword 89 (by omega)).trans hr.paddr
  have hs' : f (dataAddr (L.ctx v) + 16) = (L.data v).mapSize := (hword 90 (by omega)).trans hr.mapSize
  unfold stateAt
  rw [hr.paddr, hp', hr.mapSize, hs']
  congr 1
  · exact readWords_congr fun k hk => hword k (by unfold cpuContextWords at hk; omega)
  · exact readWords_congr fun j hj => h _ (.inr ⟨j, by omega, rfl⟩)

theorem recovered_eq (h : low32 (f L.idx) = BitVec.ofNat 32 v) : recovered L.info f = some (stateAt f (L.ctx v)) := by
  have hv : (low32 (f (validCtxIdxAddr L.info))).toInt = v := by
    rw [show low32 (f (validCtxIdxAddr L.info)) = _ from h]
    fin_cases v <;> rfl
  have hlt : (0 : Int) ≤ v ∧ (v : Int) < kNumOfExecutionContext := by
    unfold kNumOfExecutionContext
    omega
  simp only [recovered]
  rw [hv, if_pos hlt, Int.toNat_natCast]
  rfl

/-- A saved context is found when the persisted index selects it. -/
theorem Saved.recovered_eq (hr : Saved L v m r) (hf : Image line m f)
    (h : low32 (f L.idx) = BitVec.ofNat 32 v) : recovered L.info f = some (stateAt r (L.ctx v)) := by
  rw [Process.recovered_eq h, hr.stateAt_eq fun x hx => (hr.durable x hx).image_eq line hf]

theorem Saved.mono (hr : Saved L v m r) {m' : Mem}
    (h : ∀ x y, Footprint L v x → Durable line m x y → Durable line m' x y) : Saved L v m' r :=
  ⟨hr.paddr, hr.mapSize, fun x hx => h x _ hx (hr.durable x hx)⟩

theorem Intact.recovered_eq (h : Intact L v m last) (hf : Image line m f) {st : ProcessState}
    (hst : last = some st) : recovered L.info f = some st := by
  obtain ⟨_, hidx, hword⟩ := h.idx
  obtain ⟨_, hr, rfl⟩ := h.last st hst
  exact hr.recovered_eq hf (by rw [hidx.image_eq line hf, hword])

theorem Intact.idxIs (h : Intact L v m last) : IdxIs m L v := by
  obtain ⟨_, hidx, hword⟩ := h.idx
  rw [IdxIs, hidx.load, hword]

variable {x : Nat}

theorem Footprint.owns (h : Footprint L v x) : L.Owns .info x ∨ L.Owns (.data v) x := by
  rcases h with ⟨_, hk, rfl⟩ | ⟨_, hj, rfl⟩
  · exact .inl (owns_ctx v hk)
  · exact .inr (owns_word (L.data_placed v) hj)

theorem Footprint.not_table (h : Footprint L v x) : L.lv (pageOf x) = none := by
  rcases h.owns with h | h <;> exact h.lv fun _ => Owner.noConfusion

theorem Footprint.ne_idx (h : Footprint L v x) : x ≠ L.idx := by
  rcases h with ⟨_, hk, rfl⟩ | ⟨_, hj, rfl⟩
  · exact ctx_ne_idx v hk
  · exact (owns_word (L.data_placed v) hj).ne Layout.owns_idx Owner.noConfusion

/-- `CopyContextFrom` writes nothing of the other context. -/
theorem Footprint.not_target (huv : u ≠ v) (h : Footprint L u x) : ¬ Target L v x := by
  rintro (⟨k, hk, rfl⟩ | ⟨j, hj, rfl⟩ | ⟨j, hj, rfl⟩)
  · rcases h with ⟨k', hk', he⟩ | ⟨j, hj, he⟩
    · exact ctx_ne huv.symm (by omega) hk' he
    · exact (owns_ctx v (by omega)).ne (owns_word (L.data_placed u) hj) Owner.noConfusion he
  · have hv := owns_word (L.data_placed v) hj
    rcases h.owns with h | h
    · exact h.ne hv Owner.noConfusion rfl
    · exact h.ne hv (by simpa using huv) rfl
  · have hv := owns_word (L.stack_placed v) hj
    rcases h.owns with h | h <;> exact h.ne hv Owner.noConfusion rfl

/-! ## Events between calls -/

variable {y : Word}

theorem Intact.store (h : Intact L v m last) {a : Nat} (hs : SameTables L.lv m (m.store a y))
    (hw : ∀ i k, IsFixedWord k → a = L.ctx i + 8 * k → y = m.load a) (hidx : a ≠ L.idx) (hf : ¬ Footprint L v a) :
    Intact L v (m.store a y) last where
  fixed := by
    refine h.fixed.of_same hs fun i k hk => ?_
    rw [Memory.load_store]
    split
    · rename_i he
      rw [he, hw i k hk he.symm]
    · rfl
  idx := by
    obtain ⟨word, hd, hword⟩ := h.idx
    exact ⟨word, hd.store_ne hidx.symm y, hword⟩
  last := by
    intro st hst
    obtain ⟨r, hr, rfl⟩ := h.last st hst
    refine ⟨r, hr.mono fun x _ hx hd => hd.store_ne ?_ y, rfl⟩
    rintro rfl
    exact hf hx

/-- A store off the pages of the contexts and of the valid data segment. -/
theorem Intact.store_away (h : Intact L v m last) {a : Nat} (hs : SameTables L.lv m (m.store a y))
    (ha : ∀ o, L.Owns o a → o ≠ .info ∧ o ≠ .data v) : Intact L v (m.store a y) last := by
  refine h.store hs ?_ ?_ ?_
  · rintro i k hk rfl
    exact absurd rfl (ha _ (owns_ctx i hk.lt)).1
  · rintro rfl
    exact (ha _ Layout.owns_idx).1 rfl
  · intro hf
    rcases hf.owns with hx | hx
    · exact (ha _ hx).1 rfl
    · exact (ha _ hx).2 rfl

theorem Intact.flush (h : Intact L v m last) (a : Nat) : Intact L v (m.flush a) last where
  fixed := h.fixed.of_kept (.of_load fun x => Memory.load_flush m a x)
  idx := by
    obtain ⟨word, hd, hword⟩ := h.idx
    exact ⟨word, hd.flush a, hword⟩
  last := by
    intro st hst
    obtain ⟨r, hr, rfl⟩ := h.last st hst
    exact ⟨r, hr.mono fun x _ _ hd => hd.flush a, rfl⟩

theorem Placed.toNat_word {o : Owner} {s : SegmentMapping} (hs : Placed L.owner o s) {j : Nat}
    (hj : 8 * j < s.mapSize.toNat) : (s.paddr + BitVec.ofNat 64 (8 * j)).toNat = s.word j := by
  have := hs.fits
  rw [toNat_add, toNat_ofNat, SegmentMapping.word]
  omega

/-- A store of the process to a segment of the working context. -/
theorem Intact.ensures_processStore {w : World σ} (h : Intact L v w.mem last) {o : Owner} {s : SegmentMapping}
    (hs : Placed L.owner o s) (ho : ∀ l, o ≠ .table l) (ho' : o ≠ .info ∧ o ≠ .data v) (i : Fin 2)
    (hm : Mapped L.mask w.mem (L.cr3 i) s) {j : Nat} (hj : 8 * j < s.mapSize.toNat) (y : Word) :
    Ensures (fun c => Intact L v c last) (processStore L.mask (L.cr3 i) (s.vaddr + BitVec.ofNat 64 (8 * j)) y) w
      fun _ w' => Intact L v w'.mem last := by
  unfold processStore
  refine ensures_get ?_
  rw [hm j hj]
  cases hleaf : leaf L.mask w.mem 3 (L.cr3 i) (s.vaddr + BitVec.ofNat 64 (8 * j)) with
  | none => exact ensures_pure h
  | some p =>
    obtain ⟨_, a⟩ := p
    have ha := Layout.owns_of_lv (h.fixed.levelled.leaf_level (lv_cr3 L i) hleaf).1
    have hword := owns_word hs hj
    have h1 : Intact L v (w.mem.store a (setDirtyBit (w.mem.load a))) last := by
      refine h.store_away (sameTables_store_dirty (clearDirtyBit_setDirtyBit _)) fun o' hoa => ?_
      rw [hoa.unique ha]
      exact ⟨Owner.noConfusion, Owner.noConfusion⟩
    have h2 : Intact L v ((w.mem.store a (setDirtyBit (w.mem.load a))).store (s.word j) y) last := by
      refine h1.store_away (sameTables_store (hword.lv ho) y) fun o' hoa => ?_
      rw [hoa.unique hword]
      exact ho'
    rw [hs.toNat_word hj]
    exact .bind (ensures_store h1 (ensures_store h2 h2))

/-- Of the words a saved register may change, the layout fixes `cr3`. -/
theorem Fixed.register_word (h : Fixed L m) {k : Nat} (hk : k < 85) (hy : k = 0 → y = L.cr3 u) {i : Fin 2} {k' : Nat}
    (hk' : IsFixedWord k') (he : L.ctx u + 8 * k = L.ctx i + 8 * k') : y = m.load (L.ctx u + 8 * k) := by
  by_cases hi : i = u
  · subst hi
    have hkk : k = k' := by omega
    subst hkk
    rcases hk' with rfl | hk'
    · exact (hy rfl).trans (h.cr3 i).symm
    · omega
  · exact absurd he.symm (ctx_ne hi hk'.lt (by omega))

/-- A register saved in the working context. -/
theorem Intact.store_register (h : Intact L v m last) {k : Nat} (hk : k < 85)
    (hy : k = 0 → y = L.cr3 (1 - v)) : Intact L v (m.store (L.ctx (1 - v) + 8 * k) y) last := by
  have hown := owns_ctx (L := L) (1 - v) (by omega : k < 99)
  refine h.store (sameTables_store (hown.lv fun _ => Owner.noConfusion) y) ?_ (ctx_ne_idx _ (by omega)) ?_
  · exact fun i k' hk' he => h.fixed.register_word hk hy hk' he
  · rintro (⟨_, hk', he⟩ | ⟨_, hj, he⟩)
    · exact ctx_ne (other_ne v) (by omega) hk' he
    · exact hown.ne (owns_word (L.data_placed v) hj) Owner.noConfusion he

theorem Intact.ensures_event {w : World σ} (h : Intact L v w.mem last) {e : Event} (he : e.Allowed L w.mem)
    (hne : e ≠ .switchContext) :
    Ensures (fun c => Intact L v c last) (e.exec L.mask L.info) w fun _ w' => Intact L v w'.mem last := by
  have hu := h.idxIs.working
  cases e with
  | write va y =>
    obtain ⟨_, hs, _, hj, rfl⟩ := he
    rw [hu] at hs
    refine ensures_getWorkingContext h.idxIs (ensures_load ?_)
    rw [show w.mem.load (cr3Addr (L.ctx (1 - v))) = _ from h.fixed.cr3 (1 - v)]
    rcases hs with rfl | rfl
    · exact h.ensures_processStore (L.data_placed _) (fun _ => Owner.noConfusion)
        ⟨Owner.noConfusion, by simpa using other_ne v⟩ _ (h.fixed.data_mapped _) hj y
    · exact h.ensures_processStore (L.stack_placed _) (fun _ => Owner.noConfusion)
        ⟨Owner.noConfusion, Owner.noConfusion⟩ _ (h.fixed.stack_mapped _) hj y
  | saveRegister k y =>
    obtain ⟨hk, hy⟩ := he
    rw [hu] at hy
    have h' := h.store_register hk hy
    exact ensures_getWorkingContext h.idxIs (ensures_store h' h')
  | other a y =>
    have h' : Intact L v (w.mem.store a y) last := by
      refine h.store_away (sameTables_store ?_ y) fun o ho => ?_
      · rw [Layout.lv, show L.owner (pageOf a) = none from he]
      · rw [Layout.Owns, show L.owner (pageOf a) = none from he] at ho
        cases ho
    exact ensures_store h' h'
  | flush a => exact ensures_clflush (h.flush a) (h.flush a)
  | switchContext => exact absurd rfl hne

/-! ## `SwitchContext` while the working context is flushed -/

theorem durable_clflush (h : Durable line m x y) (buf size : Nat) : Durable line (clflushRange m buf size) x y :=
  (throughout_clflushRange (P := fun c => Durable line c x y) (fun _ a hd => hd.flush a) h buf size).1

theorem durable_cleaned (h : Durable line m x y) {a : Nat} (hx : x ≠ a) (mask : Word) :
    Durable line (Paging.cleaned mask m a) x y := (durable_clflush h _ _).store_ne hx _

/-- Only dirty bits changed since `m0`, and what `D` lists is durable. -/
structure FlushBase (L : Layout) (m0 : Mem) (D : Nat → Word → Prop) (m : Mem) : Prop where
  kept : Kept L m0 m
  durable : ∀ x y, D x y → Durable line m x y

variable {D : Nat → Word → Prop}

theorem flushKeeps_base (hfix : Fixed L m0) (hD : ∀ x y, D x y → L.lv (pageOf x) = none) :
    FlushKeeps L.mask L.lv (FlushBase L m0 D) where
  levelled h := (hfix.of_kept h.kept).levelled
  flush m a h := ⟨(flushKeeps_kept hfix).flush m a h.kept, fun x y hx => (h.durable x y hx).flush a⟩
  cleaned {m a} h ha hd := by
    refine ⟨(flushKeeps_kept hfix).cleaned h.kept ha hd, fun x y hx => durable_cleaned (h.durable x y hx) ?_ L.mask⟩
    rintro rfl
    rw [hD x y hx] at ha
    cases ha

/-- The entry that `FlushDirtyPages` finds dirty for page `k` of the data segment maps that page. -/
theorem pageBase_of_leaf (hfix : Fixed L m) {k a : Nat} (hk : 4096 * k < (L.data u).mapSize.toNat)
    (hleaf : leaf L.mask m 3 (L.cr3 u) (pageAddr (L.data u).vaddr k) = some (0, a)) :
    (getPageBaseAddr L.mask 0 (m.load a)).toNat = (L.data u).paddr.toNat + 4096 * k := by
  have hfits := (L.data_placed u).fits
  have hva := (L.data_placed u).vaddr
  have hmap := hfix.data_mapped u (512 * k) (by omega)
  rw [show 8 * (512 * k) = 4096 * k by omega] at hmap
  have hoff : pageAddr (L.data u).vaddr k &&& kOffsetMask 0 = 0#64 := by
    rw [kOffsetMask_eq (by omega), ← toNat_inj, toNat_and_lowMask _ (by decide), toNat_pageAddr, pos]
    simp only [kIndexShift, toNat_ofNat]
    omega
  rw [v2p_eq_leaf, show (L.data u).vaddr + BitVec.ofNat 64 (4096 * k) =
    pageAddr (L.data u).vaddr k from rfl, hleaf] at hmap
  simp only [hoff, or_zero] at hmap
  rw [hmap, toNat_add, toNat_ofNat]
  omega

/-- Cleaning a dirty entry leaves a dirty data page dirty, or flushes all its lines. -/
theorem DirtyPage.cleaned_or_flushed (hfix : Fixed L m) {k a : Nat} (hk : 4096 * k < (L.data u).mapSize.toNat)
    (h : DirtyPage L u m k) (ha : L.lv (pageOf a) = some 0) :
    DirtyPage L u (Paging.cleaned L.mask m a) k ∨ ∀ j, 512 * k ≤ j → j < 512 * (k + 1) → (L.data u).word j ≠ a ∧
      ∃ i < 64, line ((L.data u).word j) = line ((getPageBaseAddr L.mask 0 (m.load a)).toNat + 64 * i) := by
  obtain ⟨l, a', hleaf, hdirty⟩ := h
  by_cases heq : a' = a
  · right
    subst heq
    obtain ⟨hl, -⟩ := hfix.levelled.leaf_level (lv_cr3 L u) hleaf
    rw [ha] at hl
    cases hl
    have hbase := pageBase_of_leaf hfix hk hleaf
    have hw := (L.data_placed u).whole
    have h0 := L.aligned ((L.data_placed u).own k hk)
    intro j hj1 hj2
    have hown := owns_word (L.data_placed u) (by omega : 8 * j < _)
    refine ⟨hown.ne (Layout.owns_of_lv ha) Owner.noConfusion, (j - 512 * k) / 8, by omega, ?_⟩
    rw [hbase, line, line, SegmentMapping.word]
    omega
  · left
    refine ⟨l, a', ?_, ?_⟩
    · rw [hfix.levelled.leaf_eq (sameTables_cleaned L.mask m a) _ (lv_cr3 L u), hleaf]
    · rw [Paging.cleaned, Memory.load_store_ne _ _ heq, load_clflushRange, hdirty]

theorem DirtyPage.cleaned (hfix : Fixed L m) {k a : Nat} (hk : 4096 * k < (L.data u).mapSize.toNat)
    (h : DirtyPage L u m k) (ha : L.lv (pageOf a) = some 0) :
    DirtyPage L u (Paging.cleaned L.mask m a) k ∨ ∀ j, 512 * k ≤ j → j < 512 * (k + 1) →
        Durable line (Paging.cleaned L.mask m a) ((L.data u).word j) (m.load ((L.data u).word j)) := by
  refine (h.cleaned_or_flushed hfix hk ha).imp_right fun hall j hj1 hj2 => ?_
  obtain ⟨hne, _, hi, hline⟩ := hall j hj1 hj2
  exact (durable_clflushRange hi hline).store_ne hne _

/-- The pages of the data segment of context `u` are dirty, or durable as they were in `m0`. -/
def PagesReady (L : Layout) (u : Fin 2) (m0 m : Mem) : Prop :=
  ∀ k, 4096 * k < (L.data u).mapSize.toNat → DirtyPage L u m k ∨
    ∀ j, 512 * k ≤ j → j < 512 * (k + 1) → Durable line m ((L.data u).word j) (m0.load ((L.data u).word j))

/-- The data segment of context `u`, as it was in `m0`. -/
def DataOf (L : Layout) (u : Fin 2) (m0 : Mem) (x : Nat) (y : Word) : Prop :=
  ∃ j, 8 * j < (L.data u).mapSize.toNat ∧ x = (L.data u).word j ∧ y = m0.load x

theorem flushKeeps_pages (hfix : Fixed L m0) (hD : ∀ x y, D x y → L.lv (pageOf x) = none) :
    FlushKeeps L.mask L.lv fun m => FlushBase L m0 D m ∧ PagesReady L u m0 m where
  levelled h := (flushKeeps_base hfix hD).levelled h.1
  flush m a h := by
    refine ⟨(flushKeeps_base hfix hD).flush m a h.1, fun k hk => ?_⟩
    rcases h.2 k hk with ⟨l, a', hleaf, hdirty⟩ | hd
    · refine .inl ⟨l, a', ?_, hdirty⟩
      rw [(hfix.of_kept h.1.kept).levelled.leaf_eq (SameTables.of_load fun x _ _ => Memory.load_flush m a x) _
        (lv_cr3 L u), hleaf]
    · exact .inr fun j h1 h2 => (hd j h1 h2).flush a
  cleaned {m a} h ha hdirty := by
    have hfix' := hfix.of_kept h.1.kept
    refine ⟨(flushKeeps_base hfix hD).cleaned h.1 ha hdirty, fun k hk => ?_⟩
    have hw := (L.data_placed u).whole
    have hown : ∀ j, j < 512 * (k + 1) → L.Owns (.data u) ((L.data u).word j) := fun j hj =>
      owns_word (L.data_placed u) (by omega)
    rcases h.2 k hk with hp | hd
    · rcases hp.cleaned hfix' hk ha with hp | hd
      · exact .inl hp
      · refine .inr fun j h1 h2 => ?_
        rw [← h.1.kept.load _ ((hown j h2).lv fun _ => Owner.noConfusion)]
        exact hd j h1 h2
    · exact .inr fun j h1 h2 => durable_cleaned (hd j h1 h2)
        ((hown j h2).ne (Layout.owns_of_lv ha) Owner.noConfusion) L.mask

theorem DirtyPage.not_clean {k : Nat} (h : DirtyPage L u m k) : ¬ CleanAt L.mask (L.cr3 u) (L.data u).vaddr m k := by
  rintro ⟨_, ht, hc⟩
  obtain ⟨_, _, hleaf, hdirty⟩ := h
  rw [leaf_descend (le_refl 3) ht, leaf] at hleaf
  split at hleaf
  · cases hleaf
    rw [hc] at hdirty
    cases hdirty
  · cases hleaf

/-- Once no entry of the data segment is dirty, the segment is durable. -/
theorem PagesReady.durable (h : PagesReady L u m0 m)
    (hclean : ∀ k, 4096 * k < (L.data u).mapSize.toNat → CleanAt L.mask (L.cr3 u) (L.data u).vaddr m k)
    (hx : DataOf L u m0 x y) : Durable line m x y := by
  obtain ⟨j, hj, rfl, rfl⟩ := hx
  have hk : 4096 * (j / 512) < (L.data u).mapSize.toNat := by omega
  rcases h (j / 512) hk with hdirty | hd
  · exact absurd (hclean (j / 512) hk) hdirty.not_clean
  · exact hd j (by omega) (by omega)

/-- `ExecutionContext::Flush` ends with a flush of the whole context. -/
theorem saved_of_flush (hfix : Fixed L m0) (h : FlushBase L m0 D m)
    (hD : ∀ x y, DataOf L u m0 x y → D x y) : Saved L u (clflushRange m (L.ctx u) 792) m0.load where
  paddr := (hfix.data u).paddr
  mapSize := (hfix.data u).mapSize
  durable := by
    rintro x (⟨k, hk, rfl⟩ | ⟨j, hj, rfl⟩)
    · rw [← h.kept.load_info (owns_ctx u hk)]
      have h0 := L.aligned L.info_own
      have hu := u.isLt
      -- context 1 starts 24 bytes into a line
      refine durable_clflushRange (i := (L.ctx u % 64 + 8 * k) / 64) ?_ ?_
      · unfold Layout.ctx ctxAddr size
        rcases (by omega : u.val = 0 ∨ u.val = 1) with hu | hu <;> rw [hu] <;> omega
      · unfold line
        omega
    · exact durable_clflush (h.durable _ _ (hD _ _ ⟨j, hj, rfl, rfl⟩)) _ _

/-! ## `SwitchContext` as a whole -/

/-- What is durable while the working context is flushed: the index, and the last checkpoint if there is
one. -/
def Guarded (L : Layout) (v : Fin 2) (word : Word) (last : Option ProcessState) (r : Nat → Word) (x : Nat)
    (y : Word) : Prop :=
  x = L.idx ∧ y = word ∨ last.isSome = true ∧ Footprint L v x ∧ y = r x

/-- After the commit: context `u` is valid, and holds what it held in `m0`. -/
structure Committed (L : Layout) (u : Fin 2) (m0 m : Mem) : Prop where
  idx : ∃ word, Durable line m L.idx word ∧ low32 word = BitVec.ofNat 32 u
  saved : Saved L u m m0.load

/-- A crash finds the last checkpoint, or `st`. -/
def OldOrNew (L : Layout) (last : Option ProcessState) (st : ProcessState) (c : Mem) : Prop :=
  ∀ f, Image line c f → ∀ st0, last = some st0 → recovered L.info f = some st0 ∨ recovered L.info f = some st

theorem Guarded.not_table {word : Word} (h : Guarded L v word last r x y) : L.lv (pageOf x) = none := by
  rcases h with ⟨rfl, -⟩ | ⟨-, hx, -⟩
  · exact Layout.owns_idx.lv fun _ => Owner.noConfusion
  · exact hx.not_table

theorem DataOf.not_table (h : DataOf L u m0 x y) : L.lv (pageOf x) = none := by
  obtain ⟨_, hj, rfl, -⟩ := h
  exact (owns_word (L.data_placed u) hj).lv fun _ => Owner.noConfusion

theorem Committed.oldOrNew (h : Committed L u m0 m) : OldOrNew L last (stateAt m0.load (L.ctx u)) m := by
  intro f hf st0 _
  obtain ⟨_, hidx, hword⟩ := h.idx
  exact .inr (h.saved.recovered_eq hf (by rw [hidx.image_eq line hf, hword]))

theorem Committed.store (h : Committed L u m0 m) (huv : u ≠ v) (hx : Target L v x) (y : Word) :
    Committed L u m0 (m.store x y) := by
  obtain ⟨word, hidx, hword⟩ := h.idx
  refine ⟨⟨word, hidx.store_ne ?_ y, hword⟩, h.saved.mono fun z _ hz hd => hd.store_ne ?_ y⟩
  · rintro rfl
    exact idx_not_target hx
  · rintro rfl
    exact hz.not_target huv hx

section

variable {word : Word} (hr : ∀ st, last = some st → Saved L v m0 r ∧ st = stateAt r (L.ctx v))

include hr in
/-- Where the last checkpoint is durable and the index selects it, a crash finds it. -/
theorem recovered_last (hd : last.isSome = true → ∀ x, Footprint L v x → Durable line m x (r x))
    (hf : Image line m f) (h : low32 (f L.idx) = BitVec.ofNat 32 v) {st : ProcessState} (hst : last = some st) :
    recovered L.info f = some st := by
  obtain ⟨hsaved, rfl⟩ := hr st hst
  exact Saved.recovered_eq ⟨hsaved.paddr, hsaved.mapSize, hd (by rw [hst]; rfl)⟩ hf h

include hr in
theorem FlushBase.oldOrNew (h : FlushBase L m0 D m) (hD : ∀ x y, Guarded L v word last r x y → D x y)
    (hword : low32 word = BitVec.ofNat 32 v) (st : ProcessState) : OldOrNew L last st m := by
  intro f hf st0 hst
  refine .inl (recovered_last hr (fun hs x hx => h.durable x _ (hD _ _ (.inr ⟨hs, hx, rfl⟩))) hf ?_ hst)
  rw [(h.durable _ _ (hD _ _ (.inl ⟨rfl, rfl⟩))).image_eq line hf, hword]

include hr in
/-- The commit: at the store of the index a crash finds either checkpoint, at its flush the new one. -/
theorem FlushBase.commit (hfix : Fixed L m0) (hword : low32 word = BitVec.ofNat 32 v)
    (h : FlushBase L m0 (fun x y => Guarded L v word last r x y ∨ DataOf L u m0 x y) m) {word' : Word}
    (hword' : low32 word' = BitVec.ofNat 32 u) :
    OldOrNew L last (stateAt m0.load (L.ctx u)) ((clflushRange m (L.ctx u) 792).store L.idx word') ∧
      Committed L u m0 (committed L (clflushRange m (L.ctx u) 792) word') := by
  have hsaved := saved_of_flush hfix h fun x y hx => .inr hx
  have hold : ∀ x y, Guarded L v word last r x y → Durable line (clflushRange m (L.ctx u) 792) x y := fun x y hx =>
    durable_clflush (h.durable x y (.inl hx)) _ _
  have hsaved' : Saved L u ((clflushRange m (L.ctx u) 792).store L.idx word') m0.load :=
    hsaved.mono fun x _ hx hd => hd.store_ne hx.ne_idx word'
  refine ⟨fun f hf st0 hst => ?_, ⟨⟨word', ?_, hword'⟩, hsaved'.mono fun x _ _ hd => hd.flush L.idx⟩⟩
  · rcases hf.mayHold line L.idx with ⟨-, hnew⟩ | hidx
    · exact .inr (hsaved'.recovered_eq hf (by rw [hnew, hword']))
    · refine .inl (recovered_last hr (fun hs x hx => ?_) hf ?_ hst)
      · exact (hold _ _ (.inr ⟨hs, hx, rfl⟩)).store_ne hx.ne_idx word'
      · rw [hold _ _ (.inl ⟨rfl, rfl⟩) _ hidx, hword]
  · exact durable_of_flush_line rfl (Memory.load_store_self ..)

end

theorem Intact.switchLogic (h : Intact L v m0 last) (hready : FlushReady L m0) :
    ∃ B1 B2, SwitchLogic L v m0 (OldOrNew L last (L.workingState m0)) B1 B2 (Committed L (1 - v) m0) := by
  obtain ⟨word, hidx, hword⟩ := h.idx
  obtain ⟨r, hr⟩ : ∃ r, ∀ st, last = some st → Saved L v m0 r ∧ st = stateAt r (L.ctx v) := by
    cases last with
    | none => exact ⟨m0.load, fun st hst => by cases hst⟩
    | some st =>
      obtain ⟨r, hr⟩ := h.last st rfl
      exact ⟨r, fun st' hst => by cases hst; exact hr⟩
  have hstart : ∀ x y, Guarded L v word last r x y → Durable line m0 x y := by
    rintro x y (⟨rfl, rfl⟩ | ⟨hs, hx, rfl⟩)
    · exact hidx
    · obtain ⟨st, hst⟩ := Option.isSome_iff_exists.1 hs
      exact (hr st hst).1.durable x hx
  have hu := h.idxIs.working
  rw [Layout.workingState, hu]
  refine ⟨fun m => FlushBase L m0 (Guarded L v word last r) m ∧ PagesReady L (1 - v) m0 m,
    FlushBase L m0 fun x y => Guarded L v word last r x y ∨ DataOf L (1 - v) m0 x y, ?_⟩
  exact {
    start := ⟨⟨.refl L m0, hstart⟩, by rw [FlushReady, hu] at hready; exact hready⟩
    flush₁ := flushKeeps_pages h.fixed fun _ _ hx => hx.not_table
    flush₂ := flushKeeps_base h.fixed fun _ _ hx => hx.elim (·.not_table) (·.not_table)
    kept₁ := fun _ hm => hm.1.kept
    kept₂ := fun _ hm => hm.kept
    clean := fun m hm hclean => ⟨hm.1.kept, by
      rintro x y (hx | hx)
      · exact hm.1.durable x y hx
      · exact hm.2.durable hclean hx⟩
    commit := fun m word' hm hword' => hm.commit hr h.fixed hword hword'
    copy := fun c x y hx hc => hc.store (other_ne v) hx y
    safe₁ := fun m hm => hm.1.oldOrNew hr (fun _ _ hx => hx) hword _
    safe₂ := fun m hm => hm.oldOrNew hr (fun _ _ hx => .inl hx) hword _
    safe₃ := fun m hm => hm.oldOrNew }

/-- A call of `SwitchContext`: a crash at any point of it finds the last checkpoint or the new one, and when
it returns the new one is intact. -/
theorem Intact.ensures_switchContext {w : World σ} (h : Intact L v w.mem last) (hready : FlushReady L w.mem) :
    Ensures (OldOrNew L last (L.workingState w.mem)) (PersistentProcessInfo.switchContext L.mask L.info) w fun _ w' =>
      Intact L (1 - v) w'.mem (some (L.workingState w.mem)) := by
  obtain ⟨_, _, hlogic⟩ := h.switchLogic hready
  refine (hlogic.ensures h.fixed h.idxIs).mono (fun _ hP => hP) ?_
  rintro _ w' ⟨hc, hsw⟩
  refine ⟨hsw.fixed h.fixed, hc.idx, ?_⟩
  intro st hst
  cases hst
  exact ⟨w.mem.load, hc.saved, by rw [Layout.workingState, h.idxIs.working]⟩

end

/-! ## Runs of a process -/

section

variable {L : Layout} {s : State σ}

theorem Run.intact (h : Run L (FlushReady L) s) : ∃ v, Intact L v s.world.mem s.last := by
  induction h with
  | init h => exact ⟨_, h⟩
  | @step s e w' _ he hready hrun ih =>
    obtain ⟨v, ih⟩ := ih
    by_cases hsw : e = .switchContext
    · subst hsw
      exact ⟨1 - v, (ih.ensures_switchContext (hready rfl)).of_ok hrun⟩
    · have hafter : s.after L e w' = ⟨w', s.last⟩ := by
        cases e with
        | switchContext => exact absurd rfl hsw
        | _ => rfl
      rw [hafter]
      exact ⟨v, (ih.ensures_event he hsw).of_ok hrun⟩

/-- Checkpoints are crash consistent in the runs whose calls of `SwitchContext` all find every page of the
working data segment dirty or durable. In any state of such a run and for any next event, a crash at any
point `c` of the event finds the state at the last completed `SwitchContext`, or, when the event is a
`SwitchContext` that has persisted its index, the state at that call. -/
theorem checkpoints_consistent (hrun : Run L (FlushReady L) s) {e : Event} (he : e.Allowed L s.world.mem)
    (hready : e = .switchContext → FlushReady L s.world.mem) {c : Mem} (hc1 : s.world.mem.Before c)
    (hc2 : c.Before (final ((e.exec L.mask L.info).run s.world)).mem) {f : Nat → Word} (hf : Image line c f)
    {st : ProcessState} (hst : s.last = some st) :
    recovered L.info f = some st ∨ e = .switchContext ∧ recovered L.info f = some (L.workingState s.world.mem) := by
  obtain ⟨_, h⟩ := hrun.intact
  by_cases hsw : e = .switchContext
  · subst hsw
    have hm : OldOrNew L s.last (L.workingState s.world.mem) s.world.mem :=
      fun f hf st hst => .inl (h.recovered_eq hf hst)
    have hall := (h.ensures_switchContext (hready rfl)).throughout
    exact (hall.between hm hc1 hc2 f hf st hst).imp_right fun hnew => ⟨rfl, hnew⟩
  · have hall := (h.ensures_event he hsw).throughout
    exact .inl ((hall.between h hc1 hc2).recovered_eq hf hst)

end

/-! ## A process with a data page and a stack page -/

def onePageOwner (p : Nat) : Option Owner :=
  if p = 0x10000 ∨ p = 0x14000 then some (.table 3)
  else if p = 0x11000 ∨ p = 0x15000 then some (.table 2)
  else if p = 0x12000 ∨ p = 0x16000 then some (.table 1)
  else if p = 0x13000 ∨ p = 0x17000 then some (.table 0)
  else if p = 0x20000 then some (.data 0)
  else if p = 0x21000 then some (.data 1)
  else if p = 0x22000 then some (.stack 0)
  else if p = 0x23000 then some (.stack 1)
  else if p = 0x30000 then some .info
  else none

/-- A segment of one page. -/
theorem placed_onePage {o : Owner} {va pa : Word} (hv : va.toNat % 4096 = 0) (hp : onePageOwner pa.toNat = some o)
    (hfits : pa.toNat + 4096 ≤ 2 ^ 64) : Placed onePageOwner o ⟨va, pa, 0x1000#64⟩ := by
  refine ⟨hv, by simp, hfits, fun k hk => ?_⟩
  have hk : 4096 * k < 0x1000 := hk
  obtain rfl : k = 0 := by omega
  exact hp

/-- A process with one data page at virtual address 0x400000 and one stack page behind it. -/
def onePage : Layout where
  mask := lowMask 36
  info := 0x30000
  owner := onePageOwner
  cr3 i := if i = 0 then 0x10000#64 else 0x14000#64
  data i := ⟨0x400000#64, if i = 0 then 0x20000#64 else 0x21000#64, 0x1000#64⟩
  stack i := ⟨0x401000#64, if i = 0 then 0x22000#64 else 0x23000#64, 0x1000#64⟩
  aligned {p o} h := by
    unfold onePageOwner at h
    split_ifs at h <;> omega
  info_own := by decide
  cr3_own := by decide
  data_placed i := placed_onePage (by decide) (by revert i; decide) (by revert i; decide)
  stack_placed i := placed_onePage (by decide) (by revert i; decide) (by revert i; decide)
  data_virt := by decide

/-- Its memory: the entries on the paths of the pages in both page tables, and in both contexts the table and
the segments. All other words are zero, so `valid_ctx_idx_` is 0. -/
def onePageWords : List (Nat × Word) :=
  [(0x10000, 0x11007#64), (0x11000, 0x12007#64), (0x12010, 0x13007#64), (0x13000, 0x20007#64),
   (0x13008, 0x22007#64), (0x14000, 0x15007#64), (0x15000, 0x16007#64), (0x16010, 0x17007#64), (0x17000, 0x21007#64),
   (0x17008, 0x23007#64),
   (0x30000, 0x10000#64), (0x302C0, 0x400000#64), (0x302C8, 0x20000#64), (0x302D0, 0x1000#64),
   (0x302D8, 0x401000#64), (0x302E0, 0x22000#64), (0x302E8, 0x1000#64),
   (0x30318, 0x14000#64), (0x305D8, 0x400000#64), (0x305E0, 0x21000#64), (0x305E8, 0x1000#64),
   (0x305F0, 0x401000#64), (0x305F8, 0x23000#64), (0x30600, 0x1000#64)]

def onePageInit (a : Nat) : Word :=
  match onePageWords.find? (fun p => p.1 == a) with
  | some p => p.2
  | none => 0#64

theorem onePage_lv {p l : Nat} (h : onePage.lv p = some l) :
    l = 3 ∧ (p = 0x10000 ∨ p = 0x14000) ∨ l = 2 ∧ (p = 0x11000 ∨ p = 0x15000) ∨ l = 1 ∧ (p = 0x12000 ∨ p = 0x16000) ∨
      l = 0 ∧ (p = 0x13000 ∨ p = 0x17000) := by
  unfold Layout.lv at h
  simp only [onePage, onePageOwner] at h
  split_ifs at h <;> simp_all

theorem onePage_levelled : Levelled (lowMask 36) onePage.lv (Memory.ofInit onePageInit) := by
  have hal : ∀ {p l}, onePage.lv p = some l → p % 4096 = 0 := by
    intro p l h
    have := onePage_lv h
    omega
  refine ⟨hal, ?_⟩
  intro l t va t' ht hc
  have hpage : pageOf (entryAddr (l + 1) t va) = t.toNat := entryAddr_mem_page (hal ht)
  rw [Memory.load_ofInit, onePageInit] at hc
  rw [← hpage] at ht
  have hl := onePage_lv ht
  cases he : onePageWords.find? (fun p => p.1 == entryAddr (l + 1) t va) with
  | none =>
    rw [he] at hc
    obtain ⟨h, -⟩ := child_some hc
    cases h
  | some p =>
    rw [he] at hc
    have haddr : p.1 = entryAddr (l + 1) t va := by simpa using List.find?_some he
    rw [← haddr] at ht
    have hall : ∀ p ∈ onePageWords, ∀ l < 3, onePage.lv (pageOf p.1) = some (l + 1) →
        (child (lowMask 36) (l + 1) p.2).all (fun t => onePage.lv t.toNat == some l) = true := by decide
    have := hall p (List.mem_of_find?_eq_some he) l (by omega) ht
    rw [show child (lowMask 36) (l + 1) p.2 = some t' from hc] at this
    simpa using this

/-- The segments `s` lie in pages that the entries at `a` map. -/
theorem onePage_mapped {s : Fin 2 → SegmentMapping} {a : Fin 2 → Nat}
    (h : ∀ i, (s i).vaddr.toNat % 4096 = 0 ∧ (s i).paddr.toNat % 4096 = 0 ∧ (s i).mapSize = 0x1000#64 ∧
      getPageBaseAddr onePage.mask 0 (onePageInit (a i)) = (s i).paddr ∧
      leaf onePage.mask (Memory.ofInit onePageInit) 3 (onePage.cr3 i) (s i).vaddr = some (0, a i)) (i : Fin 2) :
    Mapped onePage.mask (Memory.ofInit onePageInit) (onePage.cr3 i) (s i) := by
  obtain ⟨hv, hp, hsize, hbase, hleaf⟩ := h i
  intro j hj
  rw [hsize] at hj
  exact v2p_of_leaf hv hp hj hleaf hbase

theorem onePage_fixed : Fixed onePage (Memory.ofInit onePageInit) where
  levelled := onePage_levelled
  cr3 := by decide
  data i := by
    constructor <;> revert i <;> decide
  stack i := by
    constructor <;> revert i <;> decide
  data_mapped := onePage_mapped (a := fun i => if i = 0 then 0x13000 else 0x17000) (by decide +kernel)
  stack_mapped := onePage_mapped (a := fun i => if i = 0 then 0x13008 else 0x17008) (by decide +kernel)

/-- The process, and after a store of 7 to the first word of its data, then after one call of `SwitchContext`,
then after a second one with nothing in between. -/
def onePageStart : World Unit := ⟨Memory.ofInit onePageInit, ()⟩
def onePageWritten : World Unit :=
  final ((Event.exec onePage.mask onePage.info (.write 0x400000#64 7#64)).run onePageStart)
def onePageOnce : World Unit := final ((Event.exec onePage.mask onePage.info .switchContext).run onePageWritten)
def onePageTwice : World Unit := final ((Event.exec onePage.mask onePage.info .switchContext).run onePageOnce)

theorem onePage_intact : Intact onePage 0 onePageStart.mem none where
  fixed := onePage_fixed
  idx := ⟨onePageInit onePage.idx, durable_ofInit onePageInit onePage.idx, by decide⟩
  last st h := by cases h

theorem run_onePageWritten (C : Mem → Prop) : Run onePage C ⟨onePageWritten, none⟩ := by
  refine .step (s := ⟨onePageStart, none⟩) (e := .write 0x400000#64 7#64) (.init onePage_intact) ?_
    (fun h => by cases h)
    (eq_final_of_returned (by decide +kernel))
  exact ⟨onePage.data 1, .inl rfl, 0, by decide, by decide⟩

theorem Run.call {L : Layout} {C : Mem → Prop} {w w' : World σ} {last : Option ProcessState} (h : Run L C ⟨w, last⟩)
    (hC : C w.mem) (hrun : (Event.exec L.mask L.info .switchContext).run w = .ok () w') :
    Run L C ⟨w', some (L.workingState w.mem)⟩ :=
  .step (e := .switchContext) h trivial (fun _ => hC) hrun

theorem run_onePageOnce {C : Mem → Prop} (hC : C onePageWritten.mem) :
    Run onePage C ⟨onePageOnce, some (onePage.workingState onePageWritten.mem)⟩ :=
  (run_onePageWritten C).call hC (eq_final_of_returned (by decide +kernel))

/-- The first call flushed the written page. -/
theorem onePage_flushReady : FlushReady onePage onePageWritten.mem := by
  have hw : onePage.working onePageWritten.mem = 1 := by decide +kernel
  rw [FlushReady, hw]
  intro k hk
  have hk : 4096 * k < 0x1000 := hk
  obtain rfl : k = 0 := by omega
  exact .inl ⟨0, 0x17000, by decide +kernel, by decide +kernel⟩

/-- A crash while the process goes on after the first call. -/
theorem checkpoints_consistent_onePage :
    Run onePage (FlushReady onePage) ⟨onePageOnce, some (onePage.workingState onePageWritten.mem)⟩ ∧
      FlushReady onePage onePageWritten.mem ∧ Image line onePageOnce.mem onePageOnce.mem.load ∧
      (recovered onePage.info onePageOnce.mem.load = some (onePage.workingState onePageWritten.mem) ∨
        Event.flush 0 = .switchContext ∧
          recovered onePage.info onePageOnce.mem.load = some (onePage.workingState onePageOnce.mem)) :=
  ⟨run_onePageOnce onePage_flushReady, onePage_flushReady, image_load line onePageOnce.mem,
    checkpoints_consistent (e := .flush 0) (run_onePageOnce onePage_flushReady) trivial (fun h => by cases h) (.refl _)
      (Memory.before_flush _ 0) (image_load line onePageOnce.mem) rfl⟩

theorem head_readWords (f : Nat → Word) (a : Nat) {n : Nat} (h : 0 < n) : (readWords f a n).head? = some (f a) := by
  obtain ⟨k, rfl⟩ : ∃ k, n = k + 1 := ⟨n - 1, by omega⟩
  rw [readWords, List.range_succ_eq_map]
  rfl

/-- After the second call a crash can lose the 7, while the persisted index selects that context. -/
theorem onePageTwice_mayHold : MayHold line onePageTwice.mem 0x20000 0#64 := by decide +kernel

theorem onePageTwice_durable : Durable line onePageTwice.mem onePage.idx 0#64 ∧
    Durable line onePageTwice.mem 0x302C8 0x20000#64 ∧ Durable line onePageTwice.mem 0x302D0 0x1000#64 := by
  decide +kernel

/-- The second call found the data page clean, since only the copy of the first call had written to it. It
did not flush the page, and a crash can lose the word that held 7. -/
theorem onePage_checkpoint_lost :
    Run onePage (fun _ => True) ⟨onePageTwice, some (onePage.workingState onePageOnce.mem)⟩ ∧
      ∃ f, Image line onePageTwice.mem f ∧ recovered onePage.info f ≠ some (onePage.workingState onePageOnce.mem) := by
  have hrun : Run onePage (fun _ => True) ⟨onePageTwice, some (onePage.workingState onePageOnce.mem)⟩ :=
    (run_onePageOnce trivial).call trivial (eq_final_of_returned (by decide +kernel))
  obtain ⟨hidx, hpaddr, hsize⟩ := onePageTwice_durable
  have hseven : (onePage.workingState onePageOnce.mem).data.head? = some 7#64 := by decide +kernel
  obtain ⟨f, hf, hfx⟩ := onePageTwice_mayHold.image
  refine ⟨hrun, f, hf, ?_⟩
  have hv : low32 (f onePage.idx) = BitVec.ofNat 32 (0 : Fin 2) := by
    rw [hidx.image_eq line hf]
    decide
  have hdata : (stateAt f (onePage.ctx 0)).data = readWords f 0x20000 512 := by
    have hp : f (dataAddr (onePage.ctx 0) + 8) = 0x20000#64 := hpaddr.image_eq line hf
    have hs : f (dataAddr (onePage.ctx 0) + 16) = 0x1000#64 := hsize.image_eq line hf
    simp only [stateAt, hp, hs]
    rfl
  rw [recovered_eq hv]
  intro heq
  rw [← Option.some_inj.1 heq, hdata, head_readWords f _ (by omega), hfx] at hseven
  cases hseven

end Liumos.Process
