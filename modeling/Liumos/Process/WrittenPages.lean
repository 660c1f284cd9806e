/-
Which of the pages a persistent process has written to are flushed when `SwitchContext` makes its context the valid
one. Of the two segments that `CopyContextFrom` copies, `ProcessMappingInfo::Flush` flushes the data segment: a page of
it that was written to is dirty in the page table. It leaves out the stack.
Sources: execution_context.h (`ProcessMappingInfo::Flush`, `CopyContextFrom`), execution_context.cc (`SwitchContext`).
-/
import Liumos.Paging.RightsInside
import Liumos.Process.Checkpoint

namespace Liumos.Process

open Paging WriteBack PersistentProcessInfo
open Layout (owns_ctx owns_of_lv owns_word lv)
open Memory (load_store load_store_ne load_flush before_flush ofInit load_ofInit)
open BitVec (ofNat)

variable {σ : Type}

/-! ## Writes since the last checkpoint -/

/-- Memory, the words the process has written to since the last `SwitchContext` that returned, and those whose line was
flushed since then and that it has not written to after that. -/
structure Tracked (σ : Type) where
  world : World σ
  written : Set Nat
  flushed : Set Nat

/-- A store without an entry that maps its address is a page fault. -/
def Tracked.after (L : Layout) (s : Tracked σ) (e : Event) (world : World σ) : Tracked σ :=
  let root := L.cr3 (L.working s.world.mem)
  match e with
  | .write vaddr _ =>
    let paddr := (v2p L.mask s.world.mem 3 root vaddr).toNat
    ⟨world, {x | x ∈ s.written ∨ (leaf L.mask s.world.mem 3 root vaddr).isSome = true ∧ x = paddr},
      {x | x ∈ s.flushed ∧ x ≠ paddr}⟩
  | .flush addr => ⟨world, s.written, {x | x ∈ s.flushed ∨ line x = line addr}⟩
  | .switchContext => ⟨world, ∅, ∅⟩
  | _ => ⟨world, s.written, s.flushed⟩

/-- The runs of a process. -/
inductive TrackedRun (L : Layout) : Tracked σ → Prop
  | init {v : Fin 2} {w : World σ} : Fixed L w.mem → IdxIs w.mem L v → TrackedRun L ⟨w, ∅, ∅⟩
  | step {s : Tracked σ} {e : Event} {w' : World σ} : TrackedRun L s → e.Allowed L s.world.mem →
      (e.exec L.mask L.info).run s.world = .ok () w' → TrackedRun L (s.after L e w')

/-- Page `k` of the segment was written to. -/
def WroteTo (written : Set Nat) (s : SegmentMapping) (k : Nat) : Prop :=
  ∃ j, 512 * k ≤ j ∧ j < 512 * (k + 1) ∧ s.word j ∈ written

/-- No word of page `k` of the segment was stored to since its line was flushed. -/
def PageFlushed (m : Mem) (s : SegmentMapping) (k : Nat) : Prop :=
  ∀ j, 512 * k ≤ j → j < 512 * (k + 1) → Flushed line m (s.word j)

/-- Every page of the segment that was written to is flushed. -/
def WritesFlushed (written : Set Nat) (m : Mem) (s : SegmentMapping) : Prop :=
  ∀ k, 4096 * k < s.mapSize.toNat → WroteTo written s k → PageFlushed m s k

/-! ## Events between calls -/

/-- What every event but `SwitchContext` leaves alone. -/
structure Undisturbed (L : Layout) (m m' : Mem) : Prop where
  tables : SameTables L.lv m m'
  words : ∀ i k, IsFixedWord k → m'.load (L.ctx i + 8 * k) = m.load (L.ctx i + 8 * k)
  idx : m'.load L.idx = m.load L.idx
  dirty : ∀ a l, L.lv (pageOf a) = some l → isDirty (m.load a) = true → isDirty (m'.load a) = true

section

variable {L : Layout} {u v : Fin 2} {m m' : Mem}

theorem Undisturbed.of_load (h : ∀ x, m'.load x = m.load x) : Undisturbed L m m' :=
  ⟨.of_load fun x _ _ => h x, fun _ _ _ => h _, h _, fun a _ _ hd => by rw [h]; exact hd⟩

theorem Undisturbed.trans {m'' : Mem} (h : Undisturbed L m m') (h' : Undisturbed L m' m'') : Undisturbed L m m'' :=
  ⟨h.tables.trans h'.tables, fun i k hk => (h'.words i k hk).trans (h.words i k hk), h'.idx.trans h.idx,
    fun a l ha hd => h'.dirty a l ha (h.dirty a l ha hd)⟩

theorem Undisturbed.fixed (h : Undisturbed L m m') (hfix : Fixed L m) : Fixed L m' := hfix.of_same h.tables h.words

theorem Undisturbed.idxIs (h : Undisturbed L m m') (hidx : IdxIs m L v) : IdxIs m' L v := by
  rw [IdxIs, h.idx]
  exact hidx

variable {k a j : Nat} {w : World σ} {s : SegmentMapping} {written : Set Nat} {m0 : Mem}

theorem DirtyPage.undisturbed (hfix : Fixed L m) (h : Undisturbed L m m') (hd : DirtyPage L u m k) :
    DirtyPage L u m' k := by
  obtain ⟨l, a, hleaf, hdirty⟩ := hd
  refine ⟨l, a, ?_, h.dirty a l (hfix.levelled.leaf_level (lv_cr3 L u) hleaf).1 hdirty⟩
  rw [hfix.levelled.leaf_eq h.tables _ (lv_cr3 L u), hleaf]

/-- A store outside the tables. -/
theorem undisturbed_store {y : Word} (ha : L.lv (pageOf a) = none)
    (hw : ∀ i k, IsFixedWord k → a = L.ctx i + 8 * k → y = m.load a) (hidx : a ≠ L.idx) :
    Undisturbed L m (m.store a y) where
  tables := sameTables_store ha y
  words i k hk := by
    rw [load_store]
    split
    · rename_i he
      rw [he, hw i k hk he.symm]
    · rfl
  idx := load_store_ne _ _ hidx.symm
  dirty x l hx hd := by
    rw [load_store_ne]
    · exact hd
    · rintro rfl
      rw [ha] at hx
      cases hx

/-- A store that is in no context. -/
theorem undisturbed_store_away (ha : L.lv (pageOf a) = none) (ho : ¬ L.Owns .info a) (y : Word) :
    Undisturbed L m (m.store a y) := by
  refine undisturbed_store ha ?_ ?_
  · rintro i k hk rfl
    exact absurd (owns_ctx i hk.lt) ho
  · rintro rfl
    exact ho Layout.owns_idx

theorem isDirty_setDirtyBit (d : Word) : isDirty (setDirtyBit d) = true := by
  rw [isDirty_eq, setDirtyBit, BitVec.getLsbD_or, getLsbD_bit (by norm_num)]
  simp only [decide_true, Bool.or_true]

/-- The dirty bit of an entry is set. -/
theorem undisturbed_setDirty {l : Nat} (ha : L.lv (pageOf a) = some l) :
    Undisturbed L m (m.store a (setDirtyBit (m.load a))) where
  tables := sameTables_store_dirty (clearDirtyBit_setDirtyBit _)
  words i k hk := by
    refine load_store_ne _ _ ?_
    exact (owns_ctx i hk.lt).ne (owns_of_lv ha) Owner.noConfusion
  idx := load_store_ne _ _ (Layout.owns_idx.ne (owns_of_lv ha) Owner.noConfusion)
  dirty x _ _ hd := by
    rw [load_store]
    split
    · exact isDirty_setDirtyBit _
    · exact hd

/-- The entry that maps an address is dirty once the process has stored to the address. -/
def MarksDirty (L : Layout) (u : Fin 2) (m m' : Mem) (va : Word) : Prop :=
  ∀ l a, leaf L.mask m 3 (L.cr3 u) va = some (l, a) → isDirty (m'.load a) = true

/-- What an event does, `SwitchContext` excepted: the last two fields are about the words of the stack. -/
structure EventDoes (L : Layout) (v : Fin 2) (e : Event) (m m' : Mem) : Prop where
  undisturbed : Undisturbed L m m'
  marks : ∀ va y, e = .write va y → MarksDirty L (1 - v) m m' va
  keeps : ∀ x, L.Owns (.stack (1 - v)) x →
    (∀ va y, e = .write va y → x ≠ (v2p L.mask m 3 (L.cr3 (1 - v)) va).toNat) → Flushed line m x → Flushed line m' x
  flushes : ∀ a x, e = .flush a → line x = line a → Flushed line m' x

theorem ensures_processStore_marks (hfix : Fixed L w.mem) {o : Owner} (hs : Placed L.owner o s)
    (ho : (∀ l, o ≠ .table l) ∧ o ≠ .info) (hm : Mapped L.mask w.mem (L.cr3 (1 - v)) s) (hj : 8 * j < s.mapSize.toNat)
    (y : Word) :
    Ensures (fun _ => True) (processStore L.mask (L.cr3 (1 - v)) (s.vaddr + ofNat 64 (8 * j)) y) w fun _ w' =>
      EventDoes L v (.write (s.vaddr + ofNat 64 (8 * j)) y) w.mem w'.mem := by
  unfold processStore
  refine ensures_get ?_
  rw [hm j hj]
  cases hleaf : leaf L.mask w.mem 3 (L.cr3 (1 - v)) (s.vaddr + ofNat 64 (8 * j)) with
  | none =>
    refine ensures_pure ⟨.of_load fun _ => rfl, fun va y h l a hl => ?_, fun _ _ _ h => h, nofun⟩
    cases h
    rw [hleaf] at hl
    cases hl
  | some p =>
    obtain ⟨l, a⟩ := p
    have ha := (hfix.levelled.leaf_level (lv_cr3 L (1 - v)) hleaf).1
    have hword := owns_word hs hj
    have hinfo : ¬ L.Owns .info (s.word j) := fun h => ho.2 (hword.unique h)
    rw [hs.toNat_word hj]
    refine .bind (ensures_store trivial
      (ensures_store trivial ⟨?_, fun va y h l' a' hl => ?_, fun x hx hne h => ?_, nofun⟩))
    · exact (undisturbed_setDirty ha).trans (undisturbed_store_away (hword.lv ho.1) hinfo y)
    · cases h
      rw [hleaf] at hl
      cases hl
      rw [load_store_ne _ _ ((owns_of_lv ha).ne hword (ho.1 l).symm), Memory.load_store_self, isDirty_setDirtyBit]
    · have hne := hne _ _ rfl
      rw [hm j hj, hs.toNat_word hj] at hne
      exact (h.store_ne (hx.ne (owns_of_lv ha) Owner.noConfusion) _).store_ne hne _

theorem ensures_event_undisturbed (hfix : Fixed L w.mem) (hidx : IdxIs w.mem L v) {e : Event} (he : e.Allowed L w.mem)
    (hne : e ≠ .switchContext) :
    Ensures (fun _ => True) (e.exec L.mask L.info) w fun _ w' => EventDoes L v e w.mem w'.mem := by
  have hu := hidx.working
  cases e with
  | write va y =>
    obtain ⟨s, hs, j, hj, rfl⟩ := he
    rw [hu] at hs
    refine ensures_getWorkingContext hidx (ensures_load ?_)
    rw [show w.mem.load (ExecutionContext.cr3Addr (L.ctx (1 - v))) = _ from hfix.cr3 (1 - v)]
    rcases hs with rfl | rfl
    · exact ensures_processStore_marks hfix (L.data_placed _) ⟨fun _ => Owner.noConfusion, Owner.noConfusion⟩
        (hfix.data_mapped _) hj y
    · exact ensures_processStore_marks hfix (L.stack_placed _) ⟨fun _ => Owner.noConfusion, Owner.noConfusion⟩
        (hfix.stack_mapped _) hj y
  | saveRegister k y =>
    obtain ⟨hk, hy⟩ := he
    rw [hu] at hy
    have hk : k < 85 := hk
    have hown := owns_ctx (L := L) (1 - v) (show k < 99 by omega)
    refine ensures_getWorkingContext hidx
      (ensures_store trivial ⟨?_, by rintro _ _ ⟨⟩, fun x hx _ h => ?_, by rintro _ _ ⟨⟩⟩)
    · refine undisturbed_store (hown.lv fun _ => Owner.noConfusion) ?_ (ctx_ne_idx _ (by omega))
      exact fun i k' hk' heq => hfix.register_word hk hy hk' heq
    · exact h.store_ne (hx.ne hown Owner.noConfusion) _
  | other a y =>
    have hnone : L.owner (pageOf a) = none := he
    refine ensures_store trivial ⟨undisturbed_store_away ?_ ?_ y,
      by rintro _ _ ⟨⟩, fun x hx _ h => h.store_ne ?_ _, by rintro _ _ ⟨⟩⟩
    · rw [lv, hnone]
    · rw [Layout.Owns, hnone]
      rintro ⟨⟩
    · rintro rfl
      cases hnone.symm.trans hx
  | flush a =>
    refine ensures_clflush trivial ⟨.of_load fun x => load_flush _ a x, by rintro _ _ ⟨⟩, fun _ _ _ h => h.flush a, ?_⟩
    rintro _ x ⟨⟩ hline
    exact flushed_of_flush_line _ hline
  | switchContext => exact absurd rfl hne

/-! ## Pages of the data segment -/

/-- All addresses of a page have one entry. -/
theorem leaf_page_eq (hs : s.vaddr.toNat % 4096 = 0) {root : Word} (h1 : 512 * k ≤ j) (h2 : j < 512 * (k + 1)) :
    leaf L.mask m 3 root (s.vaddr + ofNat 64 (8 * j)) = leaf L.mask m 3 root (pageAddr s.vaddr k) := by
  have hpath : path 4 (s.vaddr + ofNat 64 (8 * j)) = path 4 (pageAddr s.vaddr k) := by
    rw [path_pageAddr, path, pos, BitVec.toNat_add, BitVec.toNat_ofNat]
    omega
  exact leaf_congr fun l hl => addr2index_of_path hpath hl

theorem SegmentMapping.word_inj {i : Nat} (h : s.word i = s.word j) : i = j := by
  unfold SegmentMapping.word at h
  omega

/-- What the process has written to in its data segment is dirty. -/
def WritesDirty (L : Layout) (u : Fin 2) (written : Set Nat) (m : Mem) : Prop :=
  ∀ k, 4096 * k < (L.data u).mapSize.toNat → WroteTo written (L.data u) k → DirtyPage L u m k

/-- A state of a run. -/
structure TrackedInv (L : Layout) (v : Fin 2) (s : Tracked σ) : Prop where
  fixed : Fixed L s.world.mem
  idx : IdxIs s.world.mem L v
  dirty : WritesDirty L (1 - v) s.written s.world.mem
  flushed : ∀ x, L.Owns (.stack (1 - v)) x → x ∈ s.flushed → Flushed line s.world.mem x

theorem TrackedInv.write {s : Tracked σ} (h : TrackedInv L v s) {va y : Word}
    (he : (Event.write va y).Allowed L s.world.mem) {w' : World σ}
    (hdoes : EventDoes L v (.write va y) s.world.mem w'.mem) : TrackedInv L v (s.after L (.write va y) w') := by
  have hun := hdoes.undisturbed
  refine ⟨hun.fixed h.fixed, hun.idxIs h.idx, fun k hk hwrote => ?_, fun x hx hmem => ?_⟩
  swap
  · obtain ⟨hold, hne⟩ := hmem
    rw [h.idx.working] at hne
    refine hdoes.keeps x hx ?_ (h.flushed x hx hold)
    rintro _ _ ⟨⟩
    exact hne
  obtain ⟨j, hj1, hj2, hj⟩ := hwrote
  rcases hj with hold | ⟨hsome, hnew⟩
  · exact (h.dirty k hk ⟨j, hj1, hj2, hold⟩).undisturbed h.fixed hun
  · obtain ⟨s', hs', i, hi, rfl⟩ := he
    rw [h.idx.working] at hs' hsome hnew
    have hw := (L.data_placed (1 - v)).whole
    have hjown := owns_word (L.data_placed (1 - v)) (show 8 * j < _ by omega)
    rcases hs' with rfl | rfl
    · rw [h.fixed.data_mapped _ i hi, (L.data_placed _).toNat_word hi] at hnew
      obtain rfl := SegmentMapping.word_inj hnew
      obtain ⟨⟨l, a⟩, hleaf⟩ := Option.isSome_iff_exists.1 hsome
      refine ⟨l, a, ?_, hdoes.marks _ _ rfl l a hleaf⟩
      change leaf L.mask w'.mem 3 _ _ = _
      rw [h.fixed.levelled.leaf_eq hun.tables _ (lv_cr3 L _), ← leaf_page_eq (L.data_placed _).vaddr hj1 hj2, hleaf]
    · rw [h.fixed.stack_mapped _ i hi, (L.stack_placed _).toNat_word hi] at hnew
      exact absurd hnew (hjown.ne (owns_word (L.stack_placed _) hi) Owner.noConfusion)

/-! ## `SwitchContext` -/

theorem PageFlushed.flush {s : SegmentMapping} {k : Nat} (h : PageFlushed m s k) (a : Nat) :
    PageFlushed (m.flush a) s k :=
  fun j h1 h2 => (h j h1 h2).flush a

theorem PageFlushed.clflush (h : PageFlushed m s k) (buf size : Nat) : PageFlushed (clflushRange m buf size) s k :=
  (throughout_clflushRange (P := fun c => PageFlushed c s k) (fun _ a hd => hd.flush a) h buf size).1

theorem PageFlushed.cleaned {o : Owner} {s : SegmentMapping} (hs : Placed L.owner o s) (ho : ∀ l, o ≠ .table l)
    {k : Nat} (hk : 4096 * k < s.mapSize.toNat) (h : PageFlushed m s k) {a : Nat} (ha : L.lv (pageOf a) = some 0) :
    PageFlushed (Paging.cleaned L.mask m a) s k := by
  intro j h1 h2
  have hw := hs.whole
  have hown := owns_word hs (show 8 * j < _ by omega)
  exact ((h.clflush _ _) j h1 h2).store_ne (hown.ne (owns_of_lv ha) (ho 0)) _

theorem WritesFlushed.mono (h : WritesFlushed written m s)
    (hf : ∀ k, 4096 * k < s.mapSize.toNat → PageFlushed m s k → PageFlushed m' s k) : WritesFlushed written m' s :=
  fun k hk hwrote => hf k hk (h k hk hwrote)

/-- Before the commit: the pages written to are flushed, but for those of the data segment that are still dirty. -/
structure Flushing (L : Layout) (u : Fin 2) (written : Set Nat) (m0 m : Mem) : Prop where
  before : m0.Before m
  kept : Kept L m0 m
  data : ∀ k, 4096 * k < (L.data u).mapSize.toNat → WroteTo written (L.data u) k → DirtyPage L u m k ∨
    PageFlushed m (L.data u) k
  stack : WritesFlushed written m (L.stack u)

theorem Flushing.before_clflush (h : Flushing L u written m0 m) (buf size : Nat) :
    m0.Before (clflushRange m buf size) :=
  (throughout_clflushRange (P := fun c => m0.Before c) (fun c x hc => hc.trans (before_flush c x)) h.before _ _).1

theorem flushKeeps_flushing (hfix : Fixed L m0) : FlushKeeps L.mask L.lv (Flushing L u written m0) where
  levelled h := (hfix.of_kept h.kept).levelled
  flush m a h := by
    refine ⟨h.before.trans (before_flush m a), (flushKeeps_kept hfix).flush m a h.kept, fun k hk hwrote => ?_,
      h.stack.mono fun _ _ hf => hf.flush a⟩
    rcases h.data k hk hwrote with hd | hf
    · exact .inl (hd.undisturbed (hfix.of_kept h.kept) (.of_load fun x => load_flush m a x))
    · exact .inr (hf.flush a)
  cleaned {m a} h ha hdirty := by
    refine ⟨(h.before_clflush _ _).trans (Memory.before_store _ _ _), (flushKeeps_kept hfix).cleaned h.kept ha hdirty,
      fun k hk hwrote => ?_, h.stack.mono fun _ hk hf =>
      hf.cleaned (L.stack_placed u) (fun _ => Owner.noConfusion) hk ha⟩
    rcases h.data k hk hwrote with hd | hf
    · refine (hd.cleaned_or_flushed (hfix.of_kept h.kept) hk ha).imp_right fun hall j h1 h2 => ?_
      obtain ⟨hne, i, hi, hline⟩ := hall j h1 h2
      exact (flushed_clflushRange hi hline).store_ne hne _
    · exact .inr (hf.cleaned (L.data_placed u) (fun _ => Owner.noConfusion) hk ha)

/-- Once no entry of the data segment is dirty. -/
theorem Flushing.flushed (h : Flushing L u written m0 m)
    (hclean : ∀ k, 4096 * k < (L.data u).mapSize.toNat → CleanAt L.mask (L.cr3 u) (L.data u).vaddr m k) :
    WritesFlushed written m (L.data u) := by
  intro k hk hwrote
  rcases h.data k hk hwrote with hdirty | hf
  · exact absurd (hclean k hk) hdirty.not_clean
  · exact hf

/-- What `SwitchContext` leaves: at the point at which it stored `valid_ctx_idx_`, the pages written to were flushed. -/
structure FlushedAtSwitch (L : Layout) (u : Fin 2) (written : Set Nat) (m0 m : Mem) : Prop where
  before : m0.Before (m.beforeStore L.idx)
  data : WritesFlushed written (m.beforeStore L.idx) (L.data u)
  stack : WritesFlushed written (m.beforeStore L.idx) (L.stack u)

theorem switchLogic_written (hfix : Fixed L m0) (hdirty : WritesDirty L (1 - v) written m0)
    (hstack : WritesFlushed written m0 (L.stack (1 - v))) :
    SwitchLogic L v m0 (fun _ => True) (Flushing L (1 - v) written m0)
      (fun m => Flushing L (1 - v) written m0 m ∧ WritesFlushed written m (L.data (1 - v)))
      (FlushedAtSwitch L (1 - v) written m0) where
  start := ⟨.refl m0, .refl L m0, fun k hk hwrote => .inl (hdirty k hk hwrote), hstack⟩
  flush₁ := flushKeeps_flushing hfix
  flush₂ :=
    { levelled := fun h => (flushKeeps_flushing hfix).levelled h.1
      flush := fun m a h => ⟨(flushKeeps_flushing hfix).flush m a h.1, h.2.mono fun _ _ hf => hf.flush a⟩
      cleaned := fun h ha hd => ⟨(flushKeeps_flushing hfix).cleaned h.1 ha hd,
        h.2.mono fun _ hk hf => hf.cleaned (L.data_placed _) (fun _ => Owner.noConfusion) hk ha⟩ }
  kept₁ _ h := h.kept
  kept₂ _ h := h.1.kept
  clean m h hclean := ⟨h, h.flushed hclean⟩
  commit m word h _ := by
    refine ⟨trivial, ?_⟩
    have hpoint : (committed L (clflushRange m (L.ctx (1 - v)) 792) word).beforeStore L.idx =
        clflushRange m (L.ctx (1 - v)) 792 := by
      rw [committed, Memory.beforeStore_flush, Memory.beforeStore_store_self]
    refine ⟨?_, ?_, ?_⟩
    · rw [hpoint]
      exact h.1.before_clflush _ _
    · rw [hpoint]
      exact h.2.mono fun _ _ hf => hf.clflush _ _
    · rw [hpoint]
      exact h.1.stack.mono fun _ _ hf => hf.clflush _ _
  copy c x y hx h := by
    have hpoint : (c.store x y).beforeStore L.idx = c.beforeStore L.idx := by
      refine Memory.beforeStore_store_ne c y ?_
      rintro rfl
      exact idx_not_target hx
    exact ⟨hpoint ▸ h.before, hpoint ▸ h.data, hpoint ▸ h.stack⟩
  safe₁ _ _ := trivial
  safe₂ _ _ := trivial
  safe₃ _ _ := trivial

/-- The pages of the segment that were written to, and whose lines were all flushed after that. -/
def FlushesWrites (s : Tracked σ) (seg : SegmentMapping) : Prop :=
  ∀ k, 4096 * k < seg.mapSize.toNat → WroteTo s.written seg k →
    ∀ j, 512 * k ≤ j → j < 512 * (k + 1) → seg.word j ∈ s.flushed

theorem TrackedInv.writesFlushed {s : Tracked σ} (h : TrackedInv L v s) (hstack : FlushesWrites s (L.stack (1 - v))) :
    WritesFlushed s.written s.world.mem (L.stack (1 - v)) := by
  intro k hk hwrote j h₁ h₂
  have hw := (L.stack_placed (1 - v)).whole
  exact h.flushed _ (owns_word (L.stack_placed _) (by omega)) (hstack k hk hwrote j h₁ h₂)

theorem TrackedInv.switchContext {s : Tracked σ} (h : TrackedInv L v s) (hstack : FlushesWrites s (L.stack (1 - v)))
    {w' : World σ} (hrun : (PersistentProcessInfo.switchContext L.mask L.info).run s.world = .ok () w') :
    FlushedAtSwitch L (1 - v) s.written s.world.mem w'.mem ∧ Switched L v s.world.mem w'.mem :=
  ((switchLogic_written h.fixed h.dirty (h.writesFlushed hstack)).ensures h.fixed h.idx).of_ok hrun

end

/-! ## Runs -/

section

variable {L : Layout} {s : Tracked σ}

theorem TrackedRun.inv (h : TrackedRun L s) : ∃ v, TrackedInv L v s := by
  induction h with
  | init hfix hidx =>
    exact ⟨_, hfix, hidx, fun k _ ⟨j, _, _, hj⟩ => absurd hj (Set.notMem_empty _),
      fun _ _ h => absurd h (Set.notMem_empty _)⟩
  | @step s e w' _ he hrun ih =>
    obtain ⟨v, ih⟩ := ih
    by_cases hsw : e = .switchContext
    · subst hsw
      have hsw := switched_of_ok ih.fixed ih.idx hrun
      exact ⟨1 - v, hsw.fixed ih.fixed, hsw.idx, fun k _ ⟨j, _, _, hj⟩ => absurd hj (Set.notMem_empty _),
        fun _ _ h => absurd h (Set.notMem_empty _)⟩
    · have hdoes := (ensures_event_undisturbed ih.fixed ih.idx he hsw).of_ok hrun
      have hun := hdoes.undisturbed
      have hdirty : WritesDirty L (1 - v) s.written w'.mem :=
        fun k hk hwrote => (ih.dirty k hk hwrote).undisturbed ih.fixed hun
      cases e with
      | write va y => exact ⟨v, ih.write he hdoes⟩
      | switchContext => exact absurd rfl hsw
      | flush a =>
        refine ⟨v, hun.fixed ih.fixed, hun.idxIs ih.idx, hdirty, fun x hx hmem => ?_⟩
        exact hmem.elim (fun h => hdoes.keeps x hx nofun (ih.flushed x hx h)) (hdoes.flushes a x rfl)
      | _ => exact ⟨v, hun.fixed ih.fixed, hun.idxIs ih.idx, hdirty,
          fun x hx h => hdoes.keeps x hx nofun (ih.flushed x hx h)⟩

/-- When a call of `SwitchContext` returns, the pages of the data and the stack segment that the process had written
to since the last one were flushed before `valid_ctx_idx_` was stored, if the process has flushed those of the stack
itself, line by line, after it wrote to them, or has written to none. -/
theorem switchContext_flushes_written (hrun : TrackedRun L s)
    (hstack : FlushesWrites s (L.stack (L.working s.world.mem))) {w' : World σ}
    (hcall : (PersistentProcessInfo.switchContext L.mask L.info).run s.world = .ok () w') :
    s.world.mem.Before (w'.mem.beforeStore L.idx) ∧
      WritesFlushed s.written (w'.mem.beforeStore L.idx) (L.data (L.working s.world.mem)) ∧
      WritesFlushed s.written (w'.mem.beforeStore L.idx) (L.stack (L.working s.world.mem)) := by
  obtain ⟨v, hinv⟩ := hrun.inv
  rw [hinv.idx.working] at hstack ⊢
  obtain ⟨hflushed, -⟩ := hinv.switchContext hstack hcall
  exact ⟨hflushed.before, hflushed.data, hflushed.stack⟩

end

/-! ## A process with one stack page -/

/-- The process has written to its stack. -/
def stackWritten : World Unit :=
  final ((Event.exec onePage.mask onePage.info (.write 0x401000#64 7#64)).run onePageStart)
def stackTracked : Tracked Unit := .after onePage ⟨onePageStart, ∅, ∅⟩ (.write 0x401000#64 7#64) stackWritten

theorem stackTracked_run : TrackedRun onePage stackTracked ∧ WroteTo stackTracked.written (onePage.stack 1) 0 := by
  have hworking : onePage.working onePageStart.mem = 1 := by decide +kernel
  have hidx : IdxIs onePageStart.mem onePage 0 := by
    unfold IdxIs
    decide +kernel
  constructor
  · exact .step (.init onePage_fixed hidx) ⟨onePage.stack 1, .inr (by rw [hworking]), 0, by decide, by decide⟩
      (eq_final_of_returned (by decide +kernel))
  · refine ⟨0, le_refl _, by omega, .inr ?_⟩
    rw [hworking]
    decide +kernel

/-- Lines flushed one after the other. -/
theorem TrackedRun.flushes {L : Layout} {s : Tracked σ} (h : TrackedRun L s) (l : List Nat) :
    TrackedRun L ⟨{ s.world with mem := l.foldl Memory.flush s.world.mem }, s.written,
      {x | x ∈ s.flushed ∨ ∃ a ∈ l, line x = line a}⟩ := by
  induction l generalizing s with
  | nil => simpa using h
  | cons a l ih => simpa [Tracked.after, or_assoc] using ih (.step (e := .flush a) h trivial rfl)

/-- The lines of its stack. -/
def stackLines : List Nat := (List.range 64).map (0x23000 + 64 * ·)

/-- The process has flushed them. -/
def stackFlushed : Tracked Unit where
  world := { stackWritten with mem := stackLines.foldl Memory.flush stackWritten.mem }
  written := stackTracked.written
  flushed := {x | x ∈ stackTracked.flushed ∨ ∃ a ∈ stackLines, line x = line a}

theorem stackFlushed_writes : FlushesWrites stackFlushed (onePage.stack 1) := by
  intro k hk _ j _ hj
  have hk : 4096 * k < 4096 := hk
  refine .inr ⟨0x23000 + 64 * (j / 8), List.mem_map_of_mem (List.mem_range.2 (by omega)), ?_⟩
  show (0x23000 + 8 * j) / 64 = (0x23000 + 64 * (j / 8)) / 64
  omega

def stackSaved : World Unit := final ((Event.exec onePage.mask onePage.info .switchContext).run stackFlushed.world)

theorem switchContext_flushes_stackPage : ∃ (s : Tracked Unit) (w' : World Unit), TrackedRun onePage s ∧
    (PersistentProcessInfo.switchContext onePage.mask onePage.info).run s.world = .ok () w' ∧
      WroteTo s.written (onePage.stack 1) 0 ∧ PageFlushed (w'.mem.beforeStore onePage.idx) (onePage.stack 1) 0 := by
  obtain ⟨hrun, hwrote⟩ := stackTracked_run
  have hrun : TrackedRun onePage stackFlushed := hrun.flushes stackLines
  have hstack := stackFlushed_writes
  have hworking : onePage.working stackFlushed.world.mem = 1 := by decide +kernel
  have hcall : (PersistentProcessInfo.switchContext onePage.mask onePage.info).run stackFlushed.world =
      .ok () stackSaved := eq_final_of_returned (by decide +kernel)
  -- from here on the worlds need not be computed
  generalize stackSaved = w' at hcall
  rw [← hworking] at hstack
  obtain ⟨-, -, hflushed⟩ := switchContext_flushes_written hrun hstack hcall
  rw [hworking] at hflushed
  exact ⟨_, w', hrun, hcall, hwrote, hflushed 0 (by decide) hwrote⟩

def stackOnce : World Unit := final ((Event.exec onePage.mask onePage.info .switchContext).run stackWritten)

/-- It does not, and the page is not flushed when its context becomes the valid one. -/
theorem switchContext_leaves_stack : ∃ (s : Tracked Unit) (w' : World Unit), TrackedRun onePage s ∧
    (PersistentProcessInfo.switchContext onePage.mask onePage.info).run s.world = .ok () w' ∧
      onePage.working s.world.mem = 1 ∧ WroteTo s.written (onePage.stack 1) 0 ∧
      ¬ PageFlushed (w'.mem.beforeStore onePage.idx) (onePage.stack 1) 0 := by
  obtain ⟨hrun, hwrote⟩ := stackTracked_run
  have hworking : onePage.working stackWritten.mem = 1 := by decide +kernel
  have hcall : (PersistentProcessInfo.switchContext onePage.mask onePage.info).run stackWritten = .ok () stackOnce :=
    eq_final_of_returned (by decide +kernel)
  have hnot : ¬ Flushed line (stackOnce.mem.beforeStore onePage.idx) ((onePage.stack 1).word 0) := by decide +kernel
  generalize stackOnce = w' at hcall hnot
  exact ⟨_, w', hrun, hcall, hworking, hwrote, fun h => hnot (h 0 (le_refl _) (by omega))⟩

end Liumos.Process
