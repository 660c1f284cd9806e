/-
Where the parts of a persistent process lie in physical memory, what stays as it is while the process
runs, and what one `SwitchContext` does to them.
Sources: execution_context.h, execution_context.cc; elf.cc (`LoadELFAndCreatePersistentProcess`) for
what its caller sets up: segments of whole pages, allocated apart from each other and from the tables.
-/
import Liumos.Process.ExecutionContext

namespace Liumos.Process

open Paging WriteBack PersistentProcessInfo BitVec

/-! ## Layouts -/

/-- What a page of physical memory is used for: the `PersistentProcessInfo`, a page table of some level,
or the data or the stack segment of one of the two contexts. -/
inductive Owner where
  | info
  | table (level : Nat)
  | data (i : Fin 2)
  | stack (i : Fin 2)
  deriving DecidableEq

/-- A segment of whole pages that are used for `o`. -/
structure Placed (owner : Nat → Option Owner) (o : Owner) (s : SegmentMapping) : Prop where
  vaddr : s.vaddr.toNat % 4096 = 0
  whole : s.mapSize.toNat % 4096 = 0
  fits : s.paddr.toNat + s.mapSize.toNat ≤ 2 ^ 64
  own : ∀ k, 4096 * k < s.mapSize.toNat → owner (s.paddr.toNat + 4096 * k) = some o

/-- The layout of a persistent process. A page has one owner, so nothing overlaps. -/
structure Layout where
  mask : Word
  info : Nat
  owner : Nat → Option Owner
  cr3 : Fin 2 → Word
  data : Fin 2 → SegmentMapping
  stack : Fin 2 → SegmentMapping
  aligned : ∀ {p o}, owner p = some o → p % 4096 = 0
  info_own : owner info = some .info
  cr3_own : ∀ i, owner (cr3 i).toNat = some (.table 3)
  data_placed : ∀ i, Placed owner (.data i) (data i)
  stack_placed : ∀ i, Placed owner (.stack i) (stack i)
  data_virt : ∀ i, (data i).vaddr.toNat % 2 ^ 48 + (data i).mapSize.toNat ≤ 2 ^ 48

namespace Layout

variable (L : Layout)

/-- The level of the tables in a page. -/
def lv (p : Nat) : Option Nat :=
  match L.owner p with
  | some (.table l) => some l
  | _ => none

/-- `&ctx_[i]`. -/
def ctx (i : Fin 2) : Nat := ctxAddr L.info i

/-- `&valid_ctx_idx_`. -/
def idx : Nat := validCtxIdxAddr L.info

/-- The page of `x` is used for `o`. -/
def Owns (o : Owner) (x : Nat) : Prop := L.owner (pageOf x) = some o

variable {L}

variable {o o' : Owner} {x : Nat}

theorem Owns.unique (h : L.Owns o x) (h' : L.Owns o' x) : o = o' := Option.some_inj.1 (h.symm.trans h')

theorem Owns.ne {y : Nat} (hx : L.Owns o x) (hy : L.Owns o' y) (h : o ≠ o') : x ≠ y := by
  rintro rfl
  exact h (hx.unique hy)

theorem Owns.lv {o : Owner} {x : Nat} (hx : L.Owns o x) (ho : ∀ l, o ≠ .table l) : L.lv (pageOf x) = none := by
  unfold Layout.lv
  rw [hx]
  cases o with
  | table l => exact absurd rfl (ho l)
  | info | data | stack => rfl

theorem owns_of_lv {l : Nat} (h : L.lv (pageOf x) = some l) : L.Owns (.table l) x := by
  unfold Layout.lv at h
  split at h
  · rename_i ho
    cases h
    exact ho
  · cases h

theorem owns_info (h1 : L.info ≤ x) (h2 : x < L.info + 4096) : L.Owns .info x := by
  have h0 := L.aligned L.info_own
  have : pageOf x = L.info := by unfold pageOf; omega
  rw [Owns, this]
  exact L.info_own

theorem ctx_bounds (i : Fin 2) : L.info ≤ L.ctx i ∧ L.ctx i + 792 ≤ L.idx := by
  unfold ctx ctxAddr idx validCtxIdxAddr ExecutionContext.size
  omega

theorem owns_ctx (i : Fin 2) {k : Nat} (hk : k < 99) : L.Owns .info (L.ctx i + 8 * k) := by
  have := ctx_bounds (L := L) i
  have : L.idx = L.info + 1584 := rfl
  exact owns_info (by omega) (by omega)

theorem owns_idx :
    L.Owns .info L.idx := owns_info (by unfold idx validCtxIdxAddr; omega) (by unfold idx validCtxIdxAddr; omega)

variable {s : SegmentMapping}

theorem owns_word (h : Placed L.owner o s) {j : Nat} (hj : 8 * j < s.mapSize.toNat) : L.Owns o (s.word j) := by
  have h0 := L.aligned (h.own 0 (by omega))
  have : pageOf (s.word j) = s.paddr.toNat + 4096 * (j / 512) := by
    unfold pageOf SegmentMapping.word
    omega
  rw [Owns, this]
  exact h.own _ (by omega)

end Layout

/-! ## What stays as it is -/

/-- The page table `root` maps the segment. -/
def Mapped (mask : Word) (m : Mem) (root : Word) (s : SegmentMapping) : Prop :=
  ∀ j, 8 * j < s.mapSize.toNat → v2p mask m 3 root (s.vaddr + BitVec.ofNat 64 (8 * j)) = s.paddr +
    BitVec.ofNat 64 (8 * j)

/-- The bytes of a page that an entry of the lowest level maps. -/
theorem v2p_of_leaf {mask root va pa : Word} {m : Mem} {a o : Nat} (hv : va.toNat % 4096 = 0) (hp : pa.toNat % 4096 = 0)
    (ho : o < 4096) (hleaf : leaf mask m 3 root va = some (0, a)) (hbase : getPageBaseAddr mask 0 (m.load a) = pa) :
    v2p mask m 3 root (va + BitVec.ofNat 64 o) = pa + BitVec.ofNat 64 o := by
  have hpath : path 4 (va + BitVec.ofNat 64 o) = path 4 va := by
    rw [path, path, toNat_add, toNat_ofNat]
    omega
  rw [v2p_eq_leaf, leaf_congr fun k hk => addr2index_of_path hpath hk, hleaf]
  show getPageBaseAddr mask 0 (m.load a) ||| _ = _
  rw [hbase, kOffsetMask_eq (by omega), or_offset_eq (x := pa.toNat + o) (by decide) hp]
  · apply eq_of_toNat_eq
    rw [toNat_add, toNat_ofNat, toNat_ofNat]
    omega
  · rw [toNat_add, toNat_ofNat]
    show _ + _ % 2 ^ 12 = _
    omega

/-- Memory holds a process of layout `L`. -/
structure Fixed (L : Layout) (m : Mem) : Prop where
  levelled : Levelled L.mask L.lv m
  cr3 : ∀ i, m.load (L.ctx i) = L.cr3 i
  data : ∀ i, SegmentIs m (ExecutionContext.dataAddr (L.ctx i)) (L.data i)
  stack : ∀ i, SegmentIs m (ExecutionContext.stackAddr (L.ctx i)) (L.stack i)
  data_mapped : ∀ i, Mapped L.mask m (L.cr3 i) (L.data i)
  stack_mapped : ∀ i, Mapped L.mask m (L.cr3 i) (L.stack i)

/-- `valid_ctx_idx_` is `v`. -/
def IdxIs (m : Mem) (L : Layout) (v : Fin 2) : Prop := low32 (m.load L.idx) = BitVec.ofNat 32 v

/-- Only dirty bits changed. -/
structure Kept (L : Layout) (m m' : Mem) : Prop where
  load : ∀ x, L.lv (pageOf x) = none → m'.load x = m.load x
  tables : SameTables L.lv m m'

section

variable {L : Layout} {m m' : Mem}

theorem lv_cr3 (L : Layout) (i : Fin 2) : L.lv (L.cr3 i).toNat = some 3 := by
  unfold Layout.lv
  rw [L.cr3_own i]

/-- The words of the contexts that hold their page table and their data and stack segments. -/
def IsFixedWord (k : Nat) : Prop := k = 0 ∨ 88 ≤ k ∧ k < 94

theorem SegmentIs.congr {a : Nat} (h : SegmentIs m a s)
    (hl : ∀ k < 3, m'.load (a + 8 * k) = m.load (a + 8 * k)) : SegmentIs m' a s :=
  ⟨(hl 0 (by omega)).trans h.vaddr, (hl 1 (by omega)).trans h.paddr, (hl 2 (by omega)).trans h.mapSize⟩

theorem Fixed.of_same (h : Fixed L m) (hs : SameTables L.lv m m')
    (hw : ∀ i k, IsFixedWord k → m'.load (L.ctx i + 8 * k) = m.load (L.ctx i + 8 * k)) : Fixed L m' where
  levelled := h.levelled.of_same hs
  cr3 i := (hw i 0 (.inl rfl)).trans (h.cr3 i)
  data i := by
    refine (h.data i).congr fun k hk => ?_
    rw [ExecutionContext.dataAddr, show L.ctx i + 704 + 8 * k = L.ctx i + 8 * (88 + k) by omega]
    exact hw i _ (.inr (by omega))
  stack i := by
    refine (h.stack i).congr fun k hk => ?_
    rw [ExecutionContext.stackAddr, show L.ctx i + 728 + 8 * k = L.ctx i + 8 * (91 + k) by omega]
    exact hw i _ (.inr (by omega))
  data_mapped i j hj := (h.levelled.v2p_eq hs (lv_cr3 L i) _).trans (h.data_mapped i j hj)
  stack_mapped i j hj := (h.levelled.v2p_eq hs (lv_cr3 L i) _).trans (h.stack_mapped i j hj)

theorem IsFixedWord.lt {k : Nat} (h : IsFixedWord k) : k < 99 := by
  rcases h with rfl | h
  · omega
  · omega

theorem Kept.refl (L : Layout) (m : Mem) : Kept L m m := ⟨fun _ _ => rfl, SameTables.of_load fun _ _ _ => rfl⟩

theorem Kept.trans {m'' : Mem} (h : Kept L m m') (h' : Kept L m' m'') : Kept L m m'' :=
  ⟨fun x hx => (h'.load x hx).trans (h.load x hx), h.tables.trans h'.tables⟩

theorem Kept.of_load (h : ∀ x, m'.load x = m.load x) : Kept L m m' := ⟨fun x _ => h x, .of_load fun x _ _ => h x⟩

theorem Kept.cleaned {a : Nat} {l : Nat} (ha : L.lv (pageOf a) = some l) : Kept L m (Paging.cleaned L.mask m a) := by
  refine ⟨fun x hx => ?_, sameTables_cleaned L.mask m a⟩
  rw [Paging.cleaned, Memory.load_store_ne, load_clflushRange]
  rintro rfl
  rw [ha] at hx
  cases hx

theorem Kept.load_info (h : Kept L m m') {x : Nat} (hx : L.Owns .info x) : m'.load x = m.load x :=
  h.load x (hx.lv fun _ => Owner.noConfusion)

theorem Fixed.of_kept (h : Fixed L m) (hk : Kept L m m') : Fixed L m' :=
  h.of_same hk.tables fun i _ hw => hk.load_info (Layout.owns_ctx i hw.lt)

/-- What changes dirty bits only, `FlushDirtyPages` keeps. -/
theorem flushKeeps_kept (h : Fixed L m) : FlushKeeps L.mask L.lv (Kept L m) where
  levelled hk := (h.of_kept hk).levelled
  flush m' a hk := hk.trans (.of_load fun x => Memory.load_flush m' a x)
  cleaned hk ha _ := hk.trans (.cleaned ha)

end

end Liumos.Process
