/-
Table pages by level, for trees that may share tables: the two page tables of a persistent process hold
the kernel's tables in common. What no dirty bit changes: the tables on a path, the entry that maps an
address, and its translation. Source: paging.h.
-/
import Liumos.Paging.Tree

namespace Liumos.Paging

/-- The page an address lies in. -/
def pageOf (a : Nat) : Nat := a / 4096 * 4096

/-- The pages that hold tables have one level each: below a table of level `l + 1` there are tables of
level `l` only. -/
structure Levelled (mask : Word) (lv : Nat → Option Nat) (m : Mem) : Prop where
  aligned : ∀ {p l}, lv p = some l → p % 4096 = 0
  child : ∀ {l t va t'}, lv t.toNat = some (l + 1) →
    child mask (l + 1) (m.load (entryAddr (l + 1) t va)) = some t' → lv t'.toNat = some l

/-- Memory that agrees on all tables, up to the dirty bits. -/
def SameTables (lv : Nat → Option Nat) (m m' : Mem) : Prop :=
  ∀ a l, lv (pageOf a) = some l → clearDirtyBit (m'.load a) = clearDirtyBit (m.load a)

section

variable {mask root : Word} {lv : Nat → Option Nat} {m m' : Mem}

theorem SameTables.of_load (h : ∀ a l, lv (pageOf a) = some l → m'.load a = m.load a) : SameTables lv m m' := by
  intro a l ha
  rw [h a l ha]

theorem SameTables.trans {m'' : Mem} (h : SameTables lv m m') (h' : SameTables lv m' m'') : SameTables lv m m'' :=
  fun a l ha => (h' a l ha).trans (h a l ha)

variable {a k : Nat} {t va : Word}

/-- A store outside the tables. -/
theorem sameTables_store (ha : lv (pageOf a) = none) (v : Word) : SameTables lv m (m.store a v) := by
  refine SameTables.of_load fun x l hx => WriteBack.Memory.load_store_ne _ _ ?_
  rintro rfl
  rw [ha] at hx
  cases hx

/-- A store that changes the dirty bit of an entry. -/
theorem sameTables_store_dirty {v : Word} (hv : clearDirtyBit v = clearDirtyBit (m.load a)) :
    SameTables lv m (m.store a v) := by
  intro x l _
  rw [WriteBack.Memory.load_store]
  split
  · rename_i hx; rw [hx, hv]
  · rfl

theorem Levelled.page {l t va} (h : Levelled mask lv m) (ht : lv t.toNat = some l) :
    pageOf (entryAddr k t va) = t.toNat :=
  entryAddr_mem_page (h.aligned ht)

theorem Levelled.tableAt (h : Levelled mask lv m) (hroot : lv root.toNat = some 3) {va : Word} :
    ∀ {d t}, d ≤ 3 → Paging.tableAt mask m root va d = some t → lv t.toNat = some (3 - d)
  | 0, t, _, ht => by cases ht; exact hroot
  | d + 1, t, hd, ht => by
    obtain ⟨t0, ht0, hc⟩ := tableAt_succ_some ht
    have h0 := h.tableAt hroot (by omega) ht0
    rw [entryAt, show 3 - d = 3 - (d + 1) + 1 by omega] at hc
    rw [show 3 - d = 3 - (d + 1) + 1 by omega] at h0
    exact h.child h0 hc

theorem child_clearDirtyBit (mask : Word) (l : Nat) (e : Word) :
    Paging.child mask l (clearDirtyBit e) = Paging.child mask l e := by
  rw [Paging.child, Paging.child, isPresent_clearDirtyBit, isPage_clearDirtyBit, getTableAddr_clearDirtyBit]

section

variable (h : Levelled mask lv m) (hs : SameTables lv m m')

include h hs

theorem Levelled.child_eq {l : Nat} (ht : lv t.toNat = some l) (va : Word) :
    Paging.child mask k (m'.load (entryAddr k t va)) = Paging.child mask k (m.load (entryAddr k t va)) := by
  rw [← child_clearDirtyBit, hs _ l (by rw [h.page ht, ht]), child_clearDirtyBit]

theorem Levelled.of_same : Levelled mask lv m' := by
  refine ⟨h.aligned, fun {l t va t'} ht hc => ?_⟩
  rw [h.child_eq hs ht] at hc
  exact h.child ht hc

theorem Levelled.tableAt_eq (hroot : lv root.toNat = some 3) (va : Word) :
    ∀ {d}, d ≤ 3 → Paging.tableAt mask m' root va d = Paging.tableAt mask m root va d
  | 0, _ => rfl
  | d + 1, hd => by
    rw [Paging.tableAt, Paging.tableAt, Levelled.tableAt_eq hroot va (by omega)]
    cases ht : Paging.tableAt mask m root va d with
    | none => rfl
    | some t => rw [Option.bind_some, Option.bind_some, h.child_eq hs (h.tableAt hroot (by omega) ht)]

end

/-! ## The entry that maps an address -/

/-- The entry depends on the indices of the address. -/
theorem leaf_congr {va va' t : Word} : ∀ {l : Nat}, (∀ k ≤ l, addr2index k va = addr2index k va') →
    leaf mask m l t va = leaf mask m l t va'
  | 0, h => by
    rw [leaf, leaf, entryAddr, entryAddr, h 0 (le_refl 0)]
  | l + 1, h => by
    have he : entryAddr (l + 1) t va = entryAddr (l + 1) t va' := entryAddr_congr (h (l + 1) (le_refl _))
    rw [leaf, leaf, he, leaf_congr fun k hk => h k (by omega)]

/-- The entry that maps an address lies in a table of its level. -/
theorem Levelled.leaf_level (h : Levelled mask lv m) {va : Word} {k a : Nat} :
    ∀ {l t}, lv t.toNat = some l → leaf mask m l t va = some (k, a) → lv (pageOf a) = some k ∧ k ≤ l
  | 0, t, ht, hf => by
    rw [leaf] at hf
    split at hf
    · cases hf; exact ⟨by rw [h.page ht, ht], le_refl 0⟩
    · cases hf
  | l + 1, t, ht, hf => by
    simp only [leaf] at hf
    split at hf
    · cases hf
    · split at hf
      · cases hf; exact ⟨by rw [h.page ht, ht], le_refl _⟩
      · rename_i hpres hpage
        simp only [Bool.not_eq_true, Bool.not_eq_false'] at hpres hpage
        obtain ⟨h1, h2⟩ := h.leaf_level (h.child ht (child_of hpres hpage)) hf
        exact ⟨h1, by omega⟩

theorem Levelled.leaf_eq (h : Levelled mask lv m) (hs : SameTables lv m m') (va : Word) :
    ∀ {l t}, lv t.toNat = some l → leaf mask m' l t va = leaf mask m l t va
  | 0, t, ht => by
    have he := hs (entryAddr 0 t va) 0 (by rw [h.page ht, ht])
    rw [leaf, leaf, ← isPresent_clearDirtyBit, he, isPresent_clearDirtyBit]
  | l + 1, t, ht => by
    have he := hs (entryAddr (l + 1) t va) (l + 1) (by rw [h.page ht, ht])
    simp only [leaf]
    rw [← isPresent_clearDirtyBit, ← isPage_clearDirtyBit, ← getTableAddr_clearDirtyBit, he, isPresent_clearDirtyBit,
      isPage_clearDirtyBit, getTableAddr_clearDirtyBit]
    split
    · rfl
    · split
      · rfl
      · rename_i hpres hpage
        simp only [Bool.not_eq_true, Bool.not_eq_false'] at hpres hpage
        exact h.leaf_eq hs va (h.child ht (child_of hpres hpage))

theorem Levelled.v2p_eq (h : Levelled mask lv m) (hs : SameTables lv m m') (hroot : lv root.toNat = some 3)
    (va : Word) : v2p mask m' 3 root va = v2p mask m 3 root va := by
  rw [v2p_eq_leaf, v2p_eq_leaf, h.leaf_eq hs va hroot]
  cases hf : leaf mask m 3 root va with
  | none => rfl
  | some p =>
    obtain ⟨hl, hk⟩ := h.leaf_level hroot hf
    simp only
    rw [← getPageBaseAddr_clearDirtyBit mask hk, hs _ _ hl, getPageBaseAddr_clearDirtyBit mask hk]

end

end Liumos.Paging
