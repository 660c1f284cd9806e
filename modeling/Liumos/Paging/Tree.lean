/-
The page table tree: the tables on the path of an address, the translation `v2p`, and the trees in
which no table page is shared. A store to one entry of such a tree is seen only by the addresses
whose path goes through that entry.
Source: paging.h. A table at depth `d` below the PML4 has level `3 - d`.
-/
import Liumos.Paging.Entry

namespace Liumos.Paging

open Nat

/-! ## Walks and translation -/

/-- The address of `table->GetEntryForAddr(vaddr)`. -/
def entryAddr (l : Nat) (table vaddr : Word) : Nat := table.toNat + 8 * addr2index l vaddr

/-- The entry at depth `d` of the tree. -/
abbrev entryAt (d : Nat) (table vaddr : Word) : Nat := entryAddr (3 - d) table vaddr

/-- The table an entry leads to, if it is present and maps no page. -/
def child (mask : Word) (l : Nat) (data : Word) : Option Word :=
  if isPresent data && !isPage l data then some (getTableAddr mask l data) else none

/-- `PageTableStruct::v2p` on a table of level `l`. -/
def v2p (mask : Word) (m : Mem) : Nat → Word → Word → Word
  | 0, table, vaddr =>
    let e := m.load (entryAddr 0 table vaddr)
    if !isPresent e then kAddrCannotTranslate
    else if isPage 0 e then getPageBaseAddr mask 0 e ||| (vaddr &&& kOffsetMask 0)
    -- `v2pWithTable` of an entry that can hold no table
    else kAddrCannotTranslate
  | l + 1, table, vaddr =>
    let e := m.load (entryAddr (l + 1) table vaddr)
    if !isPresent e then kAddrCannotTranslate
    else if isPage (l + 1) e then getPageBaseAddr mask (l + 1) e ||| (vaddr &&& kOffsetMask (l + 1))
    else v2p mask m l (getTableAddr mask (l + 1) e) vaddr

/-- The entry that maps an address below a table of level `l`: its level and where it is. -/
def leaf (mask : Word) (m : Mem) : Nat → Word → Word → Option (Nat × Nat)
  | 0, table, vaddr => if isPresent (m.load (entryAddr 0 table vaddr)) then some (0, entryAddr 0 table vaddr) else none
  | l + 1, table, vaddr =>
    let e := m.load (entryAddr (l + 1) table vaddr)
    if !isPresent e then none
    else if isPage (l + 1) e then some (l + 1, entryAddr (l + 1) table vaddr)
    else leaf mask m l (getTableAddr mask (l + 1) e) vaddr

/-- The table at depth `d` on the path of `vaddr` from the PML4 `root`. -/
def tableAt (mask : Word) (m : Mem) (root vaddr : Word) : Nat → Option Word
  | 0 => some root
  | d + 1 => (tableAt mask m root vaddr d).bind fun t => child mask (3 - d) (m.load (entryAt d t vaddr))

/-- The first `d` table indices of an address, as one number. -/
def path (d : Nat) (vaddr : Word) : Nat := vaddr.toNat % 2 ^ 48 / 2 ^ (48 - 9 * d)

theorem path_zero (va : Word) : path 0 va = 0 := by unfold path; omega

variable {d : Nat}

theorem path_succ (hd : d ≤ 3) (va : Word) : path (d + 1) va = path d va * 512 + addr2index (3 - d) va := by
  rw [toNat_addr2index]
  unfold path kIndexShift
  interval_cases d <;> norm_num <;> omega

/-- Two addresses share `d + 1` indices exactly when they share `d` and the next one. -/
theorem path_succ_eq_iff (hd : d ≤ 3) (va va' : Word) :
    path (d + 1) va = path (d + 1) va' ↔ path d va = path d va' ∧ addr2index (3 - d) va = addr2index (3 - d) va' := by
  rw [path_succ hd, path_succ hd]
  have := addr2index_lt (3 - d) va
  have := addr2index_lt (3 - d) va'
  omega

theorem path_one (va : Word) : path 1 va = addr2index 3 va := by
  rw [path_succ (zero_le 3), path_zero, zero_mul, zero_add]

theorem path_mono {va va' : Word} : ∀ {d' d : Nat}, d ≤ d' → d' ≤ 4 → path d' va = path d' va' → path d va = path d va'
  | 0, d, hd, _, h => by
    obtain rfl : d = 0 := by omega
    exact h
  | d' + 1, d, hd, hd', h => by
    rcases hd.lt_or_eq with hlt | rfl
    · exact path_mono (by omega) (by omega) ((path_succ_eq_iff (by omega) va va').1 h).1
    · exact h

theorem addr2index_of_path {va va' : Word} (hp : path 4 va = path 4 va') {k : Nat} (hk : k ≤ 3) :
    addr2index k va = addr2index k va' := by
  have h := ((path_succ_eq_iff (d := 3 - k) (by omega) va va').1 (path_mono (by omega) (le_refl 4) hp)).2
  rwa [show 3 - (3 - k) = k by omega] at h

section

variable {mask : Word} {m m' : Mem} {root : Word}

theorem tableAt_congr {va va' : Word} : ∀ {d : Nat}, d ≤ 4 → path d va = path d va' →
    tableAt mask m root va d = tableAt mask m root va' d
  | 0, _, _ => rfl
  | d + 1, hd, h => by
    obtain ⟨h1, h2⟩ := (path_succ_eq_iff (by omega) va va').1 h
    simp only [tableAt, tableAt_congr (by omega : d ≤ 4) h1, entryAddr, h2]

variable {va t e : Word} {d l : Nat}

theorem tableAt_succ_some (h : tableAt mask m root va (d + 1) = some t) :
    ∃ t0, tableAt mask m root va d = some t0 ∧ child mask (3 - d) (m.load (entryAt d t0 va)) = some t := by
  simpa only [tableAt, Option.bind_eq_some_iff] using h

theorem tableAt_succ (h : tableAt mask m root va d = some t) :
    tableAt mask m root va (d + 1) = child mask (3 - d) (m.load (entryAt d t va)) := by
  rw [tableAt, h, Option.bind_some]

/-- The tables on a path end with the first one that is missing. -/
theorem tableAt_of_le {d' : Nat} (h : tableAt mask m root va d' = some t) (hd : d ≤ d') :
    ∃ t', tableAt mask m root va d = some t' := by
  induction d' generalizing t with
  | zero =>
    obtain rfl := le_zero.1 hd
    exact ⟨t, h⟩
  | succ d' ih =>
    rcases le_succ_iff.1 hd with hle | rfl
    · obtain ⟨t0, h₀, -⟩ := tableAt_succ_some h
      exact ih h₀ hle
    · exact ⟨t, h⟩

theorem child_some (h : child mask l e = some t) :
    isPresent e = true ∧ isPage l e = false ∧ getTableAddr mask l e = t := by
  unfold child at h
  split at h
  · rename_i hc
    simp only [Bool.and_eq_true, Bool.not_eq_true'] at hc
    cases h; exact ⟨hc.1, hc.2, rfl⟩
  · cases h

theorem child_of (h1 : isPresent e = true) (h2 : isPage l e = false) :
    child mask l e = some (getTableAddr mask l e) := by
  simp [child, h1, h2]

theorem child_setAttr {attr : Word} (ha : AttrOk attr) (hl : l ≤ 3) (h1 : isPresent e = true)
    (h2 : isPage l e = false) : child mask l (setAttr e attr) = child mask l e := by
  rw [child_of h1 h2, child_of ((isPresent_setAttr e attr).trans ha.present) (by rw [isPage_setAttr hl]; exact h2),
    getTableAddr_setAttr mask hl]

theorem child_none_of_not_present (h : isPresent e = false) : child mask l e = none := by
  simp [child, h]

theorem child_none_of_page (h : isPage l e = true) : child mask l e = none := by
  simp [child, h]

/-- Entries hold page-aligned tables. -/
theorem getTableAddr_aligned (l : Nat) (e : Word) : (getTableAddr mask l e).toNat % 4096 = 0 := by
  unfold getTableAddr
  split
  · rfl
  · rw [kPageAddrMask_eq, show 4096 = 2 ^ 12 by norm_num, ← toNat_and_lowMask _ (by norm_num : 12 ≤ 64)]
    rw [BitVec.and_assoc, BitVec.and_comm (~~~lowMask 12), BitVec.and_not_self]
    simp

/-- The translation of an address is read from the entry that maps it. -/
theorem v2p_eq_leaf (va : Word) : ∀ l t, v2p mask m l t va = match leaf mask m l t va with
    | none => kAddrCannotTranslate | some (k, a) => getPageBaseAddr mask k (m.load a) ||| (va &&& kOffsetMask k)
  | 0, t => by
    rw [v2p, leaf]
    cases isPresent (m.load (entryAddr 0 t va)) <;> simp
  | l + 1, t => by
    simp only [v2p, leaf]
    cases isPresent (m.load (entryAddr (l + 1) t va))
    · simp
    · cases isPage (l + 1) (m.load (entryAddr (l + 1) t va))
      · simpa using v2p_eq_leaf va l _
      · simp

/-- Below a table on its path, an address is mapped as it is from the root. -/
theorem leaf_descend {va t : Word} : ∀ {d : Nat}, d ≤ 3 → tableAt mask m root va d = some t →
    leaf mask m 3 root va = leaf mask m (3 - d) t va
  | 0, _, h => by cases h; rfl
  | d + 1, hd, h => by
    obtain ⟨t0, h₀, hc⟩ := tableAt_succ_some h
    obtain ⟨h₁, h₂, rfl⟩ := child_some hc
    rw [leaf_descend (by omega) h₀]
    obtain ⟨l, hl⟩ : ∃ l, 3 - (d + 1) = l := ⟨_, rfl⟩
    simp only [entryAt, show 3 - d = l + 1 by omega] at h₁ h₂ ⊢
    rw [hl, leaf]
    simp [h₁, h₂]

theorem leaf_absent : ∀ {l : Nat}, isPresent (m.load (entryAddr l t va)) = false → leaf mask m l t va = none
  | 0, h => by
    rw [leaf, h]
    rfl
  | l + 1, h => by
    simp [leaf, h]

/-- An entry that maps a page maps the address. -/
theorem leaf_page : ∀ {l : Nat}, isPresent (m.load (entryAddr l t va)) = true →
    isPage l (m.load (entryAddr l t va)) = true → leaf mask m l t va = some (l, entryAddr l t va)
  | 0, h, _ => by rw [leaf, if_pos h]
  | l + 1, h, h' => by simp [leaf, h, h']

section

variable (hd : d ≤ 3) (h : tableAt mask m root va d = some t)

include hd h

/-- It also translates as it does from the root. -/
theorem v2p_descend : v2p mask m 3 root va = v2p mask m (3 - d) t va := by
  rw [v2p_eq_leaf, v2p_eq_leaf, leaf_descend hd h]

/-- An address whose path ends at an entry that is not present does not translate. -/
theorem v2p_of_not_present
    (he : isPresent (m.load (entryAt d t va)) = false) : v2p mask m 3 root va = kAddrCannotTranslate := by
  rw [v2p_eq_leaf, leaf_descend hd h, leaf_absent he]

/-- An address whose path ends at a page translates into that page. -/
theorem v2p_of_page
    (he : isPresent (m.load (entryAt d t va)) = true) (hp : isPage (3 - d) (m.load (entryAt d t va)) = true) :
    v2p mask m 3 root va = getPageBaseAddr mask (3 - d) (m.load (entryAt d t va)) ||| (va &&& kOffsetMask (3 - d)) := by
  rw [v2p_eq_leaf, leaf_descend hd h, leaf_page he hp]

end

/-- Memories that agree on the entries on the path of an address from depth `k` on. -/
def SameBelow (mask : Word) (m m' : Mem) (root va : Word) (k : Nat) : Prop :=
  ∀ d t, k ≤ d → d ≤ 3 → tableAt mask m root va d = some t →
    m'.load (entryAt d t va) = m.load (entryAt d t va)

theorem SameBelow.tableAt_eq {va : Word} {k : Nat} (h : SameBelow mask m m' root va k)
    (hk : tableAt mask m' root va k = tableAt mask m root va k) :
    ∀ {d : Nat}, k ≤ d → d ≤ 4 → tableAt mask m' root va d = tableAt mask m root va d
  | 0, hkd, _ => by rw [show k = 0 by omega] at hk; exact hk
  | d + 1, hkd, hd => by
    by_cases hkd' : k = d + 1
    · rw [← hkd']; exact hk
    · have ih := SameBelow.tableAt_eq h hk (by omega : k ≤ d) (by omega)
      simp only [tableAt, ih]
      cases ht : tableAt mask m root va d with
      | none => rfl
      | some t => simp only [Option.bind_some, h d t (by omega) (by omega) ht]

theorem SameBelow.tables (h : SameBelow mask m m' root va 0) (hd : d ≤ 4) :
    tableAt mask m' root va d = tableAt mask m root va d := h.tableAt_eq (by simp only [tableAt]) (zero_le d) hd

/-- Two memories that agree below a table map an address through the same entry, and agree on it. -/
theorem leaf_eq_of_same_below {va : Word} : ∀ {l d : Nat} {t : Word}, d + l = 3 → tableAt mask m root va d = some t →
    SameBelow mask m m' root va d →
    leaf mask m' l t va = leaf mask m l t va ∧ ∀ k a, leaf mask m l t va = some (k, a) → m'.load a = m.load a
  | 0, d, t, hl, ht, h => by
    obtain rfl : d = 3 := hl
    have he := h 3 t (by omega) (by omega) ht
    rw [leaf, leaf, he]
    refine ⟨rfl, fun k a hf => ?_⟩
    split at hf <;> cases hf
    exact he
  | l + 1, d, t, hl, ht, h => by
    have hl' : 3 - d = l + 1 := by omega
    have he := h d t (le_refl d) (by omega) ht
    rw [entryAt, hl'] at he
    simp only [leaf, he]
    split
    · exact ⟨rfl, fun _ _ hf => by cases hf⟩
    · split
      · refine ⟨rfl, fun k a hf => ?_⟩
        cases hf
        exact he
      · rename_i hpres hpage
        simp only [Bool.not_eq_true, Bool.not_eq_false'] at hpres hpage
        refine leaf_eq_of_same_below (by omega : d + 1 + l = 3) ?_ fun d' t' hd => h d' t' (by omega)
        rw [tableAt_succ ht, entryAt, hl', child_of hpres hpage]

/-- Two memories that agree below a table translate alike from there. -/
theorem v2p_eq_of_same_below (hl : d + l = 3) (ht : tableAt mask m root va d = some t)
    (h : SameBelow mask m m' root va d) : v2p mask m' l t va = v2p mask m l t va := by
  obtain ⟨hleaf, hload⟩ := leaf_eq_of_same_below hl ht h
  rw [v2p_eq_leaf, v2p_eq_leaf, hleaf]
  cases hf : leaf mask m l t va with
  | none => rfl
  | some p =>
    simp only
    rw [hload _ _ hf]

theorem SameBelow.leaf_eq (h : SameBelow mask m m' root va 0) : leaf mask m' 3 root va = leaf mask m 3 root va :=
  (leaf_eq_of_same_below (zero_add 3) rfl h).1

theorem SameBelow.v2p_eq (h : SameBelow mask m m' root va 0) : v2p mask m' 3 root va = v2p mask m 3 root va :=
  v2p_eq_of_same_below (zero_add 3) rfl h

end

/-! ## Trees without sharing -/

/-- A page table tree: tables are page aligned, no two paths lead to one table page, and an entry
that is not present is zero. -/
structure TreeOk (mask : Word) (m : Mem) (root : Word) : Prop where
  aligned : root.toNat % 4096 = 0
  inj : ∀ {d d' : Nat} {va va' t : Word}, d ≤ 3 → d' ≤ 3 → tableAt mask m root va d = some t →
    tableAt mask m root va' d' = some t → d = d' ∧ path d va = path d va'
  zero : ∀ {d : Nat} {va t : Word}, d ≤ 3 → tableAt mask m root va d = some t →
    isPresent (m.load (entryAt d t va)) = false → m.load (entryAt d t va) = 0#64

section

variable {mask : Word} {m m' : Mem} {root : Word}

variable {va t t' va' : Word} {d : Nat}

theorem TreeOk.table_aligned (ht : TreeOk mask m root) :
    ∀ {d : Nat}, tableAt mask m root va d = some t → t.toNat % 4096 = 0
  | 0, h => by cases h; exact ht.aligned
  | d + 1, h => by
    obtain ⟨t0, -, hc⟩ := tableAt_succ_some h
    obtain ⟨-, -, rfl⟩ := child_some hc
    exact getTableAddr_aligned _ _

theorem entryAddr_inj {l l' : Nat} (ht : t.toNat % 4096 = 0) (ht' : t'.toNat % 4096 = 0)
    (h : entryAddr l t va = entryAddr l' t' va') : t = t' ∧ addr2index l va = addr2index l' va' := by
  have := addr2index_lt l va
  have := addr2index_lt l' va'
  unfold entryAddr at h
  refine ⟨BitVec.eq_of_toNat_eq (by omega), by omega⟩

theorem entryAddr_congr {l : Nat} (h : addr2index l va = addr2index l va') : entryAddr l t va = entryAddr l t va' := by
  rw [entryAddr, h, entryAddr]

theorem entryAddr_mem_page {l : Nat} (ht : t.toNat % 4096 = 0) : entryAddr l t va / 4096 * 4096 = t.toNat := by
  have := addr2index_lt l va
  unfold entryAddr
  omega

/-- An entry of the tree is read on the paths through it only. -/
theorem TreeOk.entry_inj (ht : TreeOk mask m root) {d' : Nat} (hd : d ≤ 3) (hd' : d' ≤ 3)
    (h : tableAt mask m root va d = some t) (h' : tableAt mask m root va' d' = some t')
    (he : entryAt d t va = entryAt d' t' va') : d = d' ∧ path (d + 1) va = path (d + 1) va' := by
  obtain ⟨rfl, hi⟩ := entryAddr_inj (ht.table_aligned h) (ht.table_aligned h') he
  obtain ⟨rfl, hp⟩ := ht.inj hd hd' h h'
  exact ⟨rfl, (path_succ_eq_iff hd va va').2 ⟨hp, hi⟩⟩

/-- `m'` is `m` up to the entry at depth `d` of `va`, in the table `t`. -/
structure Stored (mask : Word) (m m' : Mem) (root : Word) (d : Nat) (va t : Word) : Prop where
  depth : d ≤ 3
  table : tableAt mask m root va d = some t
  same : ∀ a, a ≠ entryAt d t va → m'.load a = m.load a

/-- The entry is present then, and leads where it led before. -/
structure Rewritten (mask : Word) (m m' : Mem) (root : Word) (d : Nat) (va t : Word) : Prop
    extends Stored mask m m' root d va t where
  child : Paging.child mask (3 - d) (m'.load (entryAt d t va)) = Paging.child mask (3 - d) (m.load (entryAt d t va))
  present : isPresent (m'.load (entryAt d t va)) = true

section

variable (ht : TreeOk mask m root)

include ht

/-- A store to an entry leaves the paths that do not go through it alone. -/
theorem TreeOk.same_of_path_ne (hs : Stored mask m m' root d va t)
    (hp : path (d + 1) va' ≠ path (d + 1) va) : SameBelow mask m m' root va' 0 := by
  intro k t' _ hk hk'
  apply hs.same
  intro he
  obtain ⟨rfl, hp'⟩ := ht.entry_inj hk hs.depth hk' hs.table he
  exact hp hp'

/-- Below a changed entry, every path is as before. -/
theorem TreeOk.same_below_entry (hs : Stored mask m m' root d va t) : SameBelow mask m m' root va' (d + 1) := by
  intro k t' hk hk3 hk'
  apply hs.same
  intro he
  obtain ⟨rfl, -⟩ := ht.entry_inj hk3 hs.depth hk' hs.table he
  omega

/-- A store to an entry that keeps its child keeps every table where it is. -/
theorem TreeOk.tableAt_eq_of_child {d : Nat} {va t : Word} (hs : Rewritten mask m m' root d va t) :
    ∀ {k : Nat} (va' : Word), k ≤ 4 → tableAt mask m' root va' k = tableAt mask m root va' k
  | 0, _, _ => rfl
  | k + 1, va', hk => by
    have ih := TreeOk.tableAt_eq_of_child hs va' (by omega : k ≤ 4)
    simp only [tableAt, ih]
    cases hk' : tableAt mask m root va' k with
    | none => rfl
    | some t' =>
      simp only [Option.bind_some]
      by_cases he : entryAt k t' va' = entryAt d t va
      · obtain ⟨rfl, -⟩ := ht.entry_inj (by omega) hs.depth hk' hs.table he
        rw [he, hs.child]
      · rw [hs.same _ he]

/-- A change that keeps the tables and makes no entry absent. -/
theorem TreeOk.of_tables (hT : ∀ {k : Nat} (va' : Word), k ≤ 4 → tableAt mask m' root va' k = tableAt mask m root va' k)
    (hload : ∀ {k va' t'}, k ≤ 3 → tableAt mask m root va' k = some t' → isPresent (m'.load (entryAt k t' va')) =
      false → m'.load (entryAt k t' va') = m.load (entryAt k t' va')) : TreeOk mask m' root := by
  refine ⟨ht.aligned, ?_, ?_⟩
  · intro k k' va va' t hk hk' h1 h2
    rw [hT _ (by omega)] at h1 h2
    exact ht.inj hk hk' h1 h2
  · intro k va t hk h1 hn
    rw [hT _ (by omega)] at h1
    have he := hload hk h1 hn
    rw [he] at hn ⊢
    exact ht.zero hk h1 hn

/-- A store that leaves the entry present and keeps its child keeps the tree. -/
theorem TreeOk.of_rewritten (hs : Rewritten mask m m' root d va t) : TreeOk mask m' root := by
  refine ht.of_tables (ht.tableAt_eq_of_child hs) fun _ _ hn => hs.same _ fun he => ?_
  rw [he, hs.present] at hn
  cases hn

/-- Changing an entry that leads to a table, keeping that table, changes no translation. -/
theorem TreeOk.v2p_of_rewritten (hd : d ≤ 2) (hs : Rewritten mask m m' root d va t)
    (hc : child mask (3 - d) (m.load (entryAt d t va)) = some t') (va' : Word) :
    v2p mask m' 3 root va' = v2p mask m 3 root va' := by
  by_cases hp : path (d + 1) va' = path (d + 1) va
  · have hT := ht.tableAt_eq_of_child hs va' (by omega : d + 1 ≤ 4)
    have h1 : tableAt mask m root va' (d + 1) = some t' := by
      rw [tableAt_congr (by omega) hp, tableAt_succ hs.table, hc]
    rw [v2p_descend (by omega) h1, v2p_descend (by omega) (hT.trans h1)]
    exact v2p_eq_of_same_below (by omega) h1 (ht.same_below_entry hs.toStored)
  · exact (ht.same_of_path_ne hs.toStored hp).v2p_eq

/-- Memories that agree on every entry of the tree agree on the whole tree. -/
theorem TreeOk.of_same (h : ∀ va, SameBelow mask m m' root va 0) : TreeOk mask m' root :=
  ht.of_tables (fun va hk => (h va).tables hk) fun hk h1 _ => h _ _ _ (zero_le _) hk h1

end

end

/-! ## Hanging a new table into the tree -/

section Link

variable {mask : Word} {m m' : Mem} {root n : Word}

/-- Stores outside the pages of the tree's tables change no entry of it. -/
theorem TreeOk.same_of_pages (ht : TreeOk mask m root) (P : Nat → Prop)
    (hP : ∀ va d t, d ≤ 3 → tableAt mask m root va d = some t → ¬ P t.toNat)
    (hm : ∀ a, ¬ P (a / 4096 * 4096) → m'.load a = m.load a) (va : Word) : SameBelow mask m m' root va 0 := by
  intro d t _ hd h
  apply hm
  rw [entryAddr_mem_page (ht.table_aligned h)]
  exact hP va d t hd h

/-- `m'` is `m` with the zeroed page `n`, which the tree did not use, hung into the entry at depth `d`
of `va`, which was not present. -/
structure Linked (mask : Word) (m m' : Mem) (root : Word) (d : Nat) (va t n : Word) : Prop where
  depth : d ≤ 2
  table : tableAt mask m root va d = some t
  absent : isPresent (m.load (entryAt d t va)) = false
  fresh : ∀ va' k, k ≤ 3 → tableAt mask m root va' k ≠ some n
  aligned : n.toNat % 4096 = 0
  zeroed : ∀ l va', m.load (entryAddr l n va') = 0#64
  same : ∀ a, a ≠ entryAt d t va → m'.load a = m.load a
  linked : child mask (3 - d) (m'.load (entryAt d t va)) = some n

variable {d : Nat} {va t : Word}

theorem Linked.stored (h : Linked mask m m' root d va t n) : Stored mask m m' root d va t :=
  ⟨by have := h.depth; omega, h.table, h.same⟩

theorem Linked.zeroed' (h : Linked mask m m' root d va t n) (ht : TreeOk mask m root) (l : Nat) (va' : Word) :
    m'.load (entryAddr l n va') = 0#64 := by
  rw [h.same, h.zeroed]
  intro he
  obtain ⟨rfl, -⟩ := entryAddr_inj h.aligned (ht.table_aligned h.table) he
  exact h.fresh va d (by have := h.depth; omega) h.table

/-- Above the new table, and off its path, the tables stay. -/
theorem Linked.tableAt_old (h : Linked mask m m' root d va t n) (ht : TreeOk mask m root) {va' : Word} :
    ∀ {k : Nat}, k ≤ 4 → (k ≤ d ∨ path (d + 1) va' ≠ path (d + 1) va) → tableAt mask m' root va' k =
      tableAt mask m root va' k
  | 0, _, _ => rfl
  | k + 1, hk, hor => by
    have ih := h.tableAt_old ht (by omega : k ≤ 4) (hor.imp (by omega) id)
    simp only [tableAt, ih]
    cases hk' : tableAt mask m root va' k with
    | none => rfl
    | some t' =>
      simp only [Option.bind_some]
      rw [h.same]
      intro he
      obtain ⟨rfl, hp⟩ := ht.entry_inj (by omega) (by have := h.depth; omega) hk' h.table he
      rcases hor with hor | hor
      · omega
      · exact hor hp

variable {va' : Word}

section

variable (h : Linked mask m m' root d va t n)

include h

theorem Linked.tableAt_new (ht : TreeOk mask m root)
    (hp : path (d + 1) va' = path (d + 1) va) : tableAt mask m' root va' (d + 1) = some n := by
  have hd := h.depth
  rw [tableAt_congr (by omega) hp, tableAt_succ ((h.tableAt_old ht (by omega) (.inl (le_refl d))).trans h.table),
    h.linked]

/-- Below the new table there is nothing. -/
theorem Linked.tableAt_below (ht : TreeOk mask m root) {va' : Word}
    (hp : path (d + 1) va' = path (d + 1) va) : ∀ {k : Nat}, d + 1 < k → tableAt mask m' root va' k = none
  | 0, hk => by omega
  | k + 1, hk => by
    rw [tableAt]
    by_cases hk' : k = d + 1
    · subst hk'
      rw [h.tableAt_new ht hp, Option.bind_some, h.zeroed' ht]
      rfl
    · rw [Linked.tableAt_below ht hp (by omega : d + 1 < k)]; rfl

/-- Before, there was nothing from the new table on. -/
theorem Linked.tableAt_absent {va' : Word}
    (hp : path (d + 1) va' = path (d + 1) va) : ∀ {k : Nat}, d < k → tableAt mask m root va' k = none
  | 0, hk => by omega
  | k + 1, hk => by
    have hd := h.depth
    by_cases hk' : k = d
    · subst hk'
      rw [tableAt_congr (by omega) hp, tableAt_succ h.table, child_none_of_not_present h.absent]
    · rw [tableAt, Linked.tableAt_absent hp (by omega : d < k)]; rfl

/-- The tables after hanging a table in: the old ones, and the new one on its path. -/
theorem Linked.tableAt_iff (ht : TreeOk mask m root) {t' : Word} {k : Nat}
    (hk : k ≤ 3) : tableAt mask m' root va' k = some t' ↔ tableAt mask m root va' k = some t' ∨
      (k = d + 1 ∧ path (d + 1) va' = path (d + 1) va ∧ t' = n) := by
  by_cases hp : path (d + 1) va' = path (d + 1) va
  · rcases (by omega : k ≤ d ∨ k = d + 1 ∨ d + 1 < k) with hkd | rfl | hkd
    · rw [h.tableAt_old ht (by omega) (.inl hkd)]
      constructor
      · exact .inl
      · rintro (h1 | ⟨rfl, -⟩)
        · exact h1
        · omega
    · rw [h.tableAt_new ht hp, h.tableAt_absent hp (lt_succ_self d)]
      simp [hp, eq_comm]
    · rw [h.tableAt_below ht hp hkd, h.tableAt_absent hp (by omega)]
      simp; omega
  · rw [h.tableAt_old ht (by omega) (.inr hp)]
    simp [hp]

/-- Hanging a table in keeps the tree well formed. -/
theorem Linked.treeOk (ht : TreeOk mask m root) : TreeOk mask m' root := by
  refine ⟨ht.aligned, ?_, ?_⟩
  · intro k k' va1 va2 t' hk hk' h1 h2
    rcases (h.tableAt_iff ht hk).1 h1 with h1 | ⟨rfl, hp1, rfl⟩
    · rcases (h.tableAt_iff ht hk').1 h2 with h2 | ⟨rfl, hp2, rfl⟩
      · exact ht.inj hk hk' h1 h2
      · exact absurd h1 (h.fresh va1 k hk)
    · rcases (h.tableAt_iff ht hk').1 h2 with h2 | ⟨rfl, hp2, -⟩
      · exact absurd h2 (h.fresh va2 k' hk')
      · exact ⟨rfl, hp1.trans hp2.symm⟩
  · intro k va' t' hk h1 hn
    rcases (h.tableAt_iff ht hk).1 h1 with h1 | ⟨rfl, -, rfl⟩
    · by_cases he : entryAt k t' va' = entryAt d t va
      · rw [he, (child_some h.linked).1] at hn; cases hn
      · rw [h.same _ he] at hn ⊢
        exact ht.zero hk h1 hn
    · exact h.zeroed' ht _ _

/-- Hanging an empty table in changes no translation. -/
theorem Linked.v2p_eq (ht : TreeOk mask m root) (va' : Word) : v2p mask m' 3 root va' = v2p mask m 3 root va' := by
  have hd := h.depth
  by_cases hp : path (d + 1) va' = path (d + 1) va
  · have h0 : tableAt mask m root va' d = some t := by
      rw [tableAt_congr (by omega) ((path_succ_eq_iff (by omega) va' va).1 hp).1, h.table]
    have hi : entryAt d t va' = entryAt d t va := entryAddr_congr ((path_succ_eq_iff (by omega) va' va).1 hp).2
    rw [v2p_of_not_present (by omega) h0 (by rw [hi]; exact h.absent),
      v2p_of_not_present (by omega) (h.tableAt_new ht hp) (by rw [h.zeroed' ht]; rfl)]
  · exact (ht.same_of_path_ne h.stored hp).v2p_eq

end

end Link

end Liumos.Paging
