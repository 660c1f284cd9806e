/-
What `CreatePageMapping` leaves mapped: every page of its range, by an entry of level 0 or by one of level 1, and
every address that was mapped before.
Source: paging.h.
-/
import Liumos.Paging.Pml4Frame

namespace Liumos.Paging

section

variable {σ : Type} {A : Pool σ} {allocPages : Word → WM σ Word} [hA : AllocOk allocPages A]
  {mask root attr v0 p0 va : Word} {N : Nat} {m : Mem}

/-! ## Mapped addresses -/

/-- An entry of level 0 or 1 maps the address. -/
inductive Mapped (mask root : Word) (m : Mem) (va : Word) : Prop
  | small (t : Word) (ht : tableAt mask m root va 3 = some t) (hp : isPresent (m.load (entryAddr 0 t va)) = true)
  | large (t : Word) (ht : tableAt mask m root va 2 = some t) (hp : isPresent (m.load (entryAddr 1 t va)) = true)
      (hpage : isPage 1 (m.load (entryAddr 1 t va)) = true)

/-- Without a table of level 0 on its path, it is an entry of level 1. -/
theorem Mapped.leaf_one (h : Mapped mask root m va) (hnone : tableAt mask m root va 3 = none) :
    ∃ a, leaf mask m 3 root va = some (1, a) := by
  cases h with
  | small t ht hp =>
    rw [hnone] at ht
    cases ht
  | large t ht hp hpage => exact ⟨_, (leaf_descend (by omega) ht).trans (leaf_page hp hpage)⟩

theorem Mapped.leaf_zero (h : Mapped mask root m va) (hsome : tableAt mask m root va 3 ≠ none) :
    ∃ a, leaf mask m 3 root va = some (0, a) := by
  cases h with
  | small t ht hp => exact ⟨_, (leaf_descend (le_refl 3) ht).trans (leaf_page hp (isPage_zero _))⟩
  | large t ht hp hpage =>
    exact absurd ((tableAt_succ ht).trans (child_none_of_page hpage)) hsome

variable {d : Nat} {t va' paddr : Word} {w w' : World σ}

/-- A step that keeps the tables and the entries that map pages. -/
theorem Mapped.of_step {m' : Mem} (h : Mapped mask root m va) (hext : Extends mask root m m')
    (hsmall : ∀ t, tableAt mask m root va 3 = some t → isPresent (m.load (entryAddr 0 t va)) = true →
      isPresent (m'.load (entryAddr 0 t va)) = true)
    (hlarge : ∀ t, tableAt mask m root va 2 = some t → isPresent (m.load (entryAddr 1 t va)) = true →
      isPage 1 (m.load (entryAddr 1 t va)) = true →
      isPresent (m'.load (entryAddr 1 t va)) = true ∧ isPage 1 (m'.load (entryAddr 1 t va)) = true) :
    Mapped mask root m' va ∧ ∀ d ≤ 3, tableAt mask m' root va d = tableAt mask m root va d := by
  have hsame : ∀ {d d' t}, tableAt mask m root va d' = some t → d ≤ d' → d' ≤ 3 →
      tableAt mask m' root va d = tableAt mask m root va d := by
    intro d d' t ht hd hd'
    obtain ⟨t', ht'⟩ := tableAt_of_le ht hd
    rw [ht', hext va d t' (by omega) ht']
  cases h with
  | small t ht hp =>
    exact ⟨.small t (hext va 3 t (le_refl 3) ht) (hsmall t ht hp), fun d hd => hsame ht hd (le_refl 3)⟩
  | large t ht hp hpage =>
    obtain ⟨hp', hpage'⟩ := hlarge t ht hp hpage
    have ht' := hext va 2 t (by omega) ht
    refine ⟨.large t ht' hp' hpage', fun d hd => ?_⟩
    rcases (by omega : d ≤ 2 ∨ d = 3) with hd2 | rfl
    · exact hsame ht hd2 (by omega)
    · exact ((tableAt_succ ht').trans (child_none_of_page hpage')).trans
        ((tableAt_succ ht).trans (child_none_of_page hpage)).symm

theorem Mapped.of_same {m' : Mem} (h : Mapped mask root m va) (hs : SameBelow mask m m' root va 0) :
    Mapped mask root m' va := by
  cases h with
  | small t ht hp =>
    exact .small t ((hs.tables (by omega)).trans ht) ((hs 3 t (by omega) (le_refl 3) ht).symm ▸ hp)
  | large t ht hp hpage =>
    have he := hs 2 t (by omega) (by omega) ht
    exact .large t ((hs.tables (by omega)).trans ht) (he.symm ▸ hp) (he.symm ▸ hpage)

/-- Going through an entry into a table unmaps nothing. -/
theorem Mapped.through (ha : AttrOk attr) (h : Mapped mask root w.mem va)
    (hw : TreeInv A mask root w) (he : Enters allocPages mask root attr d va' t w w') :
    Mapped mask root w'.mem va ∧ ∀ d ≤ 3, tableAt mask w'.mem root va d = tableAt mask w.mem root va d := by
  have hkept : ∀ {d' t'}, d' ≤ 3 → tableAt mask w.mem root va d' = some t' → entryAt d' t' va ≠ entryAt d t va' →
      w'.mem.load (entryAt d' t' va) = w.mem.load (entryAt d' t' va) :=
    fun hd' ht' hne => entry_through ha hw he.depth he.table he.through hd' ht' hne
  refine h.of_step (enter_table ha hw he).1.ext ?_ ?_
  · intro t' ht' hp
    have hne : entryAddr 0 t' va ≠ entryAt d t va' := fun heq => by
      have := (hw.tree.entry_inj (le_refl 3) (he.depth.trans (by omega)) ht' he.table heq).1
      have := he.depth
      omega
    rwa [hkept (le_refl 3) ht' hne]
  · intro t' ht' hp hlarge
    have hne : entryAddr 1 t' va ≠ entryAt d t va' := fun heq => by
      -- the entry would lead to a table
      obtain ⟨hd, ht, hthrough, hpage⟩ := he
      obtain ⟨rfl, -⟩ := hw.tree.entry_inj (by omega) (by omega) (d := 2) ht' ht heq
      rw [← heq] at hpage hthrough
      obtain ⟨_, _, w1, w1', w2, hinst, hs1, hattr, hs2⟩ := hthrough.steps
      rw [hs2.2, updateAttr_load hattr, isPage_setAttr (by omega), hs1.2] at hpage
      rcases installTable_cases ha hw (le_refl 2) ht' hinst with ⟨-, rfl⟩ | ⟨n, w2', -, hsame, -, -, rfl, hL, -⟩
      · exact absurd (hlarge.symm.trans hpage) (by decide)
      · have habs := hL.absent
        rw [hsame va 2 t' (Nat.zero_le 2) (by omega) ht', hp] at habs
        cases habs
    rw [hkept (by omega) ht' hne]
    exact ⟨hp, hlarge⟩

/-! ## The loops of the builder -/

/-- The addresses in `S` and those of the first `k` pages of the range. -/
def Reaches (S : Word → Prop) (v0 : Word) (k : Nat) (va : Word) : Prop := S va ∨ ∃ j < k, va = pageAddr v0 j

include hA in
/-- Mapping a page of level 0 or 1 maps its addresses, and unmaps nothing. -/
theorem mapped_mapPage (ha : AttrOk attr) {u : Unit} (hw : TreeInv A mask root w) (hd2 : 2 ≤ d) (hd : d ≤ 3)
    (ht : tableAt mask w.mem root va' d = some t) (hnone : child mask (3 - d) (w.mem.load (entryAt d t va')) = none)
    (hrun : (mapPage mask attr (3 - d) (entryAt d t va') paddr).run w = .ok u w')
    (h : Mapped mask root w.mem va ∨ path (d + 1) va = path (d + 1) va') : Mapped mask root w'.mem va := by
  obtain ⟨-, hT, -, hsame, hself⟩ := mapPage_frame ha hw (by omega) hd ht hnone hrun
  have hpres : isPresent (w'.mem.load (entryAt d t va')) = true := by
    rw [hself]
    exact (isPresent_setPageBaseAddr (by omega)).trans ha.present
  have hpage : isPage (3 - d) (w'.mem.load (entryAt d t va')) = true := by
    rw [hself]
    exact isPage_setPageBaseAddr (by omega) _ _ _
  rcases h with h | hp
  · refine (h.of_step (fun va k t hk ht => (hT va k hk).trans ht) ?_ ?_).1
    · intro t' ht' hp
      by_cases he : entryAddr 0 t' va = entryAt d t va'
      · rw [he]
        exact hpres
      · rwa [hsame.same _ he]
    · intro t' ht' hp hlarge
      by_cases he : entryAddr 1 t' va = entryAt d t va'
      · obtain ⟨rfl, -⟩ := hw.tree.entry_inj (by omega) hd (d := 2) ht' ht he
        rw [he]
        exact ⟨hpres, hpage⟩
      · rw [hsame.same _ he]
        exact ⟨hp, hlarge⟩
  · obtain ⟨hp1, hp2⟩ := (path_succ_eq_iff hd va va').1 hp
    have ht' : tableAt mask w'.mem root va d = some t := by
      rw [hT va d hd, tableAt_congr (by omega) hp1]
      exact ht
    have he : entryAt d t va' = entryAt d t va := entryAddr_congr hp2.symm
    rw [he] at hpres hpage
    interval_cases d
    · exact .large t ht' hpres hpage
    · exact .small t ht' hpres

variable {S : Word → Prop}

theorem mapped_pageRule (ha : AttrOk attr) :
    PageRule A allocPages mask root attr v0 p0 N fun _ w k => ∀ va, Reaches S v0 k va → Mapped mask root w.mem va where
  page := by
    intro _ d t w w' k u hst hd2 hd hk hvirt hva hnone hrun h va hreach
    refine mapped_mapPage ha hst.inv hd2 hd hst.table hnone hrun ?_
    rcases hreach with hva | ⟨j, hj, rfl⟩
    · exact .inl (h va (.inl hva))
    by_cases hjk : j < k
    · exact .inl (h _ (.inr ⟨j, hjk, rfl⟩))
    · -- one of the 4KB pages that have just been mapped
      have := path_in_page (by omega) hvirt hva (not_lt.1 hjk) hj
      rw [show 4 - (3 - d) = d + 1 by omega] at this
      exact .inr this
  through hst _ he h va hva := ((h va hva).through ha hst.inv he).1
  same _ _ hs h va hva := (h va hva).of_same fun _ _ _ _ _ => hs.2 _

/-- Behind the call every page of the range is mapped, and what was mapped before. -/
theorem mapped_createPageMapping (ha : AttrOk attr) {vaddr byteSize : Word}
    {shouldClflush : Bool} (h : TreeInv A mask root w)
    (hrun : (createPageMapping allocPages mask attr shouldClflush root vaddr paddr byteSize).run w = .ok () w')
    (hva : Reaches (Mapped mask root w.mem) vaddr (mappedPages vaddr (pageCount byteSize)) va) :
    Mapped mask root w'.mem va := by
  have hinit : ∀ va, Reaches (Mapped mask root w.mem) vaddr 0 va → Mapped mask root w.mem va := by
    rintro va (hva | ⟨j, hj, -⟩)
    · exact hva
    · exact absurd hj (Nat.not_lt_zero j)
  obtain ⟨-, _, hmapped, -⟩ := (mapped_pageRule ha).createPageMapping ha h hinit hrun
  exact hmapped va hva

end

end Liumos.Paging
