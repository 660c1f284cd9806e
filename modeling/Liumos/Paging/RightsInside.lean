/-
The rights in a mapped range. Behind `CreatePageMapping` every entry on the path of a page of its range grants what the
attributes of the call grant. A call whose attributes grant everything keeps what is granted outside its range.
Source: paging.h.
-/
import Liumos.Paging.Mapped

namespace Liumos.Paging

section

variable {σ : Type} {A : Pool σ} {allocPages : Word → WM σ Word} [hA : AllocOk allocPages A]
  {mask root attr v0 p0 va : Word} {N : Nat} {m m' : Mem} {r : Rights}

theorem entryRights_setPageBaseAddr (mask : Word) {l : Nat} (hl : l ≤ 2) (d paddr attr : Word) :
    entryRights (setPageBaseAddr mask l d paddr attr) = entryRights attr := by
  refine entryRights_eq fun i hi => ?_
  have hshift : ¬ kIndexShift l ≤ i := by
    unfold kIndexShift
    omega
  have h5 : i < 5 := by omega
  rw [getLsbD_setPageBaseAddr mask (by omega) _ _ _ (by omega)]
  simp [hshift, h5]

/-! ## What an address is granted -/

/-- The address is mapped, and from every level on its path it is granted `r`. -/
structure Grants (mask root : Word) (m : Mem) (va : Word) (r : Rights) : Prop where
  mapped : Mapped mask root m va
  grants : ∀ d t, d ≤ 3 → tableAt mask m root va d = some t → rights mask m (3 - d) t va = r

theorem Grants.rights (h : Grants mask root m va r) : Paging.rights mask m 3 root va = r :=
  h.grants 0 root (Nat.zero_le 3) rfl

variable {d : Nat} {t va' paddr vaddr byteSize : Word} {w w' : World σ} {m0 : Mem} {shouldClflush : Bool}

/-- All entries on the path of a mapped address are present. -/
theorem Mapped.present (h : Mapped mask root m va) (hd : d ≤ 3)
    (ht : tableAt mask m root va d = some t) : isPresent (m.load (entryAt d t va)) = true := by
  have habove : ∀ {d' t'}, tableAt mask m root va d' = some t' → d < d' →
      isPresent (m.load (entryAt d t va)) = true := by
    intro d' t' ht' hlt
    obtain ⟨_, ht1⟩ := tableAt_of_le ht' hlt
    obtain ⟨_, h0, hc⟩ := tableAt_succ_some ht1
    obtain rfl := Option.some.inj (ht.symm.trans h0)
    exact (child_some hc).1
  cases h with
  | small t' ht' hp =>
    rcases hd.lt_or_eq with hlt | rfl
    · exact habove ht' hlt
    · obtain rfl := Option.some.inj (ht.symm.trans ht')
      exact hp
  | large t' ht' hp hpage =>
    rcases (by omega : d < 2 ∨ d = 2 ∨ d = 3) with hlt | rfl | rfl
    · exact habove ht' hlt
    · obtain rfl := Option.some.inj (ht.symm.trans ht')
      exact hp
    · rw [tableAt_succ ht', show 3 - 2 = 1 from rfl, child_none_of_page hpage] at ht
      cases ht

/-- Below an entry that grants `r'`, an address that is granted `r` there is granted both. -/
theorem rights_entry (hd : d ≤ 2) (ht : tableAt mask m root va d = some t)
    (hnext : ∀ t', tableAt mask m root va (d + 1) = some t' → rights mask m (3 - (d + 1)) t' va = r)
    (hlast : tableAt mask m root va (d + 1) = none → entryRights (m.load (entryAt d t va)) = r)
    (hand : (entryRights (m.load (entryAt d t va))).and r = r) : rights mask m (3 - d) t va = r := by
  obtain ⟨l, hl⟩ : ∃ l, 3 - (d + 1) = l := ⟨_, rfl⟩
  have hl' : 3 - d = l + 1 := by omega
  have hchild : tableAt mask m root va (d + 1) = child mask (3 - d) (m.load (entryAt d t va)) := tableAt_succ ht
  rw [hl] at hnext
  rw [entryAt, hl'] at hchild hlast hand
  rw [hl', rights]
  cases hc : child mask (l + 1) (m.load (entryAddr (l + 1) t va)) with
  | none => exact hlast (hchild.trans hc)
  | some t' =>
    simp only
    rw [hnext t' (hchild.trans hc)]
    exact hand

/-- Above a table that grants `r`, where the entries take nothing away from it. -/
theorem rights_climb {s : Nat} (hs : s ≤ 3)
    (hbase : ∀ t, tableAt mask m root va s = some t → rights mask m (3 - s) t va = r)
    (hentry : ∀ d t, d < s → tableAt mask m root va d = some t →
      (entryRights (m.load (entryAt d t va))).and r = r ∧
        (tableAt mask m root va (d + 1) = none → entryRights (m.load (entryAt d t va)) = r)) :
    ∀ {n d t}, d + n = s → tableAt mask m root va d = some t → rights mask m (3 - d) t va = r
  | 0, _, t, hd, ht => by
    obtain rfl := hd
    exact hbase t ht
  | n + 1, d, t, hd, ht => by
    obtain ⟨hand, hlast⟩ := hentry d t (by omega) ht
    exact rights_entry (by omega) ht (fun t' ht' => rights_climb hs hbase hentry (by omega : d + 1 + n = s) ht') hlast
      hand

/-- Where every entry on the path grants `r`. -/
theorem grants_of_entries (h : Mapped mask root m va)
    (hr : ∀ d t, d ≤ 3 → tableAt mask m root va d = some t → entryRights (m.load (entryAt d t va)) = r) :
    Grants mask root m va r := by
  refine ⟨h, fun d t hd ht => rights_climb (le_refl 3) (hr 3 · (le_refl 3)) (fun d t hd ht => ?_)
    (by omega : d + (3 - d) = 3) ht⟩
  rw [hr d t (by omega) ht]
  exact ⟨by simp [Rights.and], fun _ => rfl⟩

/-- The rights at an address are those of its page. -/
theorem rights_congr {va' : Word} {t : Word} : ∀ {l : Nat}, (∀ k ≤ l, addr2index k va = addr2index k va') →
    rights mask m l t va = rights mask m l t va'
  | 0, h => by
    rw [rights, rights, entryAddr, entryAddr, h 0 (le_refl 0)]
  | l + 1, h => by
    have he : entryAddr (l + 1) t va = entryAddr (l + 1) t va' := entryAddr_congr (h (l + 1) (le_refl _))
    simp only [rights, he]
    cases child mask (l + 1) (m.load (entryAddr (l + 1) t va')) with
    | none => rfl
    | some t' =>
      simp only
      rw [rights_congr fun k hk => h k (by omega)]

theorem Mapped.congr (hp : path 4 va = path 4 va') (h : Mapped mask root m va') : Mapped mask root m va := by
  have hT : ∀ d ≤ 3, tableAt mask m root va d = tableAt mask m root va' d :=
    fun d hd => tableAt_congr (by omega) (path_mono (by omega) (le_refl 4) hp)
  have he : ∀ l t, l ≤ 3 → entryAddr l t va = entryAddr l t va' :=
    fun l t hl => entryAddr_congr (addr2index_of_path hp hl)
  cases h with
  | small t ht hpres => exact .small t ((hT 3 (le_refl 3)).trans ht) (by rw [he 0 t (by omega)]; exact hpres)
  | large t ht hpres hpage =>
    exact .large t ((hT 2 (by omega)).trans ht) (by rw [he 1 t (by omega)]; exact hpres)
      (by rw [he 1 t (by omega)]; exact hpage)

theorem Grants.congr {va' : Word} (hp : path 4 va = path 4 va') (h : Grants mask root m va' r) :
    Grants mask root m va r := by
  refine ⟨h.mapped.congr hp, fun d t hd ht => ?_⟩
  rw [rights_congr fun k hk => addr2index_of_path hp (by omega)]
  exact h.grants d t hd ((tableAt_congr (by omega) (path_mono (by omega) (le_refl 4) hp)).symm.trans ht)

/-! ## Entries with the attributes of the call -/

/-- The address is mapped, and every entry on its path grants what `attr` grants. -/
structure Attributed (mask root attr : Word) (m : Mem) (va : Word) : Prop where
  mapped : Mapped mask root m va
  attrs : ∀ d t, d ≤ 3 → tableAt mask m root va d = some t → entryRights (m.load (entryAt d t va)) = entryRights attr

theorem Attributed.of_same_loads {w w' : World σ} (h : Attributed mask root attr w.mem va) (hs : SameLoads w w') :
    Attributed mask root attr w'.mem va := by
  have hsame : SameBelow mask w.mem w'.mem root va 0 := fun _ _ _ _ _ => hs.2 _
  refine ⟨h.mapped.of_same hsame, fun d t hd ht => ?_⟩
  rw [hs.2]
  exact h.attrs d t hd ((hsame.tables (by omega)).symm.trans ht)

theorem Attributed.through (ha : AttrOk attr) {w w' : World σ} {d : Nat} {va' t : Word}
    (h : Attributed mask root attr w.mem va) (hw : TreeInv A mask root w)
    (henter : Enters allocPages mask root attr d va' t w w') : Attributed mask root attr w'.mem va := by
  obtain ⟨hmapped, htables⟩ := h.mapped.through ha hw henter
  refine ⟨hmapped, fun k t' hk ht' => ?_⟩
  rw [htables k hk] at ht'
  by_cases he : entryAt k t' va = entryAt d t va'
  · obtain ⟨_, _, _, _, _, -, -, hattr, hs2⟩ := henter.through.steps
    rw [he, hs2.2, updateAttr_load hattr, entryRights_setAttr]
  · rw [entry_through ha hw henter.depth henter.table henter.through hk ht' he]
    exact h.attrs k t' hk ht'

include hA in
/-- Mapping a page at an entry whose path has the attributes. -/
theorem attributed_mapPage (ha : AttrOk attr) {u : Unit} (hw : TreeInv A mask root w) (hd2 : 2 ≤ d) (hd : d ≤ 3)
    (ht : tableAt mask w.mem root va' d = some t) (hnone : child mask (3 - d) (w.mem.load (entryAt d t va')) = none)
    (hrun : (mapPage mask attr (3 - d) (entryAt d t va') paddr).run w = .ok u w')
    (h : Attributed mask root attr w.mem va ∨ path (d + 1) va = path (d + 1) va' ∧
      ∀ k t', k < d → tableAt mask w.mem root va k = some t' →
        entryRights (w.mem.load (entryAt k t' va)) = entryRights attr) : Attributed mask root attr w'.mem va := by
  obtain ⟨-, hT, -, hsame, hself⟩ := mapPage_frame ha hw (by omega) hd ht hnone hrun
  refine ⟨mapped_mapPage ha hw hd2 hd ht hnone hrun (h.imp Attributed.mapped And.left), fun k t' hk ht' => ?_⟩
  rw [hT va k hk] at ht'
  by_cases he : entryAt k t' va = entryAt d t va'
  · rw [he, hself, entryRights_setPageBaseAddr mask (by omega)]
  · rw [hsame.same _ he]
    rcases h with h | ⟨hp, habove⟩
    · exact h.attrs k t' hk ht'
    · obtain ⟨hp1, hp2⟩ := (path_succ_eq_iff hd va va').1 hp
      have htd : tableAt mask w.mem root va d = some t := (tableAt_congr (by omega) hp1).trans ht
      rcases lt_trichotomy k d with hlt | rfl | hgt
      · exact habove k t' hlt ht'
      · obtain rfl := Option.some.inj (htd.symm.trans ht')
        exact absurd (entryAddr_congr hp2) he
      · -- below the page there is no table
        obtain ⟨_, ht1⟩ := tableAt_of_le ht' hgt
        rw [tableAt_succ htd, entryAt, entryAddr_congr hp2, hnone] at ht1
        cases ht1

/-- The pages passed have got the attributes, besides the marks on what is still to come. -/
theorem attr_pageRule (ha : AttrOk attr) : PageRule A allocPages mask root attr v0 p0 N
    fun mark w k => MarkedRest mask attr root v0 m0 mark w k ∧ ∀ j < k, Attributed mask root attr w.mem
      (pageAddr v0 j) := by
  have hR : PageRule A allocPages mask root attr v0 p0 N (MarkedRest mask attr root v0 m0) := rights_pageRule ha
  refine ⟨?_, ?_, ?_⟩
  · rintro mark d t w w' k u hst hd2 hd hk hvirt hva hnone hrun ⟨hmarked, hpages⟩
    refine ⟨hR.page hst hd2 hd hk hvirt hva hnone hrun hmarked, fun j hj => ?_⟩
    refine attributed_mapPage ha hst.inv hd2 hd hst.table hnone hrun ?_
    by_cases hjk : j < k
    · exact .inl (hpages j hjk)
    · -- the entries above have been marked on the way
      have hp := path_in_page (by omega) hvirt hva (not_lt.1 hjk) hj
      rw [show 4 - (3 - d) = d + 1 by omega] at hp
      have hmark := hmarked (pageAddr v0 j) (by rw [offset_pageAddr (by omega)]; omega)
      have hd' := hst.entered _ d (le_refl d) (path_mono (by omega) (by omega) hp)
      exact .inr ⟨hp, fun d' t' hlt ht' => hmark.attrs d' t' (by omega) ht'⟩
  · rintro mark d t w w' k hst hk he ⟨hmarked, hpages⟩
    exact ⟨hR.through hst hk he hmarked, fun j hj => (hpages j hj).through ha hst.inv he⟩
  · rintro mark w w' k hw hmarks hs ⟨hmarked, hpages⟩
    exact ⟨hR.same hw hmarks hs hmarked, fun j hj => (hpages j hj).of_same_loads hs⟩

/-- Behind the call, the addresses of the range are granted what the attributes grant. -/
theorem grants_inside (ha : AttrOk attr) (h : TreeInv A mask root w)
    (hrun : (createPageMapping allocPages mask attr shouldClflush root vaddr paddr byteSize).run w = .ok () w')
    {k : Nat} (hk : k < mappedPages vaddr (pageCount byteSize)) :
    Grants mask root w'.mem (pageAddr vaddr k) (entryRights attr) := by
  have hinit : MarkedRest mask attr root vaddr w.mem (fun _ => 0) w 0 := fun _ _ => marked_refl w.mem
  obtain ⟨-, _, ⟨-, hpages⟩, -⟩ := (attr_pageRule ha).createPageMapping ha h
    ⟨hinit, fun j hj => absurd hj (Nat.not_lt_zero j)⟩ hrun
  exact grants_of_entries (hpages k hk).mapped (hpages k hk).attrs

/-! ## Calls elsewhere -/

theorem Grants.of_same (h : Grants mask root m va r) (hs : SameBelow mask m m' root va 0) :
    Grants mask root m' va r := by
  refine ⟨h.mapped.of_same hs, fun d t hd ht => ?_⟩
  have ht0 : tableAt mask m root va d = some t := (hs.tables (by omega)).symm.trans ht
  have hsame : SameBelow mask m m' root va d := fun k t' _ hk ht' => hs k t' (Nat.zero_le k) hk ht'
  rw [rights_eq_of_same_below (by omega) ht0 hsame, h.grants d t hd ht0]

/-- A call whose attributes grant everything changes nothing for an address outside its range. -/
theorem Grants.outside (ha : AttrOk attr) (hall : entryRights attr = ⟨true, true, true⟩) (h : TreeInv A mask root w)
    (hrun : (createPageMapping allocPages mask attr shouldClflush root vaddr paddr byteSize).run w = .ok () w')
    (hq : Outside vaddr (pageCount byteSize) va) (hg : Grants mask root w.mem va r) : Grants mask root w'.mem va r := by
  have hmapped := mapped_createPageMapping ha h hrun (.inl hg.mapped)
  obtain ⟨s, hs⟩ := exists_sharesExactly vaddr (pageCount byteSize) va
  have hmark := (marked_createPageMapping h ha hrun).2 va s hq hs
  have hs3 := hs.le
  refine ⟨hmapped, ?_⟩
  rcases hmark.rest with ⟨ts, h0, h1, hsame⟩ | ⟨-, _, h1, habs⟩
  · -- from depth `s` on nothing has changed
    have hbelow : ∀ d t, s ≤ d → d ≤ 3 → tableAt mask w'.mem root va d = some t →
        Paging.rights mask w'.mem (3 - d) t va = r := by
      intro d t hsd hd ht
      have ht0 : tableAt mask w.mem root va d = some t :=
        (hsame.tableAt_eq (h1.trans h0.symm) hsd (by omega)).symm.trans ht
      have hsame' : SameBelow mask w.mem w'.mem root va d := fun k t' hk => hsame k t' (by omega)
      rw [rights_eq_of_same_below (by omega) ht0 hsame', hg.grants d t hd ht0]
    have hand : (⟨true, true, true⟩ : Rights).and r = r := by simp [Rights.and]
    intro d t hd ht
    rcases le_total d s with hds | hsd
    · -- the entries above grant everything
      refine rights_climb hs3 (hbelow s · (le_refl s) hs3) (fun d t hd ht => ?_) (by omega : d + (s - d) = s) ht
      rw [hmark.attrs d t (by omega) ht, hall, hand]
      refine ⟨rfl, fun hnone => ?_⟩
      obtain ⟨_, ht'⟩ := tableAt_of_le h1 (by omega : d + 1 ≤ s)
      rw [hnone] at ht'
      cases ht'
    · exact hbelow d t hsd hd ht
  · rw [hmapped.present hs3 h1] at habs
    cases habs

end

end Liumos.Paging
