/-
The rights a page table grants: an access needs Present at every level, and a write or a user access
needs Writable or User at every level as well. `CreatePageMapping` sets the attributes of each entry on
the path of its range, so what it does to the rights of a page elsewhere depends on how many of these
entries the page shares. Source: paging.h.
-/
import Liumos.Paging.MappingSpec

namespace Liumos.Paging

open Option

/-! ## Rights -/

structure Rights where
  present : Bool
  writable : Bool
  user : Bool
  deriving DecidableEq, Repr

def Rights.none : Rights := ⟨false, false, false⟩

/-- What two levels grant together. -/
def Rights.and (r r' : Rights) : Rights := ⟨r.present && r'.present, r.writable && r'.writable, r.user && r'.user⟩

@[simp] theorem Rights.none_and (r : Rights) : Rights.none.and r = Rights.none := rfl

@[simp] theorem Rights.and_none (r : Rights) : r.and Rights.none = Rights.none := by
  simp [Rights.and, Rights.none]

theorem Rights.and_left_self (r r' : Rights) : r.and (r.and r') = r.and r' := by
  simp [Rights.and]

/-- What an entry grants. -/
def entryRights (data : Word) : Rights :=
  if isPresent data then ⟨true, data &&& kPageAttrWritable != 0#64, data &&& kPageAttrUser != 0#64⟩ else Rights.none

/-- What the table of level `l` grants at an address, together with the levels below. -/
def rights (mask : Word) (m : Mem) : Nat → Word → Word → Rights
  | 0, table, vaddr => entryRights (m.load (entryAddr 0 table vaddr))
  | l + 1, table, vaddr =>
    let e := m.load (entryAddr (l + 1) table vaddr)
    match child mask (l + 1) e with
    | some t => (entryRights e).and (rights mask m l t vaddr)
    | none => entryRights e

/-- What the levels from depth `d` on grant at an address; nothing if its path ends before. -/
def rightsBelow (mask : Word) (m : Mem) (root vaddr : Word) (d : Nat) : Rights :=
  match tableAt mask m root vaddr d with
  | some t => rights mask m (3 - d) t vaddr
  | none => Rights.none

theorem entryRights_absent {e : Word} (h : isPresent e = false) : entryRights e = Rights.none := by
  unfold entryRights
  rw [h]
  rfl

/-- Rights are in the three lowest bits. -/
theorem entryRights_eq {e e' : Word} (h : ∀ i < 3, e.getLsbD i = e'.getLsbD i) : entryRights e = entryRights e' := by
  have hw : ∀ d : Word, (d &&& kPageAttrWritable != 0#64) = d.getLsbD 1 :=
    fun d => and_bit_ne_zero d (by norm_num : 1 < 64)
  have hu : ∀ d : Word, (d &&& kPageAttrUser != 0#64) = d.getLsbD 2 := fun d => and_bit_ne_zero d (by norm_num : 2 < 64)
  unfold entryRights
  rw [isPresent_eq, isPresent_eq, hw, hw, hu, hu, h 0 (by norm_num), h 1 (by norm_num), h 2 (by norm_num)]

theorem entryRights_setAttr (d attr : Word) : entryRights (setAttr d attr) = entryRights attr := by
  refine entryRights_eq fun i hi => ?_
  rw [getLsbD_setAttr, if_pos (by omega)]

theorem entryRights_setTableAddr {mask table : Word} (h : canHoldTable mask table = true) (l : Nat) (attr : Word) :
    entryRights (setTableAddr l table attr) = entryRights attr := by
  refine entryRights_eq fun i hi => ?_
  rw [getLsbD_setTableAddr _ _ _ (by omega), canHoldTable_low h (by omega), Bool.false_or]

section

variable {mask root : Word} {m m' m0 : Mem}

theorem rights_absent {t va : Word} : ∀ {l : Nat}, isPresent (m.load (entryAddr l t va)) = false →
    rights mask m l t va = Rights.none
  | 0, h => entryRights_absent h
  | l + 1, h => by
    simp only [rights, child_none_of_not_present h]
    exact entryRights_absent h

theorem rights_child {l : Nat} {t t' va : Word} (h : child mask (l + 1) (m.load (entryAddr (l + 1) t va)) = some t') :
    rights mask m (l + 1) t va = (entryRights (m.load (entryAddr (l + 1) t va))).and (rights mask m l t' va) := by
  simp only [rights, h]

/-- Where the entries above depth `s` all grant `r`, they grant it together. -/
theorem rights_descend {va t : Word} {r : Rights} : ∀ {s : Nat}, s ≤ 2 → tableAt mask m root va (s + 1) = some t →
    (∀ d t', d ≤ s → tableAt mask m root va d = some t' → entryRights (m.load (entryAt d t' va)) = r) →
    rights mask m 3 root va = r.and (rights mask m (3 - (s + 1)) t va)
  | 0, _, ht, hr => by
    obtain ⟨t0, h0, hc⟩ := tableAt_succ_some ht
    rw [rights_child (l := 2) (by cases h0; exact hc), hr 0 root (le_refl 0) rfl]
  | s + 1, hs, ht, hr => by
    obtain ⟨t0, h0, hc⟩ := tableAt_succ_some ht
    obtain ⟨l, hl⟩ : ∃ l, 3 - (s + 1 + 1) = l := ⟨_, rfl⟩
    have hl' : 3 - (s + 1) = l + 1 := by omega
    have he := hr (s + 1) t0 (le_refl _) h0
    rw [entryAt, hl'] at hc he
    rw [rights_descend (by omega) h0 fun d t' hd => hr d t' (by omega), hl', hl, rights_child hc, he,
      Rights.and_left_self]

/-- Two memories that agree below a table grant the same from there. -/
theorem rights_eq_of_same_below {va : Word} : ∀ {l d : Nat} {t : Word}, d + l = 3 → tableAt mask m root va d = some t →
    SameBelow mask m m' root va d → rights mask m' l t va = rights mask m l t va
  | 0, d, t, hl, ht, h => by
    obtain rfl : d = 3 := hl
    have he := h 3 t (by omega) (by omega) ht
    rw [entryAt, Nat.sub_self] at he
    rw [rights, rights, he]
  | l + 1, d, t, hl, ht, h => by
    have hl' : 3 - d = l + 1 := by omega
    have he := h d t (le_refl d) (by omega) ht
    rw [entryAt, hl'] at he
    simp only [rights, he]
    cases hc : child mask (l + 1) (m.load (entryAddr (l + 1) t va)) with
    | none => rfl
    | some t' =>
      have ht' : tableAt mask m root va (d + 1) = some t' := by rw [tableAt_succ ht, entryAt, hl', hc]
      simp only
      rw [rights_eq_of_same_below (by omega) ht' fun d' t'' hd => h d' t'' (by omega)]

/-! ## Pages whose path the call has changed -/

/-- The first `s` entries on the path of `q` have got the attributes `attr`. Behind them the path is as it
was in `m0`; or it ended before, and now ends at an entry that is not present. -/
structure Marked (mask attr root : Word) (m0 m : Mem) (q : Word) (s : Nat) : Prop where
  attrs : ∀ d t, d < s → tableAt mask m root q d = some t → entryRights (m.load (entryAt d t q)) = entryRights attr
  rest : (∃ t, tableAt mask m0 root q s = some t ∧ tableAt mask m root q s = some t ∧ SameBelow mask m0 m root q s) ∨
    (tableAt mask m0 root q s = none ∧
      ∃ t, tableAt mask m root q s = some t ∧ isPresent (m.load (entryAt s t q)) = false)

variable {attr q : Word} {s : Nat}

theorem marked_refl (m : Mem) : Marked mask attr root m m q 0 :=
  ⟨fun d _ hd => absurd hd (Nat.not_lt_zero d), .inl ⟨root, rfl, rfl, fun _ _ _ _ _ => rfl⟩⟩

section

variable (h : Marked mask attr root m0 m q s)

include h

theorem Marked.table : ∃ t, tableAt mask m root q s = some t := by
  rcases h.rest with ⟨t, -, ht, -⟩ | ⟨-, t, ht, -⟩ <;> exact ⟨t, ht⟩

/-- What a marked page may do. -/
theorem Marked.rights (hs : s ≤ 3) : Paging.rights mask m 3 root q =
    if s = 0 then Paging.rights mask m0 3 root q else (entryRights attr).and (rightsBelow mask m0 root q s) := by
  have hbelow : ∀ t, tableAt mask m root q s = some t → Paging.rights mask m (3 - s) t q =
      rightsBelow mask m0 root q s := by
    intro t ht
    unfold rightsBelow
    rcases h.rest with ⟨t', h0, h1, hsame⟩ | ⟨h0, t', h1, habs⟩
    · obtain rfl : t' = t := some.inj (h1.symm.trans ht)
      rw [h0]
      exact rights_eq_of_same_below (by omega) h0 hsame
    · obtain rfl : t' = t := some.inj (h1.symm.trans ht)
      rw [h0]
      exact rights_absent habs
  obtain ⟨t, ht⟩ := h.table
  cases s with
  | zero =>
    cases ht
    exact hbelow root rfl
  | succ s =>
    rw [if_neg s.succ_ne_zero, ← hbelow t ht]
    exact rights_descend (by omega) ht fun d t' hd => h.attrs d t' (by omega)

/-- A change off the path of a page. -/
theorem Marked.of_same (hs : s ≤ 3) (hm : SameBelow mask m m' root q 0) : Marked mask attr root m0 m' q s := by
  have hT : ∀ {d}, d ≤ 4 → tableAt mask m' root q d = tableAt mask m root q d := fun hd => hm.tables hd
  refine ⟨?_, ?_⟩
  · intro d t hd ht
    rw [hT (by omega)] at ht
    rw [hm d t (Nat.zero_le d) (by omega) ht]
    exact h.attrs d t hd ht
  · rcases h.rest with ⟨t, h0, h1, hsame⟩ | ⟨h0, t, h1, habs⟩
    · refine .inl ⟨t, h0, (hT (by omega)).trans h1, fun d t' hsd hd ht' => ?_⟩
      have hd' : tableAt mask m root q d = some t' := (hsame.tableAt_eq (h1.trans h0.symm) hsd (by omega)).trans ht'
      rw [hm d t' (Nat.zero_le d) hd hd', hsame d t' hsd hd ht']
    · refine .inr ⟨h0, t, (hT (by omega)).trans h1, ?_⟩
      rw [hm s t (Nat.zero_le s) hs h1]
      exact habs

/-- The entry at depth `d`, which leads to a table, gets the attributes. -/
theorem Marked.of_setAttr (hs : s ≤ 3) (htree : TreeOk mask m root) {d : Nat} {va t c : Word} (hd : d ≤ 2)
    (hm : Rewritten mask m m' root d va t) (hc : child mask (3 - d) (m.load (entryAt d t va)) = some c)
    (hr : entryRights (m'.load (entryAt d t va)) = entryRights attr) (hq : path (d + 1) q = path (d + 1) va)
    (hds : d ≤ s) : Marked mask attr root m0 m' q (max s (d + 1)) := by
  have hT : ∀ {k}, k ≤ 4 → tableAt mask m' root q k = tableAt mask m root q k :=
    fun hk => htree.tableAt_eq_of_child hm q hk
  obtain ⟨hp, hi⟩ := (path_succ_eq_iff (by omega) q va).1 hq
  have htq : tableAt mask m root q d = some t := (tableAt_congr (by omega) hp).trans hm.table
  have haddr : entryAt d t q = entryAt d t va := entryAddr_congr hi
  have hload : ∀ {k t'}, k ≤ 3 → k ≠ d → tableAt mask m root q k = some t' →
      m'.load (entryAt k t' q) = m.load (entryAt k t' q) := by
    intro k t' hk hne hk'
    refine hm.same _ fun he => hne ?_
    exact (htree.entry_inj hk hm.depth hk' hm.table he).1
  refine ⟨?_, ?_⟩
  · intro k t' hk hk'
    rw [hT (by omega)] at hk'
    by_cases hkd : k = d
    · subst hkd
      obtain rfl : t = t' := some.inj (htq.symm.trans hk')
      rw [haddr]
      exact hr
    · rw [hload (by omega) hkd hk']
      exact h.attrs k t' (by omega) hk'
  · rcases h.rest with ⟨t', h0, h1, hsame⟩ | ⟨h0, t', h1, habs⟩
    · have hbelow : SameBelow mask m0 m' root q (max s (d + 1)) := by
        intro k t'' hsk hk hk'
        have hk'' : tableAt mask m root q k = some t'' :=
          (hsame.tableAt_eq (h1.trans h0.symm) (by omega) (by omega)).trans hk'
        rw [hload hk (by omega) hk'', hsame k t'' (by omega) hk hk']
      rcases hds.lt_or_eq with hlt | rfl
      · -- the entry had the attributes before
        rw [show max s (d + 1) = s by omega] at hbelow ⊢
        exact .inl ⟨t', h0, (hT (by omega)).trans h1, hbelow⟩
      · obtain rfl : t = t' := some.inj (htq.symm.trans h1)
        have hc0 : tableAt mask m0 root q (d + 1) = some c := by
          rw [tableAt_succ h0, ← hsame d t (le_refl d) (by omega) h0, haddr, hc]
        have hc1 : tableAt mask m root q (d + 1) = some c := by rw [tableAt_succ htq, haddr, hc]
        rw [show max d (d + 1) = d + 1 by omega] at hbelow ⊢
        exact .inl ⟨c, hc0, (hT (by omega)).trans hc1, hbelow⟩
    · rcases hds.lt_or_eq with hlt | rfl
      · rw [show max s (d + 1) = s by omega]
        refine .inr ⟨h0, t', (hT (by omega)).trans h1, ?_⟩
        rw [hload hs (by omega) h1]
        exact habs
      · obtain rfl : t = t' := some.inj (htq.symm.trans h1)
        rw [haddr, (child_some hc).1] at habs
        cases habs

/-- The entry at depth `d`, which was not present, gets a new table and the attributes. -/
theorem Marked.of_link (htree : TreeOk mask m root) {d : Nat} {va t n : Word}
    (hL : Linked mask m m' root d va t n) (hr : entryRights (m'.load (entryAt d t va)) = entryRights attr)
    (hq : path (d + 1) q = path (d + 1) va) (hds : d ≤ s) : s = d ∧ Marked mask attr root m0 m' q (d + 1) := by
  have hd := hL.depth
  obtain ⟨hp, hi⟩ := (path_succ_eq_iff (by omega) q va).1 hq
  have htq : tableAt mask m root q d = some t := (tableAt_congr (by omega) hp).trans hL.table
  have haddr : entryAt d t q = entryAt d t va := entryAddr_congr hi
  obtain rfl : d = s := by
    -- behind an entry that is not present there is no table
    by_contra hne
    obtain ⟨t', ht'⟩ := h.table
    rw [hL.tableAt_absent hq (by omega)] at ht'
    cases ht'
  refine ⟨rfl, ?_, .inr ⟨?_, n, hL.tableAt_new htree hq, ?_⟩⟩
  · intro k t' hk hk'
    rw [hL.tableAt_old htree (by omega) (.inl (by omega))] at hk'
    by_cases hkd : k = d
    · subst hkd
      obtain rfl : t = t' := some.inj (htq.symm.trans hk')
      rw [haddr]
      exact hr
    · rw [hL.same]
      · exact h.attrs k t' (by omega) hk'
      · exact fun he => hkd (htree.entry_inj (by omega) (by omega) hk' hL.table he).1
  · rcases h.rest with ⟨t', h0, h1, hsame⟩ | ⟨h0, -⟩
    · obtain rfl : t = t' := some.inj (htq.symm.trans h1)
      rw [tableAt_succ h0, ← hsame d t (le_refl d) (by omega) h0, haddr, child_none_of_not_present hL.absent]
    · rw [tableAt, h0]
      rfl
  · rw [hL.zeroed' htree]
    rfl

end

end

end Liumos.Paging
