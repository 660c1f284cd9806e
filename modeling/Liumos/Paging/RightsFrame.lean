/-
What `CreatePageMapping` does to the rights of the pages outside its range. Each entry it goes through
gets the attributes of the call, so a page that shares `s` of these entries keeps what the levels below
them grant and loses, or gains, what they granted.

The mark of a page that the call has not mapped is the number of entries on its path that have got the
attributes.
-/
import Liumos.Paging.Levels
import Liumos.Paging.Rights

namespace Liumos.Paging

/-! ## Marks -/

section

variable {σ : Type} {A : Pool σ} {allocPages : Word → WM σ Word} [hA : AllocOk allocPages A]
  {mask root attr v0 p0 va t q : Word} {N d s : Nat} {m0 : Mem} {w w' w3 : World σ} {u : Unit}

theorem marked_install (ha : AttrOk attr) (h : TreeInv A mask root w) (hd : d ≤ 2)
    (ht : tableAt mask w.mem root va d = some t)
    (hrun : (installTable allocPages mask attr (3 - d) (entryAt d t va)).run w = .ok u w')
    (hq : Marked mask attr root m0 w.mem q s) (hs : s ≤ 3) (hds : path (d + 1) q = path (d + 1) va → d ≤ s) :
    Marked mask attr root m0 w'.mem q s ∨
      (path (d + 1) q = path (d + 1) va ∧ s = d ∧ Marked mask attr root m0 w'.mem q (d + 1)) := by
  rcases installTable_cases ha h hd ht hrun with ⟨-, rfl⟩ | ⟨n, w2, h2, hsame, -, hcan, rfl, hL, -⟩
  · exact .inl hq
  · have hq2 := hq.of_same hs (hsame q)
    by_cases hp : path (d + 1) q = path (d + 1) va
    · have hr : entryRights ((w2.mem.store (entryAt d t va) (setTableAddr (3 - d) n attr)).load
          (entryAt d t va)) = entryRights attr := by
        rw [WriteBack.Memory.load_store_self, entryRights_setTableAddr hcan]
      obtain ⟨rfl, hnew⟩ := hq2.of_link h2.tree hL hr hp (hds hp)
      exact .inr ⟨hp, rfl, hnew⟩
    · exact .inl (hq2.of_same hs (h2.tree.same_of_path_ne hL.stored hp))

theorem marked_updateAttr (ha : AttrOk attr) (h : TreeOk mask w.mem root) (hd : d ≤ 2)
    (ht : tableAt mask w.mem root va d = some t) (hpres : isPresent (w.mem.load (entryAt d t va)) = true)
    (hpage : isPage (3 - d) (w.mem.load (entryAt d t va)) = false)
    (hrun : (updateAttr attr (entryAt d t va)).run w = .ok u w') (hq : Marked mask attr root m0 w.mem q s) (hs : s ≤ 3)
    (hds : path (d + 1) q = path (d + 1) va → d ≤ s) :
    Marked mask attr root m0 w'.mem q (if path (d + 1) q = path (d + 1) va then max s (d + 1) else s) := by
  obtain rfl := run_updateAttr_ok hrun
  have hm := rewritten_setAttr ha (by omega) ht hpres hpage
  split_ifs with hp
  · refine hq.of_setAttr hs h hd hm (child_of hpres hpage) ?_ hp (hds hp)
    rw [WriteBack.Memory.load_store_self, entryRights_setAttr]
  · exact hq.of_same hs (h.same_of_path_ne hm.toStored hp)

theorem Marked.of_same_loads (h : Marked mask attr root m0 w.mem q s) (hs : s ≤ 3)
    (hw : SameLoads w w') : Marked mask attr root m0 w'.mem q s := h.of_same hs fun _ _ _ _ _ => hw.2 _

/-- Going through an entry marks the pages that share it. -/
theorem marked_enter (ha : AttrOk attr) (h : TreeInv A mask root w) (he : Enters allocPages mask root attr d va t w w3)
    (hq : Marked mask attr root m0 w.mem q s) (hs : s ≤ 3) (hds : path (d + 1) q = path (d + 1) va → d ≤ s) :
    Marked mask attr root m0 w3.mem q (if path (d + 1) q = path (d + 1) va then max s (d + 1) else s) := by
  obtain ⟨_, _, _, _, _, hinst, hs1, hattr, hs2, k1, ht1, hpres, hpage1⟩ := before_updateAttr ha h he
  have hd := he.depth
  rcases marked_install ha h hd he.table hinst hq hs hds with hq1 | ⟨hp, rfl, hq1⟩
  · have hq2 := marked_updateAttr ha k1.inv.tree hd ht1 hpres hpage1 hattr (hq1.of_same_loads hs hs1) hs hds
    exact hq2.of_same_loads (by split_ifs <;> omega) hs2
  · have hq2 := marked_updateAttr ha k1.inv.tree hd ht1 hpres hpage1 hattr (hq1.of_same_loads (by omega) hs1) (by omega)
      fun _ => by omega
    rw [if_pos hp, max_self] at hq2
    rw [if_pos hp, show max s (s + 1) = s + 1 by omega]
    exact hq2.of_same_loads (by omega) hs2

/-- A page that was not mapped stays so while it is only marked. -/
theorem Marked.leaf_none {m : Mem} (h : Marked mask attr root m0 m q s) (hs : s ≤ 3)
    (h0 : leaf mask m0 3 root q = none) : leaf mask m 3 root q = none := by
  rcases h.rest with ⟨t, ht0, ht, hsame⟩ | ⟨-, _, ht, habs⟩
  · rw [leaf_descend hs ht0] at h0
    rw [leaf_descend hs ht, (leaf_eq_of_same_below (by omega) ht0 hsame).1]
    exact h0
  · rw [leaf_descend hs ht]
    exact leaf_absent habs

/-- Where the call comes upon a page, there was one before. -/
theorem Marked.no_page (ha : AttrOk attr) (h : TreeInv A mask root w) (hd : d ≤ 2)
    (ht : tableAt mask w.mem root va d = some t) (hmark : Marked mask attr root m0 w.mem va s) (hs : s ≤ 3)
    (hthrough : Through allocPages mask attr (3 - d) (entryAt d t va) w w')
    (hpage : isPage (3 - d) (w'.mem.load (entryAt d t va)) = true) : leaf mask m0 3 root va ≠ none := by
  intro hnone
  have hleaf := hmark.leaf_none hs hnone
  obtain ⟨_, _, _, _, _, hinst, hs1, hattr, hs2⟩ := hthrough.steps
  rw [hs2.2, updateAttr_load hattr, isPage_setAttr (by omega), hs1.2] at hpage
  rcases installTable_cases ha h hd ht hinst with ⟨hpres, rfl⟩ | ⟨_, _, -, -, -, -, rfl, hL, -⟩
  · rw [leaf_descend (by omega) ht, leaf_page hpres hpage] at hleaf
    cases hleaf
  · rw [(child_some hL.linked).2.1] at hpage
    cases hpage

/-- The pages that the call has not mapped after `k` pages are marked for the entries it has been through. -/
def MarkedRest (mask attr root v0 : Word) (m0 : Mem) (mark : Word → Nat) (w : World σ) (k : Nat) : Prop :=
  ∀ q, 4096 * k ≤ offset v0 q → Marked mask attr root m0 w.mem q (mark q)

theorem rights_pageRule (ha : AttrOk attr) :
    PageRule A allocPages mask root attr v0 p0 N (MarkedRest mask attr root v0 m0) where
  page := by
    intro mark d t w w' k u hst hd2 hd hk hvirt hva hnone hrun h q hq
    obtain ⟨-, -, -, hsame, -⟩ := mapPage_frame ha hst.inv (by omega) hd hst.table hnone hrun
    have hp : path (4 - (3 - d)) q ≠ path (4 - (3 - d)) (pageAddr v0 k) := by
      rw [Ne, path_eq_iff (by omega) hvirt hva]
      omega
    rw [show 4 - (3 - d) = d + 1 by omega] at hp
    refine (h q ?_).of_same (hst.marks.le q) (hst.inv.tree.same_of_path_ne hsame hp)
    exact (Nat.mul_le_mul_left 4096 (Nat.le_add_right k _)).trans hq
  through hst _ he h q hq := by
    refine marked_enter ha hst.inv he (h q hq) (hst.marks.le q) fun hp => ?_
    have := he.depth
    exact hst.entered q _ (le_refl _) (path_mono (by omega) (by omega) hp)
  same _ hmarks hs h q hq := (h q hq).of_same_loads (hmarks.le q) hs

end

end Liumos.Paging
