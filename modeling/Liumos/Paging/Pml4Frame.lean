/-
The PML4 entries that `CreatePageMapping` touches. Its outer loop is not guarded by the number of pages left, so
besides the entries of the range it goes through the entry behind the range, if there is one: with no page to map
that is the entry of the address itself, and behind a range that ends at a 512GB boundary it is the next entry. Such
an entry gets the attributes of the call, and a table if it has none.
Source: paging.h.
-/
import Liumos.Paging.MappingRights

namespace Liumos.Paging

section

variable {σ : Type} {A : Pool σ} {allocPages : Word → WM σ Word} [hA : AllocOk allocPages A]
  {mask root attr v0 p0 : Word} {N : Nat}

/-! ## One entry -/

theorem setAttr_setAttr (e attr : Word) : setAttr (setAttr e attr) attr = setAttr e attr := by
  apply BitVec.eq_of_getLsbD_eq
  intro i _
  simp only [getLsbD_setAttr]
  split_ifs <;> rfl

/-- What the call makes of a PML4 entry that it goes through. -/
structure Stamped (attr e e' : Word) : Prop where
  old : isPresent e = true → e' = setAttr e attr
  new : isPresent e' = true

variable {e va va' t vaddr paddr byteSize : Word} {d : Nat} {w w' : World σ} {shouldClflush : Bool}

theorem Stamped.again {e' : Word} (ha : AttrOk attr) (h : Stamped attr e e') : Stamped attr e (setAttr e' attr) where
  old he := by rw [h.old he, setAttr_setAttr]
  new := (isPresent_setAttr e' attr).trans ha.present

/-- An entry of the PML4 is no entry of a table below. -/
theorem TreeOk.pml4_ne {m : Mem} (h : TreeOk mask m root) (hd1 : 1 ≤ d) (hd : d ≤ 3)
    (ht : tableAt mask m root va d = some t) : entryAddr 3 root va' ≠ entryAt d t va := by
  intro he
  obtain ⟨rfl, -⟩ := h.entry_inj (Nat.zero_le 3) hd (d := 0) rfl ht he
  omega

section

variable (ha : AttrOk attr) (hw : TreeInv A mask root w) (hd : d ≤ 2) (ht : tableAt mask w.mem root va d = some t)
  (h : Through allocPages mask attr (3 - d) (entryAt d t va) w w')

include ha hw hd ht h

/-- Going through an entry changes no other entry of the tree. -/
theorem entry_through {d' : Nat} {t' : Word} (hd' : d' ≤ 3) (ht' : tableAt mask w.mem root va' d' = some t')
    (hne : entryAt d' t' va' ≠ entryAt d t va) : w'.mem.load (entryAt d' t' va') = w.mem.load (entryAt d' t' va') := by
  obtain ⟨_, _, w1, w1', w2, hinst, hs1, hattr, hs2⟩ := h.steps
  have h₁ : w1.mem.load (entryAt d' t' va') = w.mem.load (entryAt d' t' va') := by
    rcases installTable_cases ha hw hd ht hinst with ⟨-, rfl⟩ | ⟨_, w2, -, -, -, -, rfl, hL, hdrawn⟩
    · rfl
    · rw [hL.same _ hne, hdrawn.writes]
      rw [entryAddr_mem_page (hw.tree.table_aligned ht')]
      exact hw.apart va' d' t' hd' ht'
  have h2 : w2.mem.load (entryAt d' t' va') = w1'.mem.load (entryAt d' t' va') := by
    obtain rfl := run_updateAttr_ok hattr
    exact WriteBack.Memory.load_store_ne _ _ hne
  rw [hs2.2, h2, hs1.2, h₁]

/-- Going through an entry changes no other entry of the PML4. -/
theorem pml4_through (hne : entryAddr 3 root va' ≠ entryAt d t va) :
    w'.mem.load (entryAddr 3 root va') = w.mem.load (entryAddr 3 root va') := by
  have hroot : tableAt mask w.mem root va' 0 = some root := rfl
  have hkept := entry_through ha hw hd ht h (Nat.zero_le 3) hroot hne
  exact hkept

end

/-- Going through an entry of the PML4. -/
theorem stamped_through (ha : AttrOk attr) (hw : TreeInv A mask root w)
    (h : Through allocPages mask attr 3 (entryAddr 3 root va) w w')
    (he : w.mem.load (entryAddr 3 root va) = e ∨ Stamped attr e (w.mem.load (entryAddr 3 root va))) :
    Stamped attr e (w'.mem.load (entryAddr 3 root va)) := by
  obtain ⟨_, _, _, _, w2, hinst, hs1, hattr, hs2⟩ := h.steps
  rw [hs2.2, updateAttr_load hattr, hs1.2]
  rcases installTable_cases ha hw (Nat.zero_le 2) rfl hinst with ⟨hpres, rfl⟩ | ⟨_, _, -, hsame, -, -, rfl, hL, -⟩
  · rcases he with rfl | hst
    · exact ⟨fun _ => rfl, (isPresent_setAttr _ _).trans ha.present⟩
    · exact hst.again ha
  · -- the entry was not present
    have habs := hL.absent
    rw [hsame va 0 root (le_refl 0) (Nat.zero_le 3) rfl] at habs
    refine ⟨fun hpres => ?_, (isPresent_setAttr _ _).trans ha.present⟩
    rcases he with rfl | hst
    · rw [habs] at hpres
      cases hpres
    · have := hst.new
      rw [habs] at this
      cases this

/-! ## The call -/

/-- The entries with a mark are stamped, and the others kept. -/
structure Pml4At (root attr : Word) (m0 : Mem) (mark : Word → Nat) (w : World σ) (q : Word) : Prop where
  kept : mark q = 0 → w.mem.load (entryAddr 3 root q) = m0.load (entryAddr 3 root q)
  stamped : 1 ≤ mark q → Stamped attr (m0.load (entryAddr 3 root q)) (w.mem.load (entryAddr 3 root q))

variable {m0 : Mem} {mark : Word → Nat} {q : Word}

theorem Pml4At.of_load (h : Pml4At root attr m0 mark w q)
    (hl : w'.mem.load (entryAddr 3 root q) = w.mem.load (entryAddr 3 root q)) : Pml4At root attr m0 mark w' q := by
  refine ⟨fun h0 => hl.trans (h.kept h0), fun h1 => ?_⟩
  rw [hl]
  exact h.stamped h1

section

variable (ha : AttrOk attr)

include ha

/-- Going through an entry of the PML4 marks and stamps it. -/
theorem Pml4At.through (hw : TreeInv A mask root w)
    (hthrough : Through allocPages mask attr 3 (entryAddr 3 root va) w w') (h : Pml4At root attr m0 mark w q) :
    Pml4At root attr m0 (raise mark 0 va) w' q := by
  by_cases hp : path 1 q = path 1 va
  · have he : entryAddr 3 root q = entryAddr 3 root va := entryAddr_congr (by rw [← path_one, hp, path_one])
    refine ⟨fun h0 => ?_, fun _ => ?_⟩
    · rw [raise, if_pos hp] at h0
      omega
    · rw [he]
      refine stamped_through ha hw hthrough ?_
      rw [← he]
      rcases Nat.eq_zero_or_pos (mark q) with h0 | h1
      · exact .inl (h.kept h0)
      · exact .inr (h.stamped h1)
  · have hne : entryAddr 3 root q ≠ entryAddr 3 root va := fun he => by
      rw [path_one, path_one] at hp
      exact hp (entryAddr_inj hw.tree.aligned hw.tree.aligned he).2
    have hmark : raise mark 0 va q = mark q := if_neg hp
    have h' := h.of_load (pml4_through ha hw (Nat.zero_le 2) rfl hthrough hne)
    exact ⟨fun h0 => h'.kept (hmark ▸ h0), fun h1 => h'.stamped (hmark ▸ h1)⟩

theorem pml4_pageRule :
    PageRule A allocPages mask root attr v0 p0 N fun mark w _ => ∀ q, Pml4At root attr m0 mark w q where
  page hst hd2 hd _ _ _ hnone hrun h q := by
    obtain ⟨-, -, -, hsame, -⟩ := mapPage_frame ha hst.inv (by omega) hd hst.table hnone hrun
    exact (h q).of_load (hsame.same _ (hst.inv.tree.pml4_ne (by omega) hd hst.table))
  through := by
    intro mark d t w w' k hst _ he h q
    have hd := he.depth
    rcases Nat.eq_zero_or_pos d with rfl | hpos
    · cases hst.table
      exact (h q).through ha hst.inv he.through
    · have h' := (h q).of_load (pml4_through ha hst.inv hd he.table he.through
        (hst.inv.tree.pml4_ne hpos (by omega) hst.table))
      refine ⟨fun h0 => h'.kept ?_, fun h1 => h'.stamped ?_⟩
      · have := le_raise mark d (pageAddr v0 k) q
        omega
      · -- what is marked below an entry has the mark of its PML4 entry
        unfold raise at h1
        split_ifs at h1 with hp
        · exact hpos.trans_le (hst.entered q d (le_refl d) (path_mono (by omega) (by omega) hp))
        · exact h1
  same _ _ hs h q := (h q).of_load (hs.2 _)

/-- Every entry of the PML4 after the call: it is stamped if the call goes through it, and kept otherwise. -/
theorem pml4_createPageMapping (h : TreeInv A mask root w)
    (hrun : (createPageMapping allocPages mask attr shouldClflush root vaddr paddr byteSize).run w = .ok () w')
    (q : Word) :
    (SharesTable vaddr (pageCount byteSize) q 1 →
      Stamped attr (w.mem.load (entryAddr 3 root q)) (w'.mem.load (entryAddr 3 root q))) ∧
    (¬ SharesTable vaddr (pageCount byteSize) q 1 →
      w'.mem.load (entryAddr 3 root q) = w.mem.load (entryAddr 3 root q)) := by
  obtain ⟨-, _, hpml4, hmark, -⟩ := (pml4_pageRule ha).createPageMapping ha h
    (fun q => ⟨fun _ => rfl, fun h1 => absurd h1 (by norm_num)⟩ : ∀ q, Pml4At root attr w.mem (fun _ => 0) w q) hrun
  refine ⟨fun hs => (hpml4 q).stamped ((hmark q).2 hs), fun hns => (hpml4 q).kept ?_⟩
  by_contra hne
  exact hns ((hmark q).1 (Nat.pos_of_ne_zero hne))

end

/-! ## The entries of the range -/

/-- The range ends where a PML4 entry begins, or has no page, and the outer loop comes to that entry. -/
def EndsAtEntry (v0 : Word) (N : Nat) : Prop :=
  (N = 0 ∨ (v0.toNat + 4096 * N) % 2 ^ 39 = 0) ∧ v0.toNat % 2 ^ 48 + 4096 * N < 2 ^ 48

theorem endsAtEntry_iff (hv : v0.toNat % 4096 = 0) :
    EndsAtEntry v0 N ↔ InSpace v0 N ∧ ∀ k < N, addr2index 3 (pageAddr v0 k) ≠ addr2index 3 (pageAddr v0 N) := by
  have hidx : ∀ k, addr2index 3 (pageAddr v0 k) = (v0.toNat + 4096 * k) / 2 ^ 39 % 512 := fun k =>
    addr2index_pageAddr (le_refl 3) v0 k
  rw [inSpace_iff, EndsAtEntry]
  constructor
  · rintro ⟨hend, hspace⟩
    refine ⟨hspace, fun k hk => ?_⟩
    rw [hidx, hidx]
    omega
  · rintro ⟨hspace, hne⟩
    refine ⟨?_, hspace⟩
    by_contra hend
    -- the last page is below the same entry
    have hlast := hne (N - 1) (by omega)
    rw [hidx, hidx] at hlast
    omega

/-- On a well-formed tree, with attributes among which is Present: when the call returns, the PML4 entries of no page
of the range are kept, and get no table, exactly if the range does not end at an entry that the outer loop comes to,
or that entry has a table and these attributes already. -/
theorem createPageMapping_pml4_iff (ha : AttrOk attr) {vaddr paddr byteSize : Word}
    {shouldClflush : Bool} {w w' : World σ} (hw : TreeInv A mask root w)
    (hrun : (createPageMapping allocPages mask attr shouldClflush root vaddr paddr byteSize).run w = .ok () w') :
    (∀ q, (∀ k < pageCount byteSize, addr2index 3 (pageAddr vaddr k) ≠ addr2index 3 q) →
        w'.mem.load (entryAddr 3 root q) = w.mem.load (entryAddr 3 root q) ∧
          tableAt mask w'.mem root q 1 = tableAt mask w.mem root q 1) ↔ (EndsAtEntry vaddr (pageCount byteSize) →
        isPresent (w.mem.load (entryAddr 3 root (pageAddr vaddr (pageCount byteSize)))) = true ∧
          setAttr (w.mem.load (entryAddr 3 root (pageAddr vaddr (pageCount byteSize)))) attr =
            w.mem.load (entryAddr 3 root (pageAddr vaddr (pageCount byteSize)))) := by
  have hpml4 := pml4_createPageMapping ha hw hrun
  have hv := vaddr_aligned hrun
  generalize pageCount byteSize = N at *
  constructor
  · intro hkept hend
    obtain ⟨hspace, hne⟩ := (endsAtEntry_iff hv).1 hend
    have hst := (hpml4 (pageAddr vaddr N)).1 ⟨N, le_refl N, hspace, rfl⟩
    rw [(hkept _ hne).1] at hst
    exact ⟨hst.new, (hst.old hst.new).symm⟩
  · intro hcond q hq
    have hload : w'.mem.load (entryAddr 3 root q) = w.mem.load (entryAddr 3 root q) := by
      by_cases hshares : SharesTable vaddr N q 1
      · -- the entry behind the range
        obtain ⟨j, hj, hspace, hp⟩ := id hshares
        rw [path_one, path_one] at hp
        have hjN : j = N := le_antisymm hj (not_lt.1 fun hlt => hq j hlt hp)
        subst hjN
        obtain ⟨hpres, hattr⟩ := hcond ((endsAtEntry_iff hv).2 ⟨hspace, by rwa [hp]⟩)
        have he : entryAddr 3 root (pageAddr vaddr j) = entryAddr 3 root q := entryAddr_congr hp
        rw [he] at hpres hattr
        rw [((hpml4 q).1 hshares).old hpres, hattr]
      · exact (hpml4 q).2 hshares
    exact ⟨hload, by simp only [tableAt, Option.bind_some, hload]⟩

/-- The last page but one of the address space, in an empty tree. -/
theorem createPageMapping_pml4_mapFirst : ∃ w', mapFirst.run emptyTree = .ok () w' ∧
    ∀ q, (∀ k < 1, addr2index 3 (pageAddr 0xFFFFFFFFFFFFE000#64 k) ≠ addr2index 3 q) →
      w'.mem.load (entryAddr 3 0x1000#64 q) = emptyTree.mem.load (entryAddr 3 0x1000#64 q) ∧
        tableAt (lowMask 36) w'.mem 0x1000#64 q 1 = tableAt (lowMask 36) emptyTree.mem 0x1000#64 q 1 := by
  obtain ⟨_, w', hrun⟩ := exists_of_returned (r := mapFirst.run emptyTree) (by decide +kernel)
  have h := emptyTree_treeInv
  refine ⟨w', hrun, (createPageMapping_pml4_iff ⟨by decide, by decide⟩ h hrun).2 ?_⟩
  intro hend
  have : ¬ EndsAtEntry 0xFFFFFFFFFFFFE000#64 1 := by
    unfold EndsAtEntry
    decide
  exact absurd hend this

/-- An empty tree, and four pages to take. -/
def roomyTree : World (List Word) :=
  ⟨WriteBack.Memory.ofInit fun _ => 0#64, [0x2000#64, 0x3000#64, 0x4000#64, 0x5000#64]⟩

/-- The last page before the 512GB boundary at `0xFFFFFF0000000000`. -/
def mapBeforeBoundary : WM (List Word) Unit :=
  createPageMapping allocFromList (lowMask 36) 3#64 false 0x1000#64 0xFFFFFEFFFFFFF000#64 0x200000#64 0x1000#64

/-- The PML4 entry behind the boundary gets a table. -/
theorem createPageMapping_pml4_touched : ∃ w', TreeOk (lowMask 36) roomyTree.mem 0x1000#64 ∧
    mapBeforeBoundary.run roomyTree = .ok () w' ∧
    (∀ k < 1, addr2index 3 (pageAddr 0xFFFFFEFFFFFFF000#64 k) ≠ addr2index 3 0xFFFFFF0000000000#64) ∧
    roomyTree.mem.load (entryAddr 3 0x1000#64 0xFFFFFF0000000000#64) = 0#64 ∧
    w'.mem.load (entryAddr 3 0x1000#64 0xFFFFFF0000000000#64) = 0x5003#64 := by
  have hafter : returned (mapBeforeBoundary.run roomyTree) = true ∧
      (final (mapBeforeBoundary.run roomyTree)).mem.load (entryAddr 3 0x1000#64 0xFFFFFF0000000000#64) = 0x5003#64 := by
    decide +kernel
  have htree : TreeInv pageList (lowMask 36) 0x1000#64 roomyTree :=
    treeInv_empty (by decide) (by decide) (by simp) (by simp)
  exact ⟨_, htree.tree, eq_final_of_returned hafter.1, by decide, by decide, hafter.2⟩

end

end Liumos.Paging
