/-
Mapping one range and the rights elsewhere. `CreatePageMapping` writes its attributes into every upper
entry it goes through, whoever else uses it, and into the PML4 entry behind a range that ends at one.
The rights outside the range stay as they were exactly if these attributes grant there, together with the
levels below, what was granted before.
-/
import Liumos.Paging.RightsRevoked

namespace Liumos.Paging

section

variable {σ : Type} {E : Panic → Prop} {A : Pool σ}
  {allocPages : Word → WM σ Word} [hA : AllocOk allocPages A]

variable {mask attr root vaddr paddr byteSize q : Word} {shouldClflush : Bool} {w w' : World σ}

section

variable (h : TreeInv A mask root w)

include h

/-- With Present among the attributes, the call leaves a well-formed tree in which every page outside the range is
marked for the entries it shares. It comes upon a page only if there was one in the range. -/
theorem yields_createPageMapping (ha : AttrOk attr) (hE : Tolerates E allocPages)
    (hover : (∀ e, E e) ∨ ∀ k < pageCount byteSize, leaf mask w.mem 3 root (pageAddr vaddr k) = none) :
    Yields E (createPageMapping allocPages mask attr shouldClflush root vaddr paddr byteSize) w fun _ w' =>
      TreeInv A mask root w' ∧ ∀ q s, Outside vaddr (pageCount byteSize) q →
        SharesExactly vaddr (pageCount byteSize) q s → Marked mask attr root w.mem w'.mem q s := by
  refine ((rights_pageRule ha).yields ha ((rights_pageRule ha).mapRule ha hE ?_) h fun q _ =>
    marked_refl w.mem).mono ?_
  rotate_left
  · rintro _ w' ⟨hinv, mark, hmarked, -, hexactly⟩
    refine ⟨hinv, fun q s hq hs => ?_⟩
    rw [hs.unique (hexactly q hq)]
    exact hmarked q hq
  · intro mark d t w' w'' k hst hd hk hthrough hpage hmarked
    rcases hover with hall | hnone
    · exact hall
    · have hspace := (inSpace_iff k).1 hst.space
      refine absurd (hnone k hk) (Marked.no_page ha hst.inv hd hst.table (hmarked _ ?_) (hst.marks.le _) hthrough hpage)
      rw [offset_pageAddr (by omega)]

section

variable (ha : AttrOk attr)
  (hrun : (createPageMapping allocPages mask attr shouldClflush root vaddr paddr byteSize).run w = .ok () w')

include ha hrun

theorem marked_createPageMapping : TreeInv A mask root w' ∧ ∀ q s, Outside vaddr (pageCount byteSize) q →
      SharesExactly vaddr (pageCount byteSize) q s → Marked mask attr root w.mem w'.mem q s :=
  (yields_createPageMapping h ha (E := fun _ => True) ⟨fun _ => trivial, fun _ => trivial⟩
    (.inl fun _ => trivial)).of_ok hrun

/-- Mapping a range maps nothing else. -/
theorem leaf_createPageMapping (hq : 4096 * pageCount byteSize ≤ offset vaddr q)
    (hnone : leaf mask w.mem 3 root q = none) : leaf mask w'.mem 3 root q = none := by
  obtain ⟨s, hs⟩ := exists_sharesExactly vaddr (pageCount byteSize) q
  refine ((marked_createPageMapping h ha hrun).2 q s ?_ hs).leaf_none hs.le hnone
  exact (Nat.mul_le_mul_left 4096 (Nat.min_le_left _ _)).trans hq

end

/-- Without Present, the PML4 entries of the range are not present behind the call, and the others as before. -/
theorem revoked_createPageMapping (hattr : attr &&& ~~~kPageAttrMask = 0#64) (hpres : isPresent attr = false)
    (hrun : (createPageMapping allocPages mask attr shouldClflush root vaddr paddr byteSize).run w = .ok () w')
    (q : Word) :
    (SharesTable vaddr (pageCount byteSize) q 1 → isPresent (w'.mem.load (entryAddr 3 root q)) = false) ∧
      (¬ SharesTable vaddr (pageCount byteSize) q 1 → SameBelow mask w.mem w'.mem root q 0) := by
  have hinit : RevokedOuter A mask root vaddr (pageCount byteSize) w.mem
      (kNumOfEntries - addr2index 3 vaddr) w 0 :=
    ⟨Nat.zero_le _, _, _, revoked_init h, pending_init _, fun j hj => absurd hj (Nat.not_lt_zero j)⟩
  obtain ⟨_, -, -, _, _, hinv, hend, hslots⟩ :=
    ((revoked_outerRule h.tree hattr hpres).createPageMapping hinit).of_ok hrun
  refine ⟨fun hs => hinv.dead q ?_, hinv.same q⟩
  exact sharesTable_one_le (fun j hj hp => hslots j hj q hp.symm) (le_refl _) hend.done hs

/-- What the call leaves of the rights of a page outside its range. -/
theorem rights_createPageMapping (hattr : attr &&& ~~~kPageAttrMask = 0#64)
    (hrun : (createPageMapping allocPages mask attr shouldClflush root vaddr paddr byteSize).run w = .ok () w')
    {s : Nat} (hq : Outside vaddr (pageCount byteSize) q) (hs : SharesExactly vaddr (pageCount byteSize) q s) :
    rights mask w'.mem 3 root q =
      if s = 0 then rights mask w.mem 3 root q else (entryRights attr).and (rightsBelow mask w.mem root q s) := by
  cases hpres : isPresent attr with
  | true => exact ((marked_createPageMapping h ⟨hattr, hpres⟩ hrun).2 q s hq hs).rights hs.le
  | false =>
    obtain ⟨hdead, hsame⟩ := revoked_createPageMapping h hattr hpres hrun q
    split_ifs with hs0
    · subst hs0
      exact rights_eq_of_same_below (zero_add 3) rfl (hsame (hs.deepest (by norm_num)))
    · rw [rights_absent (hdead (hs.shares.mono (le_refl 1) (by omega) hs.le)),
        entryRights_absent hpres, Rights.none_and]

end

/-- The rights outside the mapped range are the same after the call as before exactly if, for every page there that
shares entries with the range, the attributes of the call and the entries below grant what was granted before. -/
theorem createPageMapping_rights_iff {mask attr root vaddr paddr byteSize : Word}
    {shouldClflush : Bool} {w w' : World σ} (hw : TreeInv A mask root w) (hattr : attr &&& ~~~kPageAttrMask = 0#64)
    (hrun : (createPageMapping allocPages mask attr shouldClflush root vaddr paddr byteSize).run w = .ok () w') :
    (∀ q, Outside vaddr (pageCount byteSize) q → rights mask w'.mem 3 root q = rights mask w.mem 3 root q) ↔
      ∀ q, Outside vaddr (pageCount byteSize) q → ∀ s, 1 ≤ s → SharesExactly vaddr (pageCount byteSize) q s →
          rights mask w.mem 3 root q = (entryRights attr).and (rightsBelow mask w.mem root q s) := by
  have hafter : ∀ {q s}, Outside vaddr (pageCount byteSize) q →
      SharesExactly vaddr (pageCount byteSize) q s → rights mask w'.mem 3 root q = _ :=
    fun hq hs => rights_createPageMapping hw hattr hrun hq hs
  constructor
  · intro h q hq s hs1 hs
    rw [← h q hq, hafter hq hs, if_neg (by omega)]
  · intro h q hq
    obtain ⟨s, hs⟩ := exists_sharesExactly vaddr (pageCount byteSize) q
    rw [hafter hq hs]
    split_ifs with hs0
    · rfl
    · exact (h q hq s (by omega) hs).symm

end

/-! ## Two pages next to each other -/

/-- An empty tree with its root at `0x1000`, and pages for new tables. -/
def emptyTree : World (List Word) := ⟨WriteBack.Memory.ofInit fun _ => 0#64, [0x2000#64, 0x3000#64, 0x4000#64]⟩

theorem emptyTree_treeInv : TreeInv pageList (lowMask 36) 0x1000#64 emptyTree :=
  treeInv_empty (by decide) (by decide) (by simp) (by simp)

/-- The last page but one of the address space, writable and open to the user. -/
def mapFirst : WM (List Word) Unit :=
  createPageMapping allocFromList (lowMask 36) 7#64 false 0x1000#64 0xFFFFFFFFFFFFE000#64 0x200000#64 0x1000#64

/-- The last page, present only. -/
def mapSecond : WM (List Word) Unit :=
  createPageMapping allocFromList (lowMask 36) 1#64 false 0x1000#64 0xFFFFFFFFFFFFF000#64 0x300000#64 0x1000#64

/-- A tree in which a page at `0x400000` is mapped, writable and open to the user. -/
def lowMapped : World (List Word) :=
  final ((createPageMapping allocFromList (lowMask 36) 7#64 false 0x1000#64 0x400000#64 0x300000#64 0x1000#64).run
    ⟨WriteBack.Memory.ofInit fun _ => 0#64, [0x2000#64, 0x3000#64, 0x4000#64, 0x5000#64, 0x6000#64, 0x7000#64]⟩)

theorem lowMapped_treeInv : TreeInv pageList (lowMask 36) 0x1000#64 lowMapped :=
  (marked_createPageMapping (treeInv_empty (by decide) (by decide) (by simp) (by simp))
    ⟨by decide, by decide⟩ (eq_final_of_returned (by decide +kernel))).1

/-- Below the PML4 entry of the first page there is nothing to lose, and the page at `0x400000` is below another one. -/
theorem createPageMapping_rights_lowMapped : ∃ w', mapFirst.run lowMapped = .ok () w' ∧
    rights (lowMask 36) w'.mem 3 0x1000#64 0x400000#64 = ⟨true, true, true⟩ ∧ ∀ q, Outside 0xFFFFFFFFFFFFE000#64 1 q →
      rights (lowMask 36) w'.mem 3 0x1000#64 q = rights (lowMask 36) lowMapped.mem 3 0x1000#64 q := by
  obtain ⟨_, w', hrun⟩ := exists_of_returned (r := mapFirst.run lowMapped) (by decide +kernel)
  have h := lowMapped_treeInv
  have hsame := (createPageMapping_rights_iff h (by decide) hrun).2 fun q _ s hs1 hs => by
    obtain ⟨s, rfl⟩ : ∃ c, s = c + 1 := ⟨s - 1, by omega⟩
    obtain ⟨j, hj, -, hp⟩ := hs.shares.mono (le_refl 1) hs1 hs.le
    have hindex : ∀ j ≤ 1, addr2index 3 (pageAddr 0xFFFFFFFFFFFFE000#64 j) = 511 := by decide
    rw [path_one, path_one, hindex j hj] at hp
    have habs : isPresent (lowMapped.mem.load (entryAddr 3 0x1000#64 q)) = false := by
      rw [entryAddr, ← hp]
      decide +kernel
    rw [rights_absent habs, rightsBelow, tableAt_absent habs, Rights.and_none]
  refine ⟨w', hrun, ?_, hsame⟩
  rw [hsame _ (by unfold Outside mappedPages offset; decide)]
  decide +kernel

/-- The rights of the first page before and after the second is mapped. -/
def rightsOfFirst : Option (Rights × Rights) :=
  match mapFirst.run emptyTree with
  | .ok _ w1 =>
    match mapSecond.run w1 with
    | .ok _ w2 => some (rights (lowMask 36) w1.mem 3 0x1000#64 0xFFFFFFFFFFFFE000#64,
        rights (lowMask 36) w2.mem 3 0x1000#64 0xFFFFFFFFFFFFE000#64)
    | .error _ _ => none
  | .error _ _ => none

/-- Mapping the second page takes the write and user access of the first away. -/
theorem createPageMapping_rights_lost : ∃ w1 w2, TreeOk (lowMask 36) w1.mem 0x1000#64 ∧ mapSecond.run w1 = .ok () w2 ∧
    Outside 0xFFFFFFFFFFFFF000#64 1 0xFFFFFFFFFFFFE000#64 ∧
    rights (lowMask 36) w1.mem 3 0x1000#64 0xFFFFFFFFFFFFE000#64 = ⟨true, true, true⟩ ∧
    rights (lowMask 36) w2.mem 3 0x1000#64 0xFFFFFFFFFFFFE000#64 = ⟨true, false, false⟩ := by
  have h : rightsOfFirst = some (⟨true, true, true⟩, ⟨true, false, false⟩) := by decide +kernel
  unfold rightsOfFirst at h
  split at h
  · rename_i w1 hrun1
    have htree := (marked_createPageMapping emptyTree_treeInv ⟨by decide, by decide⟩ hrun1).1.tree
    split at h
    · rename_i w2 hrun2
      obtain ⟨h1, h2⟩ := Prod.mk.inj (Option.some.inj h)
      exact ⟨w1, w2, htree, hrun2, by unfold Outside mappedPages offset; decide, h1, h2⟩
    · cases h
  · cases h

end Liumos.Paging
