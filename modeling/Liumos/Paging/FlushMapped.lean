/-
`FlushDirtyPages` on a range that `CreatePageMapping` has mapped. The builder leaves every page of the range mapped,
by an entry of level 0 or by one of level 1, and a PML4 entry behind the range; the walker goes through the entries
of level 0 only, and panics at a page that one of level 1 maps.
Source: paging.h, paging.cc.
-/
import Liumos.Paging.FlushRange
import Liumos.Paging.Mapped

namespace Liumos.Paging

section

variable {σ : Type} {A : Pool σ} {allocPages : Word → WM σ Word} [hA : AllocOk allocPages A]
  {mask root attr : Word} {m : Mem}

/-! ## Flushing the range -/

/-- The entries of the tree are the same up to their dirty bits. -/
def SameTree (mask root : Word) (m m' : Mem) : Prop :=
  ∀ va d t, d ≤ 3 → tableAt mask m root va d = some t →
    clearDirtyBit (m'.load (entryAt d t va)) = clearDirtyBit (m.load (entryAt d t va))

theorem SameTree.isPresent_pml4 {m' : Mem} (h : SameTree mask root m m') (va : Word) :
    isPresent (m'.load (entryAddr 3 root va)) = isPresent (m.load (entryAddr 3 root va)) := by
  rw [← isPresent_clearDirtyBit, h va 0 root (Nat.zero_le 3) rfl, isPresent_clearDirtyBit]

theorem SameTree.pteAt_none {m' : Mem} (h : SameTree mask root m m') (va : Word) :
    pteAt mask root m' va = none ↔ tableAt mask m root va 3 = none := by
  rw [pteAt, Option.map_eq_none_iff, tableAt_of_dirtyBits (fun d t hd ht => h va d t hd ht) (by omega)]

/-- Where the PML4 entry of the address is not present, the call panics. -/
theorem flushDirtyPages_absent {vaddr byteSize : Word} {w w' : World σ} {u : Unit}
    (habs : isPresent (w.mem.load (entryAddr 3 root vaddr)) = false) :
    (flushDirtyPages mask root vaddr byteSize).run w ≠ .ok u w' := by
  intro hrun
  unfold flushDirtyPages at hrun
  obtain ⟨-, hrun⟩ := of_run_assert_bind hrun
  obtain ⟨_, _, hrun, -⟩ := run_bind_ok hrun
  obtain ⟨n, hn⟩ : ∃ n, kNumOfEntries - addr2index 3 vaddr = n + 1 :=
    ⟨kNumOfEntries - addr2index 3 vaddr - 1, by have := addr2index_lt 3 vaddr; unfold kNumOfEntries; omega⟩
  rw [hn, flushPml4] at hrun
  replace hrun := of_run_load_bind hrun
  rw [habs] at hrun
  cases hrun

/-- On a well-formed tree in which `CreatePageMapping` has mapped the range, with any dirty bits since: the call to
`FlushDirtyPages` on the range returns, has issued the flushes of the dirty pages and no others, and cleared their dirty
bits and no others, exactly if the range was mapped as present and by 4KB pages throughout. -/
theorem flushDirtyPages_accepts_iff {vaddr paddr byteSize : Word} {shouldClflush : Bool}
    {w w1 : World σ} (hw : TreeInv A mask root w) (hattr : attr &&& ~~~kPageAttrMask = 0#64)
    (hrun : (createPageMapping allocPages mask attr shouldClflush root vaddr paddr byteSize).run w = .ok () w1)
    {τ : Type} {w2 : World τ} (hdirty : SameTree mask root w1.mem w2.mem) :
    (∃ w3, (flushDirtyPages mask root vaddr byteSize).run w2 = .ok () w3 ∧
        Walked mask root vaddr (mappedPages vaddr (pageCount byteSize)) w2.mem w3.mem) ↔
      isPresent attr = true ∧ ∀ k < mappedPages vaddr (pageCount byteSize),
        ∃ a, leaf mask w1.mem 3 root (pageAddr vaddr k) = some (0, a) := by
  have hal := vaddr_aligned hrun
  cases hpres : isPresent attr with
  | false =>
    refine ⟨?_, fun h => by cases h.1⟩
    rintro ⟨w3, hflush, -⟩
    have hspace : InSpace vaddr 0 := by
      rw [inSpace_iff]
      omega
    have habs := (revoked_createPageMapping hw hattr hpres hrun vaddr).1
      ⟨0, Nat.zero_le _, hspace, by rw [pageAddr_zero]⟩
    rw [← hdirty.isPresent_pml4] at habs
    exact absurd hflush (flushDirtyPages_absent habs)
  | true =>
    have ha : AttrOk attr := ⟨hattr, hpres⟩
    have hmapped : ∀ k < mappedPages vaddr (pageCount byteSize), Mapped mask root w1.mem (pageAddr vaddr k) :=
      fun k hk => mapped_createPageMapping ha hw hrun (.inr ⟨k, hk, rfl⟩)
    have hbehind : InSpace vaddr (pageCount byteSize) →
        isPresent (w2.mem.load (entryAddr 3 root (pageAddr vaddr (pageCount byteSize)))) = true := by
      intro hs
      rw [hdirty.isPresent_pml4]
      exact ((pml4_createPageMapping ha hw hrun _).1 ⟨_, le_refl _, hs, rfl⟩).new
    constructor
    · rintro ⟨w3, -, hwalked⟩
      refine ⟨rfl, fun k hk => (hmapped k hk).leaf_zero fun hnone => ?_⟩
      exact hwalked.entries k hk ((hdirty.pteAt_none _).2 hnone)
    · rintro ⟨-, hsmall⟩
      have hno : ¬ Unwalkable mask root vaddr (pageCount byteSize) w2.mem := by
        rintro ⟨k, hk, hnone⟩
        obtain ⟨a, hleaf⟩ := hsmall k hk
        obtain ⟨a', hleaf'⟩ := (hmapped k hk).leaf_one ((hdirty.pteAt_none _).1 hnone)
        rw [hleaf] at hleaf'
        cases hleaf'
      obtain ⟨_, w3, hflush, hwalked⟩ := ((yields_flushDirtyPages w2 hal hbehind).allow fun _ h => hno h).returns
      exact ⟨w3, hflush, hwalked⟩

end

/-! ## A small and a large page -/

/-- The last page but one of the address space, which has been written to since. -/
theorem flushDirtyPages_accepts_mapFirst : ∃ w1, mapFirst.run emptyTree = .ok () w1 ∧
    ∃ w3, (flushDirtyPages (lowMask 36) 0x1000#64 0xFFFFFFFFFFFFE000#64 0x1000#64).run
        { w1 with mem := w1.mem.store 0x4FF0 (setDirtyBit (w1.mem.load 0x4FF0)) } = .ok () w3 ∧
      Walked (lowMask 36) 0x1000#64 0xFFFFFFFFFFFFE000#64 1
      (w1.mem.store 0x4FF0 (setDirtyBit (w1.mem.load 0x4FF0))) w3.mem := by
  obtain ⟨hret, hleaf⟩ : returned (mapFirst.run emptyTree) = true ∧
      leaf (lowMask 36) (final (mapFirst.run emptyTree)).mem 3 0x1000#64 (pageAddr 0xFFFFFFFFFFFFE000#64 0) =
      some (0, 0x4FF0) := by
    decide +kernel
  have hrun := eq_final_of_returned hret
  generalize final (mapFirst.run emptyTree) = w1 at hrun hleaf
  have hsame : SameTree (lowMask 36) 0x1000#64 w1.mem (w1.mem.store 0x4FF0 (setDirtyBit (w1.mem.load 0x4FF0))) := by
    intro va d t _ _
    rw [WriteBack.Memory.load_store]
    split
    · rename_i hx
      rw [hx, clearDirtyBit_setDirtyBit]
    · rfl
  have hpages : mappedPages 0xFFFFFFFFFFFFE000#64 1 = 1 := by
    unfold mappedPages
    decide
  have h := emptyTree_treeInv
  refine ⟨w1, hrun, (flushDirtyPages_accepts_iff h (by decide) hrun hsame).2 ⟨by decide, ?_⟩⟩
  intro k hk
  obtain rfl : k = 0 := by
    have : k < mappedPages 0xFFFFFFFFFFFFE000#64 1 := hk
    omega
  exact ⟨_, hleaf⟩

/-- The last 2MB of the address space. -/
def mapLarge : WM (List Word) Unit :=
  createPageMapping allocFromList (lowMask 36) 3#64 false 0x1000#64 0xFFFFFFFFFFE00000#64 0x200000#64 0x200000#64

/-- The range is mapped by one 2MB page, at which the flush of the same range panics. -/
theorem flushDirtyPages_refuses_large : ∃ w1 w2, TreeOk (lowMask 36) emptyTree.mem 0x1000#64 ∧
    mapLarge.run emptyTree = .ok () w1 ∧
    (flushDirtyPages (lowMask 36) 0x1000#64 0xFFFFFFFFFFE00000#64 0x200000#64).run w1 =
      .error (.message "Page overwrapping at pdte") w2 := by
  obtain ⟨hret, hflush⟩ : returned (mapLarge.run emptyTree) = true ∧
      panicked ((flushDirtyPages (lowMask 36) 0x1000#64 0xFFFFFFFFFFE00000#64 0x200000#64).run
        (final (mapLarge.run emptyTree))) = some (.message "Page overwrapping at pdte") := by decide +kernel
  obtain ⟨w2, hflush⟩ := exists_of_panicked hflush
  exact ⟨_, w2, emptyTree_treeInv.tree, eq_final_of_returned hret, hflush⟩

end Liumos.Paging
