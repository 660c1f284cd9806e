/-
`CreatePageMapping` is correct: on a well-formed tree, when the call returns, every address of the
range translates to the physical range in order and every other address translates as before.

In every state of the call `k` pages are done, and the translation is the old one overridden on these `k` pages.
-/
import Liumos.Paging.PageRule

namespace Liumos.Paging

open BitVec
open WriteBack.Memory (ofInit)

/-! ## The range -/

/-- A page-aligned range of `N` pages whose virtual side stays inside the 48-bit index space and whose
physical side stays inside the `bits` low bits that `GetPhysAddrMask` keeps. -/
structure RangeOk (mask v0 p0 : Word) (N : Nat) : Prop where
  vAligned : v0.toNat % 4096 = 0
  pAligned : p0.toNat % 4096 = 0
  virt : v0.toNat % 2 ^ 48 + 4096 * N ≤ 2 ^ 48
  phys : ∃ bits ≤ 64, mask = lowMask bits ∧ p0.toNat + 4096 * N ≤ 2 ^ bits

section

variable {mask v0 p0 : Word} {N : Nat}

variable {k l : Nat}

theorem toNat_phys (h : RangeOk mask v0 p0 N) (hk : k < N) : (pageAddr p0 k).toNat = p0.toNat + 4096 * k := by
  obtain ⟨bits, hb, -, hp⟩ := h.phys
  have : 2 ^ bits ≤ 2 ^ 64 := Nat.pow_le_pow_right (by norm_num) hb
  rw [toNat_pageAddr, pos]
  omega

theorem phys_within_mask (h : RangeOk mask v0 p0 N) (hk : k < N) : pageAddr p0 k &&& ~~~mask = 0#64 := by
  obtain ⟨bits, hb, rfl, hp⟩ := h.phys
  have hlt : (pageAddr p0 k).toNat < 2 ^ bits := by rw [toNat_phys h hk]; omega
  rw [and_not_eq_zero_iff]
  intro i hi
  have hi64 : i < 64 := lt_of_getLsbD hi
  rw [getLsbD_lowMask]
  simp only [hi64, decide_true, Bool.true_and, decide_eq_true_eq]
  by_contra hge
  have hpow : 2 ^ bits ≤ 2 ^ i := Nat.pow_le_pow_right (by norm_num) (by omega)
  have : Nat.testBit (pageAddr p0 k).toNat i = false := Nat.testBit_lt_two_pow (by omega)
  rw [getLsbD, this] at hi
  cases hi

/-- The translation of an address of a page of level `l` that begins where the cursor stands. -/
theorem page_value (h : RangeOk mask v0 p0 N) (hl : l ≤ 1) (hk : k + 512 ^ l ≤ N) {va : Word}
    (hva : pos v0 k % 2 ^ kIndexShift l = 0) (hpa : (p0.toNat + 4096 * k) % 2 ^ kIndexShift l = 0)
    (h1 : 4096 * k ≤ offset v0 va) (h2 : offset v0 va < 4096 * (k + 512 ^ l)) :
    pageAddr p0 k ||| (va &&& kOffsetMask l) = p0 + BitVec.ofNat 64 (offset v0 va) := by
  have hp := toNat_phys h (by omega : k < N)
  have hoff : va.toNat % 2 ^ kIndexShift l = offset v0 va - 4096 * k := by
    unfold offset at h1 h2 ⊢
    unfold pos at hva
    unfold kIndexShift at hva ⊢
    interval_cases l <;> norm_num at hva h1 h2 ⊢ <;> omega
  rw [kOffsetMask_eq (by omega), or_offset_eq (x := p0.toNat + offset v0 va) (by unfold kIndexShift; omega)
    (by rw [hp]; exact hpa) (by omega)]
  apply eq_of_toNat_eq
  simp [toNat_add]

end

/-! ## The invariant of the loops -/

/-- The translation `old` overridden on the first `k` pages of the range. -/
def overridden (v0 p0 : Word) (k : Nat) (old : Word → Word) (va : Word) : Word :=
  if offset v0 va < 4096 * k then p0 + BitVec.ofNat 64 (offset v0 va) else old va

section

variable {σ : Type} {A : Pool σ} {allocPages : Word → WM σ Word} [hA : AllocOk allocPages A]
  {mask root attr v0 p0 : Word} {N : Nat} {old : Word → Word}

/-- The state of the loops after `k` pages. -/
structure MapInv (A : Pool σ) (mask root v0 p0 : Word) (N : Nat)
    (old : Word → Word) (w : World σ) (k : Nat) : Prop where
  inv : TreeInv A mask root w
  le : k ≤ N
  trans : ∀ va, v2p mask w.mem 3 root va = overridden v0 p0 k old va

/-- Every step keeps the translation, but for a page that is mapped. -/
theorem spec_pageRule (ha : AttrOk attr) (hR : RangeOk mask v0 p0 N) :
    PageRule A allocPages mask root attr v0 p0 N fun _ w k => ∀ va, v2p mask w.mem 3 root va = overridden v0 p0 k old va
      where
  page := by
    intro _ d t w w' k u hst hd2 hd hk hvirt hva hnone hrun h va
    have hpos : 0 < 512 ^ (3 - d) := Nat.pow_pos (by norm_num)
    have hl : 3 - d ≤ 1 := by omega
    obtain ⟨-, -, hcan, hin, hout⟩ := mapPage_spec ha hst.inv (by omega) hd hst.table hnone
      (phys_within_mask hR (by omega)) hrun
    have hpa : (p0.toNat + 4096 * k) % 2 ^ kIndexShift (3 - d) = 0 := by
      rw [canHoldPage, kOffsetMask_eq (by omega), beq_iff_eq, ← toNat_inj,
        toNat_and_lowMask _ (by unfold kIndexShift; omega), toNat_phys hR (by omega)] at hcan
      exact hcan
    have hiff := path_eq_iff hl hvirt hva va
    rw [show 4 - (3 - d) = d + 1 by omega] at hiff
    by_cases hp : path (d + 1) va = path (d + 1) (pageAddr v0 k)
    · obtain ⟨h1, h2⟩ := hiff.1 hp
      rw [hin va hp, overridden, if_pos h2]
      exact page_value hR hl hk hva hpa h1 h2
    · rw [hout va hp, h va]
      unfold overridden
      by_cases hlt : offset v0 va < 4096 * k
      · rw [if_pos hlt, if_pos (by omega)]
      · rw [if_neg hlt, if_neg (by omega)]
  through hst _ he h va := ((enter_table ha hst.inv he).1.trans va).trans (h va)
  same hw _ hs h va := ((hw.of_same_loads hs).trans va).trans (h va)

end

/-! ## An allocator and a tree to start from -/

/-- An allocator that hands out the pages of a list. -/
def allocFromList (_ : Word) : WM (List Word) Word := do
  let w ← get
  match w.alloc with
  | [] => throw (.message "Cannot allocate pages")
  | p :: ps => do set { w with alloc := ps }; return p

theorem run_allocFromList_ok {n p : Word} {w w' : World (List Word)} (h : (allocFromList n).run w = .ok p w') :
    w.alloc = p :: w'.alloc ∧ w'.mem = w.mem := by
  obtain ⟨_, ps⟩ := w
  cases ps with
  | nil => cases h
  | cons q qs => cases h; exact ⟨rfl, rfl⟩

/-- The list has different pages, which are the allocator's. -/
def pageList : Pool (List Word) where
  Ok w := w.alloc.Nodup ∧ ∀ p ∈ w.alloc, p.toNat % 4096 = 0
  has w q := ∃ p ∈ w.alloc, p.toNat = q

instance : AllocOk allocFromList pageList where
  inv := by
    rintro w w' p ⟨hnd, hal⟩ h
    obtain ⟨hw, -⟩ := run_allocFromList_ok h
    rw [hw] at hnd hal
    exact ⟨hnd.of_cons, fun q hq => hal q (List.mem_cons_of_mem p hq)⟩
  page := by
    rintro w w' p ⟨-, hal⟩ h
    obtain ⟨hw, -⟩ := run_allocFromList_ok h
    have hp : p ∈ w.alloc := by rw [hw]; exact List.mem_cons_self
    exact ⟨hal p hp, p, hp, rfl⟩
  shrinks := by
    rintro w w' p ⟨hnd, -⟩ h q ⟨p', hp', rfl⟩
    obtain ⟨hw, -⟩ := run_allocFromList_ok h
    rw [hw] at hnd
    refine ⟨⟨p', hw ▸ List.mem_cons_of_mem p hp', rfl⟩, fun he => ?_⟩
    rw [eq_of_toNat_eq he] at hp'
    exact (List.nodup_cons.1 hnd).1 hp'
  writes := by
    rintro w w' p - h a -
    rw [(run_allocFromList_ok h).2]
  frame := by
    rintro w m hI -
    exact ⟨hI, fun q hq => hq⟩

variable {mask root : Word}

/-- Below an absent PML4 entry there is no table. -/
theorem tableAt_absent {m : Mem} {va : Word} (h : isPresent (m.load (entryAddr 3 root va)) = false) (d : Nat) :
    tableAt mask m root va (d + 1) = none := by
  induction d with
  | zero => exact child_none_of_not_present h
  | succ d ih => rw [tableAt, ih]; rfl

/-- The empty tree has no table but its root. -/
theorem tableAt_empty (va : Word) (d : Nat) : tableAt mask (ofInit fun _ => 0#64) root va (d + 1) = none :=
  tableAt_absent (by simp [isPresent]) d

theorem treeOk_empty (hroot : root.toNat % 4096 = 0) : TreeOk mask (ofInit fun _ => 0#64) root := by
  refine ⟨hroot, ?_, fun _ _ _ => rfl⟩
  rintro (_ | _) (_ | _) _ _ _ - - h h'
  · exact ⟨rfl, by rw [path_zero, path_zero]⟩
  · rw [tableAt_empty] at h'; cases h'
  · rw [tableAt_empty] at h; cases h
  · rw [tableAt_empty] at h; cases h

/-- Pages apart from the root of an empty tree. -/
theorem treeInv_empty {ps : List Word} (hroot : root.toNat % 4096 = 0) (hnd : ps.Nodup)
    (hal : ∀ p ∈ ps, p.toNat % 4096 = 0) (hne : ∀ p ∈ ps, p.toNat ≠ root.toNat) :
    TreeInv pageList mask root ⟨ofInit fun _ => 0#64, ps⟩ := by
  refine ⟨treeOk_empty hroot, ⟨hnd, hal⟩, ?_⟩
  rintro va (_ | d) t - ht ⟨p, hp, he⟩
  · cases ht
    exact hne p hp he
  · rw [tableAt_empty] at ht
    cases ht

/-! ## The whole call -/

section

variable {σ : Type} {A : Pool σ} {allocPages : Word → WM σ Word} [hA : AllocOk allocPages A]

variable {mask root v0 p0 va : Word} {N : Nat} {w : World σ} {old : Word → Word}

/-- When the call returns, all pages of the range are done. -/
theorem mapInv_createPageMapping {attr vaddr paddr byteSize : Word} {shouldClflush : Bool}
    {w' : World σ} (h : TreeInv A mask root w) (hattr : AttrOk attr) (hN : N = (byteSize.toNat + 4095) / 4096)
    (hR : RangeOk mask vaddr paddr N)
    (hrun : (createPageMapping allocPages mask attr shouldClflush root vaddr paddr byteSize).run w = .ok () w') :
    MapInv A mask root vaddr paddr N (v2p mask w.mem 3 root) w' N := by
  have hvirt := hR.virt
  have hsize : pageCount byteSize = N := by
    rw [pageCount_eq (by omega), hN]
  subst hsize
  obtain ⟨hinv, _, htrans, -⟩ := (spec_pageRule hattr hR).createPageMapping hattr h
    (fun va => (if_neg (Nat.not_lt_zero _)).symm : ∀ va, v2p mask w.mem 3 root va = overridden vaddr paddr 0 _ va) hrun
  have hmapped : mappedPages vaddr (pageCount byteSize) = pageCount byteSize := by
    unfold mappedPages
    omega
  rw [hmapped] at htrans
  exact ⟨hinv, le_refl _, htrans⟩

theorem MapInv.inside (h : MapInv A mask root v0 p0 N old w N) (hN : 4096 * N ≤ 2 ^ 48)
    (hva : (va - v0).toNat < 4096 * N) : v2p mask w.mem 3 root va = p0 + (va - v0) := by
  have hoff : offset v0 va = (va - v0).toNat := Nat.mod_eq_of_lt (by omega)
  rw [h.trans va, overridden, if_pos (by omega), hoff, ofNat_toNat, setWidth_eq]

theorem MapInv.outside (h : MapInv A mask root v0 p0 N old w N) (hva : 4096 * N ≤ offset v0 va) :
    v2p mask w.mem 3 root va = old va := by
  rw [h.trans va, overridden, if_neg (by omega)]

/-- `CreatePageMapping` on a well-formed tree with `N` pages in the rounded range. When it returns, the
range translates to the physical range in order, and any address outside translates as before. Addresses
are compared in the 48 bits the table indices cover. -/
theorem createPageMapping_correct {mask attr root vaddr paddr byteSize : Word} {N : Nat}
    {shouldClflush : Bool} {w w' : World σ} (hw : TreeInv A mask root w) (hattr : AttrOk attr)
    (hN : N = (byteSize.toNat + 4095) / 4096) (hR : RangeOk mask vaddr paddr N)
    (hrun : (createPageMapping allocPages mask attr shouldClflush root vaddr paddr byteSize).run w = .ok () w') :
    (∀ va, (va - vaddr).toNat < 4096 * N → v2p mask w'.mem 3 root va = paddr + (va - vaddr)) ∧
      (∀ va, 4096 * N ≤ offset vaddr va → v2p mask w'.mem 3 root va = v2p mask w.mem 3 root va) := by
  have hvirt := hR.virt
  have h' := mapInv_createPageMapping hw hattr hN hR hrun
  exact ⟨fun va hva => h'.inside (by omega) hva, fun va hva => h'.outside hva⟩

/-- A 2MB page at the top of the address space, mapped into an empty tree. -/
theorem createPageMapping_correct_top :
    ∃ w', (createPageMapping allocFromList (lowMask 36) 3#64 false 0x1000#64 0xFFFFFFFFFFE00000#64 0x200000#64
        0x200000#64).run ⟨WriteBack.Memory.ofInit fun _ => 0#64, [0x2000#64, 0x3000#64]⟩ = .ok () w' ∧
      v2p (lowMask 36) w'.mem 3 0x1000#64 0xFFFFFFFFFFE01234#64 = 0x201234#64 ∧
      v2p (lowMask 36) w'.mem 3 0x1000#64 0x1234#64 = kAddrCannotTranslate := by
  obtain ⟨_, w', hrun⟩ := exists_of_returned (r := (createPageMapping allocFromList (lowMask 36) 3#64 false 0x1000#64
    0xFFFFFFFFFFE00000#64 0x200000#64 0x200000#64).run ⟨ofInit fun _ => 0#64, [0x2000#64, 0x3000#64]⟩)
    (by decide +kernel)
  have h : TreeInv _ (lowMask 36) 0x1000#64 ⟨ofInit fun _ => 0#64, [0x2000#64, 0x3000#64]⟩ :=
    treeInv_empty (by decide) (by decide) (by simp) (by simp)
  obtain ⟨hin, hout⟩ := createPageMapping_correct h
    ⟨by decide, by decide⟩ rfl ⟨by decide, by decide, by decide, 36, by decide, rfl, by decide⟩ hrun
  exact ⟨w', hrun, (hin _ (by decide)).trans (by decide), (hout _ (by decide)).trans (by decide)⟩

end

end Liumos.Paging
