/-
The rule for the loops of `CreatePageMapping`. What is to hold in the loop over a table is given by an
invariant, with a ghost value for what the loop knows of the state it was entered in. Three steps have to
keep it: mapping a page, going through an entry into the table below, and going through a PML4 entry. The
rule then says what holds behind the call, and which panics it can end in.
-/
import Liumos.Paging.MappingSteps

namespace Liumos.Paging

open BitVec

/-- The cursor after `k` of `N` pages. -/
def cursorAt (v0 p0 : Word) (N k : Nat) : Cursor := ⟨pageAddr v0 k, pageAddr p0 k, BitVec.ofNat 64 (N - k)⟩

section

variable {σ Γ : Type} {E : Panic → Prop} {allocPages : Word → WM σ Word} {mask root attr v0 p0 : Word} {N : Nat}
  {b : Bool}

/-! ## The cursor -/

/-- The loops stop at the end of the range. -/
theorem numOf4kPages_cursorAt (hN : N < 2 ^ 64) {k : Nat} (hk : k < N) : (cursorAt v0 p0 N k).numOf4kPages ≠ 0#64 := by
  rw [cursorAt, Ne, ← toNat_inj, toNat_ofNat]
  simp only [toNat_ofNat]
  omega

theorem numOf4kPages_cursorAt_end : (cursorAt v0 p0 N N).numOf4kPages = 0#64 := by
  rw [cursorAt, Nat.sub_self]

/-- Advancing the cursor by `n` pages, which are `2 ^ s` bytes. -/
theorem cursorAt_advance (hN : N < 2 ^ 64) {s n k : Nat} (hs : 2 ^ s = 4096 * n) (hk : k + n ≤ N) :
    (⟨(cursorAt v0 p0 N k).vaddr + 1#64 <<< s, (cursorAt v0 p0 N k).paddr + 1#64 <<< s,
      (cursorAt v0 p0 N k).numOf4kPages - BitVec.ofNat 64 n⟩ : Cursor) = cursorAt v0 p0 N (k + n) := by
  have hadd : BitVec.ofNat 64 (4096 * k) + 1#64 <<< s = BitVec.ofNat 64 (4096 * (k + n)) := by
    apply eq_of_toNat_eq
    rw [toNat_add, toNat_ofNat, toNat_ofNat, toNat_shiftLeft, Nat.shiftLeft_eq, hs]
    norm_num
    omega
  have hsub : BitVec.ofNat 64 (N - k) - BitVec.ofNat 64 n = BitVec.ofNat 64 (N - (k + n)) := by
    apply eq_of_toNat_eq
    rw [toNat_sub, toNat_ofNat, toNat_ofNat, toNat_ofNat]
    omega
  simp only [cursorAt, pageAddr, Cursor.mk.injEq]
  exact ⟨by rw [BitVec.add_assoc, hadd], by rw [BitVec.add_assoc, hadd], hsub⟩

/-- When the PDT loop maps a 2MB page, the page fits and begins where the cursor stands. -/
theorem of_canMap2MB {k : Nat} (hk : k < N) (hcan : canMap2MB (cursorAt v0 p0 N k) = true) :
    k + 512 ≤ N ∧ pos v0 k % 2 ^ kIndexShift 1 = 0 := by
  simp only [canMap2MB, Bool.and_eq_true, decide_eq_true_eq, beq_iff_eq] at hcan
  obtain ⟨⟨hnum, hv⟩, -⟩ := hcan
  simp only [cursorAt, toNat_ofNat] at hnum
  rw [kOffsetMask_eq (by omega), ← toNat_inj, toNat_and_lowMask _ (by unfold kIndexShift; omega), cursorAt,
    toNat_pageAddr] at hv
  simp only [kIndexShift, toNat_ofNat] at hv ⊢
  omega

/-! ## Going through an entry -/

/-- The panic at an entry of level `l` that maps a page. -/
def overwrapping (l : Nat) : Panic :=
  .message (if l = 2 then "Page overwrapping at pdpte" else "Page overwrapping at pdte")

/-- The ways the primitive steps may panic. -/
structure Tolerates (E : Panic → Prop) (allocPages : Word → WM σ Word) : Prop where
  asserts : ∀ expr, E (.assertFailed expr)
  alloc : ∀ {w e w'}, (allocPages 1#64).run w = .error e w' → E e

theorem error_assert {τ : Type} {c : Bool} {expr : String} {s s' : τ} {e : Panic}
    (h : (assert c expr : KM τ Unit).run s = .error e s') : e = .assertFailed expr := by
  unfold assert at h
  split at h
  · cases h
  · cases h
    rfl

theorem yields_installTable (hE : Tolerates E allocPages) (l a : Nat) (w : World σ) :
    Yields E (installTable allocPages mask attr l a) w fun u w' =>
      (installTable allocPages mask attr l a).run w = .ok u w' := by
  refine yields_self fun e w' h => ?_
  have hy : Yields E (installTable allocPages mask attr l a) w fun _ _ => True := by
    unfold installTable
    refine yields_load_bind ?_
    split
    · trivial
    · refine ((yields_self fun e w' h => hE.alloc h).mono fun n w1 _ => ?_).bind
      refine yields_modify_bind ?_
      refine ((yields_self fun e w' h => ?_).mono fun _ _ _ => trivial).bind
      rw [error_assert h]
      exact hE.asserts _
  exact hy.of_error h

theorem yields_mapPage (hE : Tolerates E allocPages) (l a : Nat) (paddr : Word) (w : World σ) :
    Yields E (mapPage mask attr l a paddr) w fun u w' => (mapPage mask attr l a paddr).run w = .ok u w' := by
  refine yields_self fun e w' h => ?_
  have hy : Yields E (mapPage mask attr l a paddr) w fun _ _ => True := by
    unfold mapPage
    refine ((yields_self fun e w' h => ?_).mono fun _ _ _ => trivial).bind
    rw [error_assert h]
    exact hE.asserts _
  exact hy.of_error h

theorem yields_clflushIf (a : Nat) (w : World σ) : Yields E (clflushIf b a) w fun _ w' => SameLoads w w' := by
  refine (yields_self fun e w' h => ?_).mono fun _ _ h => run_clflushIf_ok h
  unfold clflushIf at h
  split at h <;> cases h

theorem yields_updateAttr (a : Nat) (w : World σ) :
    Yields E (updateAttr attr a) w fun u w' => (updateAttr attr a).run w = .ok u w' :=
  yields_self fun e w' h => by cases h

/-! ## The loops -/

/-- `Inv D t k0 γ w k`: the loop over the table `t` at depth `D`, entered on page `k0` with the ghost value `γ`, stands
at page `k` in the state `w`. -/
structure MapRule (E : Panic → Prop) (allocPages : Word → WM σ Word) (mask attr v0 p0 : Word) (N : Nat)
    (Inv : Nat → Word → Nat → Γ → World σ → Nat → Prop) : Prop where
  tolerates : Tolerates E allocPages
  le : ∀ {D t k0 γ w k}, Inv D t k0 γ w k → k ≤ N
  page : ∀ {D t k0 γ w w1 w2 k u}, 2 ≤ D → D ≤ 3 → Inv D t k0 γ w k → span v0 (3 - D) k = span v0 (3 - D) k0 →
    k + 512 ^ (3 - D) ≤ N → pos v0 k % 2 ^ kIndexShift (3 - D) = 0 →
    child mask (3 - D) (w.mem.load (entryAt D t (pageAddr v0 k))) = none →
    (mapPage mask attr (3 - D) (entryAt D t (pageAddr v0 k)) (pageAddr p0 k)).run w = .ok u w1 → SameLoads w1 w2 →
    Inv D t k0 γ w2 (k + 512 ^ (3 - D))
  enter : ∀ {D t k0 γ w w' k}, 1 ≤ D → D ≤ 2 → Inv D t k0 γ w k → k < N → span v0 (3 - D) k = span v0 (3 - D) k0 →
    Through allocPages mask attr (3 - D) (entryAt D t (pageAddr v0 k)) w w' →
    isPage (3 - D) (w'.mem.load (entryAt D t (pageAddr v0 k))) = false →
    ∃ γ', Inv (D + 1) (getTableAddr mask (3 - D) (w'.mem.load (entryAt D t (pageAddr v0 k)))) k γ' w' k ∧
      ∀ w'' k', Inv (D + 1) (getTableAddr mask (3 - D) (w'.mem.load (entryAt D t (pageAddr v0 k)))) k γ' w'' k' →
        Inv D t k0 γ w'' k'
  overwrap : ∀ {D t k0 γ w w' k}, 1 ≤ D → D ≤ 2 → Inv D t k0 γ w k → k < N → span v0 (3 - D) k = span v0 (3 - D) k0 →
    Through allocPages mask attr (3 - D) (entryAt D t (pageAddr v0 k)) w w' →
    isPage (3 - D) (w'.mem.load (entryAt D t (pageAddr v0 k))) = true → E (overwrapping (3 - D))

variable {Inv : Nat → Word → Nat → Γ → World σ → Nat → Prop} {t : Word} {k0 : Nat} {γ : Γ}

section

variable (hR : MapRule E allocPages mask attr v0 p0 N Inv) (hN : N < 2 ^ 64) (hv : v0.toNat % 4096 = 0)

include hR hN hv

theorem MapRule.pt :
    RangeLoop (yielding E) v0 N (cursorAt v0 p0 N) (Inv 3 t k0 γ) 0 (span v0 0 k0) (mapPt mask attr b t) := by
  refine ⟨hR.le, fun c => rfl, fun n => by rw [mapPt, if_pos numOf4kPages_cursorAt_end], ?_⟩
  intro n w k Q h hk hsp hcont
  rw [mapPt, if_neg (numOf4kPages_cursorAt hN hk)]
  have hva : pos v0 k % 2 ^ kIndexShift 0 = 0 := by
    simp only [kIndexShift, pos]
    omega
  refine ((yields_mapPage hR.tolerates _ _ _ w).mono fun _ w1 hmap => ?_).bind
  refine ((yields_clflushIf _ w1).mono fun _ w2 hs => ?_).bind
  have h₂ := hR.page (by omega) (le_refl 3) h hsp hk hva (child_none_of_page (isPage_zero _)) hmap hs
  rw [cursorAt_advance hN (by norm_num) hk]
  exact hcont (k + 1) w2 h₂ (.of_page (by norm_num [kIndexShift]) hva)

theorem MapRule.pdt :
    RangeLoop (yielding E) v0 N (cursorAt v0 p0 N) (Inv 2 t k0 γ) 1 (span v0 1 k0)
      (mapPdt allocPages mask attr b t) := by
  refine ⟨hR.le, fun c => rfl, fun n => by rw [mapPdt, if_pos numOf4kPages_cursorAt_end], ?_⟩
  intro n w k Q h hk hsp hcont
  rw [mapPdt, if_neg (numOf4kPages_cursorAt hN hk)]
  refine yields_load_bind ?_
  split
  · -- a page of 2 MB at an entry that is not present
    rename_i h2
    simp only [Bool.and_eq_true, Bool.not_eq_true'] at h2
    obtain ⟨hk2, hva⟩ := of_canMap2MB hk h2.2
    refine ((yields_mapPage hR.tolerates _ _ _ w).mono fun _ w1 hmap => ?_).bind
    refine ((yields_clflushIf _ w1).mono fun _ w2 hs => ?_).bind
    have h₂ := hR.page (le_refl 2) (by omega) h hsp hk2 hva (child_none_of_not_present h2.1) hmap hs
    rw [cursorAt_advance hN (by norm_num) hk2]
    exact hcont (k + 512) w2 h₂ (.of_page (by norm_num [kIndexShift]) hva)
  · -- a table below the entry, which is written back before its attributes are set
    refine ((yields_installTable hR.tolerates _ _ w).mono fun _ w1 hinst => ?_).bind
    refine ((yields_clflushIf _ w1).mono fun _ w2 hs => ?_).bind
    refine ((yields_updateAttr _ w2).mono fun _ w3 hattr => ?_).bind
    have hthrough : Through allocPages mask attr 1 (entryAddr 1 t (pageAddr v0 k)) w w3 :=
      ⟨_, _, w1, w2, w3, hinst, hs, hattr, .refl w3⟩
    refine yields_load_bind ?_
    split
    · rename_i hpage
      exact hR.overwrap (by omega) (le_refl 2) h hk hsp hthrough hpage
    · rename_i hpage
      simp only [Bool.not_eq_true] at hpage
      obtain ⟨γ', h3, hleave⟩ := hR.enter (by omega) (le_refl 2) h hk hsp hthrough hpage
      exact .bind ((hR.pt hN hv).below (by omega) h3 fun k1 w4 h4 hr => hcont k1 w4 (hleave w4 k1 h4) hr)

theorem MapRule.pdpt :
    RangeLoop (yielding E) v0 N (cursorAt v0 p0 N) (Inv 1 t k0 γ) 2 (span v0 2 k0)
      (mapPdpt allocPages mask attr b t) := by
  refine ⟨hR.le, fun c => rfl, fun n => by rw [mapPdpt, if_pos numOf4kPages_cursorAt_end], ?_⟩
  intro n w k Q h hk hsp hcont
  rw [mapPdpt, if_neg (numOf4kPages_cursorAt hN hk)]
  refine ((yields_installTable hR.tolerates _ _ w).mono fun _ w1 hinst => ?_).bind
  refine ((yields_updateAttr _ w1).mono fun _ w2 hattr => ?_).bind
  refine ((yields_clflushIf _ w2).mono fun _ w3 hs => ?_).bind
  have hthrough : Through allocPages mask attr 2 (entryAddr 2 t (pageAddr v0 k)) w w3 :=
    ⟨_, _, w1, w1, w2, hinst, .refl w1, hattr, hs⟩
  refine yields_load_bind ?_
  split
  · rename_i hpage
    exact hR.overwrap (le_refl 1) (by omega) h hk hsp hthrough hpage
  · rename_i hpage
    simp only [Bool.not_eq_true] at hpage
    obtain ⟨γ', h3, hleave⟩ := hR.enter (le_refl 1) (by omega) h hk hsp hthrough hpage
    exact .bind ((hR.pdt hN hv).below (by omega) h3 fun k1 w4 h4 hr => hcont k1 w4 (hleave w4 k1 h4) hr)

end

/-- `Outer n w k`: the PML4 loop stands at page `k` with `n` entries left. -/
structure OuterRule (E : Panic → Prop) (allocPages : Word → WM σ Word) (mask root attr v0 p0 : Word) (N : Nat)
    (Inv : Nat → Word → Nat → Γ → World σ → Nat → Prop) (Outer : Nat → World σ → Nat → Prop) : Prop
    extends MapRule E allocPages mask attr v0 p0 N Inv where
  round : ∀ {n w w' k}, Outer (n + 1) w k → Through allocPages mask attr 3 (entryAddr 3 root (pageAddr v0 k)) w w' →
    ∃ γ, Inv 1 (getTableAddr mask 3 (w'.mem.load (entryAddr 3 root (pageAddr v0 k)))) k γ w' k ∧
      ∀ w'' k', Inv 1 (getTableAddr mask 3 (w'.mem.load (entryAddr 3 root (pageAddr v0 k)))) k γ w'' k' →
        Reached v0 N 3 1 k k' → Outer n w'' k'

variable {Outer : Nat → World σ → Nat → Prop}

theorem OuterRule.pml4 (hR : OuterRule E allocPages mask root attr v0 p0 N Inv Outer) (hN : N < 2 ^ 64)
    (hv : v0.toNat % 4096 = 0) : ∀ (n : Nat) {w : World σ} {k : Nat}, Outer n w k →
      Yields E (mapPml4 allocPages mask attr b root n (cursorAt v0 p0 N k)) w fun _ w' => ∃ k', Outer 0 w' k'
  | 0, _, k, h => ⟨k, h⟩
  | n + 1, w, k, h => by
    rw [mapPml4]
    refine ((yields_installTable hR.tolerates _ _ w).mono fun _ w1 hinst => ?_).bind
    refine ((yields_updateAttr _ w1).mono fun _ w2 hattr => ?_).bind
    refine ((yields_clflushIf _ w2).mono fun _ w3 hs => ?_).bind
    obtain ⟨γ, h3, hleave⟩ := hR.round h ⟨_, _, w1, w1, w2, hinst, .refl w1, hattr, hs⟩
    refine yields_load_bind ?_
    exact .bind ((hR.pdpt hN hv).below (le_refl 2) h3 fun k1 w4 h4 hr => hR.pml4 hN hv n (hleave w4 k1 h4 hr))

/-- The rule for the whole call. -/
theorem OuterRule.createPageMapping {byteSize : Word} (hR : OuterRule E allocPages mask root attr v0 p0
      (pageCount byteSize) Inv Outer) {w : World σ} (h : Outer (kNumOfEntries - addr2index 3 v0) w 0) :
    Yields E (Paging.createPageMapping allocPages mask attr b root v0 p0 byteSize) w
      fun _ w' => ∃ k', v0.toNat % 4096 = 0 ∧ Outer 0 w' k' := by
  unfold Paging.createPageMapping
  have hassert : ∀ {c : Bool} {expr : String}, Yields E (assert c expr : WM σ Unit) w
      fun u w' => (assert c expr : WM σ Unit).run w = .ok u w' := by
    intro c expr
    refine yields_self fun e w' h => ?_
    rw [error_assert h]
    exact hR.tolerates.asserts _
  refine (hassert.mono fun _ w' hrun => ?_).bind
  obtain ⟨hv, rfl⟩ := run_assert_ok hrun
  clear hrun
  refine (hassert.mono fun _ w' hrun => ?_).bind
  obtain ⟨-, rfl⟩ := run_assert_ok hrun
  rw [beq_kPageAddrMask_iff] at hv
  have hcur : (⟨v0, p0, byteSizeToPageSize byteSize⟩ : Cursor) = cursorAt v0 p0 (pageCount byteSize) 0 := by
    simp [cursorAt, pageAddr]
  rw [hcur]
  refine ((hR.pml4 (byteSizeToPageSize byteSize).isLt hv _ h).mono fun _ w' h' => ?_).bind
  obtain ⟨k', h'⟩ := h'
  exact ⟨k', hv, h'⟩

end

end Liumos.Paging
