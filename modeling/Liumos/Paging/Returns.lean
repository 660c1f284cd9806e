/-
When `CreatePageMapping` returns: the range was not mapped before, and the allocator has pages for all the
tables that the loops could want. One entry of a table costs one page and what the table below costs.
-/
import Liumos.Paging.MappingRights

namespace Liumos.Paging

open List BitVec

/-- The panics that pages do not help against. -/
def IsOverwrapping (e : Panic) : Prop := ∃ l, e = overwrapping l

/-- `B n w`: in the state `w` the allocator can hand out `n` pages that an entry can point to. Where it
has none its panic is one of its own. -/
structure Supplies {σ : Type} (allocPages : Word → WM σ Word) (mask : Word) (B : Nat → World σ → Prop) : Prop where
  less : ∀ {n n' w}, n ≤ n' → B n' w → B n w
  frame : ∀ {n w} {m : Mem}, B n w → B n { w with mem := m }
  alloc : ∀ {n w}, B (n + 1) w → ∃ p w', (allocPages 1#64).run w = .ok p w' ∧ canHoldTable mask p = true ∧ B n w'
  panics : ∀ {w e w'}, (allocPages 1#64).run w = .error e w' → ¬ IsOverwrapping e

/-- The most tables that are installed through an entry of the PML4. -/
def tablesPerPml4e : Nat := 1 + kNumOfEntries * (1 + kNumOfEntries)

section

variable {σ : Type} {allocPages : Word → WM σ Word} {mask root attr : Word} {b : Bool} {B : Nat → World σ → Prop}

section

variable (hB : Supplies allocPages mask B)

include hB

variable {w : World σ} {n : Nat}

theorem Supplies.installTable (l a : Nat) (h : B (n + 1) w) :
    Yields IsOverwrapping (installTable allocPages mask attr l a) w fun _ w' => B n w' := by
  unfold Paging.installTable
  refine yields_load_bind ?_
  split
  · exact hB.less (Nat.le_succ n) h
  · obtain ⟨p, w1, hrun, hcan, h1⟩ := hB.alloc h
    refine .bind ?_
    unfold Yields
    rw [hrun]
    refine yields_modify_bind ?_
    exact (yields_assert hcan (hB.frame (hB.frame h1))).bind

theorem Supplies.updateAttr (a : Nat) (h : B n w) : Yields IsOverwrapping (updateAttr attr a) w fun _ w' => B n w' :=
  hB.frame h

theorem Supplies.clflushIf (a : Nat) (h : B n w) : Yields IsOverwrapping (clflushIf b a) w fun _ w' => B n w' := by
  unfold Paging.clflushIf
  split
  · exact hB.frame h
  · exact h

theorem Supplies.mapPage {n l : Nat} (a : Nat) {paddr : Word} (h : B n w)
    (hcan : canHoldPage l paddr = true) : Yields IsOverwrapping (mapPage mask attr l a paddr) w fun _ w' => B n w' := by
  unfold Paging.mapPage
  exact (yields_assert hcan (hB.frame h)).bind

theorem Supplies.mapPt (pt : Word) : ∀ (fuel : Nat) {c : Cursor} {w : World σ}, c.paddr.toNat % 4096 = 0 → B n w →
      Yields IsOverwrapping (mapPt mask attr b pt fuel c) w fun c' w' => c'.paddr.toNat % 4096 = 0 ∧ B n w'
  | 0, c, w, hc, h => ⟨hc, h⟩
  | fuel + 1, c, w, hc, h => by
    rw [Paging.mapPt]
    split
    · exact ⟨hc, h⟩
    · have hcan : canHoldPage 0 c.paddr = true := by
        rw [canHoldPage, kOffsetMask_eq (by omega), beq_iff_eq, ← toNat_inj,
          toNat_and_lowMask _ (by unfold kIndexShift; omega)]
        exact hc
      refine ((hB.mapPage _ h hcan).mono fun _ w1 h1 => ?_).bind
      refine ((hB.clflushIf _ h1).mono fun _ w2 h₂ => ?_).bind
      refine Supplies.mapPt pt fuel ?_ h₂
      rw [toNat_add]
      norm_num
      omega

theorem Supplies.mapPdt (pdt : Word) :
    ∀ (fuel : Nat) {c : Cursor} {w : World σ}, c.paddr.toNat % 4096 = 0 → B (n + fuel) w →
      Yields IsOverwrapping (mapPdt allocPages mask attr b pdt fuel c) w fun c' w' => c'.paddr.toNat % 4096 = 0 ∧ B n w'
  | 0, c, w, hc, h => ⟨hc, h⟩
  | fuel + 1, c, w, hc, h => by
    rw [Paging.mapPdt]
    split
    · exact ⟨hc, hB.less (by omega) h⟩
    · refine yields_load_bind ?_
      split
      · rename_i h2
        simp only [Bool.and_eq_true, canMap2MB] at h2
        refine ((hB.mapPage _ h h2.2.2).mono fun _ w1 h1 => ?_).bind
        refine ((hB.clflushIf _ h1).mono fun _ w2 h₂ => ?_).bind
        refine Supplies.mapPdt pdt fuel ?_ (hB.less (by omega) h₂)
        rw [toNat_add]
        norm_num
        omega
      · -- at most one table for each entry
        refine ((hB.installTable (n := n + fuel) _ _ h).mono fun _ w1 h1 => ?_).bind
        refine ((hB.clflushIf _ h1).mono fun _ w2 h₂ => ?_).bind
        refine ((hB.updateAttr _ h₂).mono fun _ w3 h3 => ?_).bind
        refine yields_load_bind ?_
        split
        · exact ⟨1, rfl⟩
        · refine ((hB.mapPt _ _ hc h3).mono fun c' w4 h4 => ?_).bind
          exact Supplies.mapPdt pdt fuel h4.1 h4.2

theorem Supplies.mapPdpt (pdpt : Word) (fuel : Nat) {c : Cursor} (hc : c.paddr.toNat % 4096 = 0)
    (h : B (n + fuel * (1 + kNumOfEntries)) w) :
    Yields IsOverwrapping (mapPdpt allocPages mask attr b pdpt fuel c) w fun c' w' =>
      c'.paddr.toNat % 4096 = 0 ∧ B n w' := by
  induction fuel generalizing c w with
  | zero => exact ⟨hc, hB.less (by omega) h⟩
  | succ fuel ih =>
    rw [Paging.mapPdpt]
    split
    · exact ⟨hc, hB.less (by omega) h⟩
    · have h' : B (n + fuel * (1 + kNumOfEntries) + kNumOfEntries + 1) w := hB.less (by ring_nf; omega) h
      refine ((hB.installTable _ _ h').mono fun _ w1 h1 => ?_).bind
      refine ((hB.updateAttr _ h1).mono fun _ w2 h₂ => ?_).bind
      refine ((hB.clflushIf _ h₂).mono fun _ w3 h3 => ?_).bind
      refine yields_load_bind ?_
      split
      · exact ⟨2, rfl⟩
      · refine ((hB.mapPdt (n := n + fuel * (1 + kNumOfEntries)) _ _ hc (hB.less (by omega) h3)).mono
          fun c' w4 h4 => ?_).bind
        exact ih h4.1 h4.2

theorem Supplies.mapPml4 (pml4 : Word) (fuel : Nat) {c : Cursor}
    (hc : c.paddr.toNat % 4096 = 0) (h : B (n + fuel * tablesPerPml4e) w) :
    Yields IsOverwrapping (mapPml4 allocPages mask attr b pml4 fuel c) w fun _ w' => B n w' := by
  induction fuel generalizing c w with
  | zero => exact hB.less (by omega) h
  | succ fuel ih =>
    rw [Paging.mapPml4]
    have h' : B (n + fuel * tablesPerPml4e + kNumOfEntries * (1 + kNumOfEntries) + 1) w :=
      hB.less (by unfold tablesPerPml4e; ring_nf; omega) h
    refine ((hB.installTable _ _ h').mono fun _ w1 h1 => ?_).bind
    refine ((hB.updateAttr _ h1).mono fun _ w2 h₂ => ?_).bind
    refine ((hB.clflushIf _ h₂).mono fun _ w3 h3 => ?_).bind
    refine yields_load_bind ?_
    refine ((hB.mapPdpt (n := n + fuel * tablesPerPml4e) _ _ hc (hB.less ?_ h3)).mono fun c' w4 h4 => ?_).bind
    · exact Nat.add_le_add_left (Nat.mul_le_mul_right _ (Nat.sub_le _ _)) _
    · exact ih h4.1 h4.2

end

end

section

variable {σ : Type} {A : Pool σ} {allocPages : Word → WM σ Word} [hA : AllocOk allocPages A]
  {mask root attr vaddr paddr byteSize : Word} {b : Bool} {B : Nat → World σ → Prop}

/-- With a range that is not mapped and with enough pages for tables, the call returns. -/
theorem createPageMapping_returns (hB : Supplies allocPages mask B)
    (h : TreeInv A mask root w) (ha : AttrOk attr) (hv : vaddr.toNat % 4096 = 0) (hp : paddr.toNat % 4096 = 0)
    (hfree : ∀ k < pageCount byteSize, leaf mask w.mem 3 root (pageAddr vaddr k) = none)
    (hn : B (n + (kNumOfEntries - addr2index 3 vaddr) * tablesPerPml4e) w) :
    ∃ w', (createPageMapping allocPages mask attr b root vaddr paddr byteSize).run w = .ok () w' ∧ B n w' := by
  have hover : Yields (fun e => ¬ IsOverwrapping e)
      (createPageMapping allocPages mask attr b root vaddr paddr byteSize) w _ :=
    yields_createPageMapping h ha ⟨by rintro expr ⟨l, ⟨⟩⟩, hB.panics⟩ (.inr hfree)
  have hbudget : Yields IsOverwrapping (createPageMapping allocPages mask attr b root vaddr paddr byteSize) w
      fun _ w' => B n w' := by
    unfold createPageMapping
    refine .bind (yields_assert ((beq_kPageAddrMask_iff _).2 hv)
      (.bind (yields_assert ((beq_kPageAddrMask_iff _).2 hp) ?_)))
    exact ((hB.mapPml4 root _ hp hn).mono fun _ _ h' => h').bind
  cases hrun : (createPageMapping allocPages mask attr b root vaddr paddr byteSize).run w with
  | ok u w' => exact ⟨w', rfl, hbudget.of_ok hrun⟩
  | error e w' => exact absurd (hbudget.of_error hrun) (hover.of_error hrun)

end

theorem allocFromList_not_overwrapping {w w' : World (List Word)} {e : Panic} {n : Word}
    (h : (allocFromList n).run w = .error e w') : ¬ IsOverwrapping e := by
  obtain ⟨m, ps⟩ := w
  cases ps with
  | nil =>
    cases h
    rintro ⟨l, hl⟩
    unfold overwrapping at hl
    split at hl <;> simp at hl
  | cons p ps => cases h

/-- A list of pages is a supply. -/
theorem allocFromList_supplies (mask : Word) :
    Supplies allocFromList mask fun n w => n ≤ w.alloc.length ∧ ∀ p ∈ w.alloc, canHoldTable mask p = true where
  panics := allocFromList_not_overwrapping
  less hn h := ⟨hn.trans h.1, h.2⟩
  frame h := h
  alloc := by
    rintro n ⟨m, ps⟩ ⟨hlen, hcan⟩
    cases ps with
    | nil => cases hlen
    | cons p ps =>
      exact ⟨p, ⟨m, ps⟩, rfl, hcan p mem_cons_self, Nat.le_of_succ_le_succ hlen,
        fun q hq => hcan q (mem_cons_of_mem p hq)⟩

theorem canHoldTable_of_lt {bits : Nat} {p : Word} (hp : p.toNat % 4096 = 0) (hlt : p.toNat < 2 ^ bits) :
    canHoldTable (lowMask bits) p = true := by
  rw [canHoldTable, beq_iff_eq, and_not_eq_zero_iff]
  intro i hi
  have h64 : i < 64 := lt_of_getLsbD hi
  have hbit : i < bits := by
    by_contra hge
    have hpow : 2 ^ bits ≤ 2 ^ i := Nat.pow_le_pow_right (by norm_num) (by omega)
    rw [getLsbD, Nat.testBit_lt_two_pow (by omega)] at hi
    cases hi
  have hlow : ¬ i < 12 := by
    intro h12
    have h0 := Nat.testBit_mod_two_pow p.toNat 12 i
    rw [show p.toNat % 2 ^ 12 = 0 from hp, Nat.zero_testBit, ← getLsbD, hi] at h0
    simp [h12] at h0
  rw [getLsbD_and, getLsbD_not, kPageAddrMask_eq, getLsbD_lowMask, getLsbD_lowMask]
  simp [h64, hbit, hlow]

/-- The `n` pages from `p` on. -/
def pagesFrom (p : Word) (n : Nat) : List Word := (List.range n).map (pageAddr p)

section

variable {p q : Word} {n : Nat}

theorem toNat_of_mem_pagesFrom (h : p.toNat + 4096 * n ≤ 2 ^ 64) (hq : q ∈ pagesFrom p n) :
    ∃ i < n, q.toNat = p.toNat + 4096 * i := by
  obtain ⟨i, hi, rfl⟩ := mem_map.1 hq
  have hi' := mem_range.1 hi
  refine ⟨i, hi', ?_⟩
  rw [toNat_pageAddr, pos]
  omega

theorem nodup_pagesFrom (h : p.toNat + 4096 * n ≤ 2 ^ 64) : (pagesFrom p n).Nodup := by
  refine List.Nodup.map_on ?_ nodup_range
  intro i hi j hj he
  have hi' := mem_range.1 hi
  have hj' := mem_range.1 hj
  rw [← toNat_inj, toNat_pageAddr, toNat_pageAddr, pos, pos] at he
  omega

end

end Liumos.Paging
