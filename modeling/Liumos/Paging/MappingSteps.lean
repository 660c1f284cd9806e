/-
The steps of `CreatePageMapping` on a well-formed tree: giving an entry a new table, setting its
attributes and mapping a page each keep the tree well formed, keep every table where it is, and
change no translation but that of the mapped page.
-/
import Liumos.Paging.Loop
import Liumos.Paging.Mapping

namespace Liumos.Paging

open WriteBack.Memory (load_store_self load_store_ne)

variable {σ : Type}

/-! ## The allocator -/

/-- The state of an allocator: the invariant it keeps, and the pages it still has. -/
structure Pool (σ : Type) where
  Ok : World σ → Prop
  has : World σ → Nat → Prop

/-- What `CreatePageMapping` relies on in its allocator: while the invariant holds, a page comes page
aligned out of the allocator's own pages and leaves them, the call writes nowhere else, and stores
outside these pages do not disturb the allocator. -/
class AllocOk (allocPages : outParam (Word → WM σ Word)) (A : Pool σ) : Prop where
  inv : ∀ {w w' : World σ} {p : Word}, A.Ok w → (allocPages 1#64).run w = .ok p w' → A.Ok w'
  page : ∀ {w w' : World σ} {p : Word}, A.Ok w → (allocPages 1#64).run w = .ok p w' →
    p.toNat % 4096 = 0 ∧ A.has w p.toNat
  shrinks : ∀ {w w' : World σ} {p : Word}, A.Ok w → (allocPages 1#64).run w = .ok p w' →
    ∀ q, A.has w' q → A.has w q ∧ q ≠ p.toNat
  writes : ∀ {w w' : World σ} {p : Word}, A.Ok w → (allocPages 1#64).run w = .ok p w' →
    ∀ a, ¬ A.has w (a / 4096 * 4096) → w'.mem.load a = w.mem.load a
  frame : ∀ {w : World σ} {m : Mem}, A.Ok w → (∀ a, A.has w (a / 4096 * 4096) → m.load a = w.mem.load a) →
    A.Ok { w with mem := m } ∧ ∀ q, A.has { w with mem := m } q → A.has w q

/-! ## Runs of the primitive steps -/

variable {w w' : World σ} {u : Unit} {attr : Word} {a : Nat}

theorem run_clearMapping_ok {t : Word} (h : (clearMapping t).run w = .ok u w') :
    w' = { w with mem := zeroPage w.mem t.toNat } := by
  injection h with _ h; exact h.symm

theorem run_updateAttr_ok (h : (updateAttr attr a).run w = .ok u w') :
    w' = { w with mem := w.mem.store a (setAttr (w.mem.load a) attr) } := by
  unfold updateAttr at h
  replace h := of_run_load_bind h
  exact run_store_ok h

theorem run_mapPage_ok {mask paddr : Word} {l : Nat} (h : (mapPage mask attr l a paddr).run w = .ok u w') :
    canHoldPage l paddr = true ∧
      w' = { w with mem := w.mem.store a (setPageBaseAddr mask l (w.mem.load a) paddr attr) } := by
  unfold mapPage at h
  obtain ⟨hcan, h⟩ := of_run_assert_bind h
  replace h := of_run_load_bind h
  exact ⟨hcan, run_store_ok h⟩

/-- Two worlds that only differ in what the cache has written back. -/
def SameLoads (w w' : World σ) : Prop := w'.alloc = w.alloc ∧ ∀ x, w'.mem.load x = w.mem.load x

theorem SameLoads.refl (w : World σ) : SameLoads w w := ⟨rfl, fun _ => rfl⟩

theorem run_clflushIf_ok {b : Bool} (h : (clflushIf b a).run w = .ok u w') : SameLoads w w' := by
  unfold clflushIf at h
  split at h <;> cases h <;> exact ⟨rfl, fun _ => rfl⟩

section

variable {A : Pool σ} {allocPages : Word → WM σ Word} [hA : AllocOk allocPages A]
  {mask root attr : Word}

/-! ## The state between steps -/

/-- Between steps the tree is well formed, the allocator is intact, and owns no page of the tree. -/
structure TreeInv (A : Pool σ) (mask root : Word) (w : World σ) : Prop where
  tree : TreeOk mask w.mem root
  alloc : A.Ok w
  apart : ∀ va d t, d ≤ 3 → tableAt mask w.mem root va d = some t → ¬ A.has w t.toNat

/-- A step that keeps the tree well formed, its tables and every translation. -/
structure Kept (A : Pool σ) (mask root : Word) (w w' : World σ) : Prop where
  inv : TreeInv A mask root w'
  ext : Extends mask root w.mem w'.mem
  trans : ∀ va, v2p mask w'.mem 3 root va = v2p mask w.mem 3 root va

variable {w1 w w' : World σ} {va t n paddr : Word} {d a : Nat} {m : Mem} {u : Unit}

theorem Kept.comp {w2 w3 : World σ} (h : Kept A mask root w1 w2) (h' : Kept A mask root w2 w3) :
    Kept A mask root w1 w3 := ⟨h'.inv, h.ext.trans h'.ext, fun va => (h'.trans va).trans (h.trans va)⟩

theorem TreeInv.entry_not_pool (h : TreeInv A mask root w) (hd : d ≤ 3) (ht : tableAt mask w.mem root va d = some t)
    (ha : A.has w (a / 4096 * 4096)) : a ≠ entryAt d t va := by
  rintro rfl
  rw [entryAddr_mem_page (h.tree.table_aligned ht)] at ha
  exact h.apart va d t hd ht ha

section

variable (h : TreeInv A mask root w)

include hA h

/-- A step that changes memory only at entries of the tree, keeps it well formed and adds no table. -/
theorem TreeInv.of_mem (htree : TreeOk mask m root) (hm : ∀ a, A.has w (a / 4096 * 4096) → m.load a = w.mem.load a)
    (hT : ∀ va d t, d ≤ 3 → tableAt mask m root va d = some t → ¬ A.has w t.toNat) :
    TreeInv A mask root { w with mem := m } := by
  obtain ⟨hI, hp⟩ := hA.frame h.alloc hm
  exact ⟨htree, hI, fun va d t hd ht hpt => hT va d t hd ht (hp _ hpt)⟩

/-- A store that leaves the entry present and keeps its child. -/
theorem TreeInv.of_rewritten (hs : Rewritten mask w.mem m root d va t) : TreeInv A mask root { w with mem := m } ∧
      ∀ va' k, k ≤ 3 → tableAt mask m root va' k = tableAt mask w.mem root va' k := by
  have hT : ∀ va' k, k ≤ 3 → tableAt mask m root va' k = tableAt mask w.mem root va' k :=
    fun va' k hk => h.tree.tableAt_eq_of_child hs va' (by omega)
  refine ⟨h.of_mem (h.tree.of_rewritten hs) (fun a hq => hs.same a (h.entry_not_pool hs.depth hs.table hq)) ?_, hT⟩
  intro va' k t' hk ht'
  rw [hT va' k hk] at ht'
  exact h.apart va' k t' hk ht'

/-- A memory that agrees on the entries of the tree and on the allocator's pages is as good. -/
theorem TreeInv.of_same (hs : ∀ va, SameBelow mask w.mem m root va 0)
    (hm : ∀ a, A.has w (a / 4096 * 4096) → m.load a = w.mem.load a) : Kept A mask root w { w with mem := m } := by
  have hT : ∀ va d, d ≤ 3 → tableAt mask m root va d = tableAt mask w.mem root va d :=
    fun va d hd => (hs va).tables (by omega)
  refine ⟨h.of_mem (h.tree.of_same hs) hm ?_, fun va d t hd ht => (hT va d hd).trans ht, fun va => (hs va).v2p_eq⟩
  intro va d t hd ht
  rw [hT va d hd] at ht
  exact h.apart va d t hd ht

theorem TreeInv.of_same_loads (hs : SameLoads w w') : Kept A mask root w w' := by
  obtain ⟨_, _⟩ := w'
  obtain ⟨rfl, hm⟩ := hs
  exact h.of_same (fun _ _ _ _ _ _ => hm _) fun a _ => hm a

end

/-! ## Installing a table -/

theorem load_cleared_ne (hn : n.toNat % 4096 = 0) (ha : a / 4096 * 4096 ≠ n.toNat) :
    (zeroPage m n.toNat).load a = m.load a := by
  have hk : ∀ i < kNumOfEntries, a ≠ n.toNat + 8 * i := by
    intro i hi he
    simp only [kNumOfEntries] at hi
    exact ha (by omega)
  unfold zeroPage
  generalize kNumOfEntries = k at hk
  exact load_storeWords_ne m _ _ hk

theorem load_cleared (l : Nat) (va : Word) : (zeroPage m n.toNat).load (entryAddr l n va) = 0#64 := by
  have hk : addr2index l va < kNumOfEntries := addr2index_lt l va
  unfold zeroPage entryAddr
  generalize kNumOfEntries = k at hk
  exact load_storeWords m n.toNat _ hk

/-- A page has been drawn from the allocator and cleared. -/
structure Drawn (A : Pool σ) (w w' : World σ) (n : Word) : Prop where
  page : A.has w n.toNat
  shrinks : ∀ q, A.has w' q → A.has w q
  writes : ∀ a, ¬ A.has w (a / 4096 * 4096) → w'.mem.load a = w.mem.load a

theorem drawn_of_alloc (hI : A.Ok w) (halloc : (allocPages 1#64).run w = .ok n w1) :
    Drawn A w { w1 with mem := zeroPage w1.mem n.toNat } n ∧ A.Ok { w1 with mem := zeroPage w1.mem n.toNat } ∧
      ¬ A.has { w1 with mem := zeroPage w1.mem n.toNat } n.toNat := by
  obtain ⟨hn, hpool⟩ := hA.page hI halloc
  have hshrink := hA.shrinks hI halloc
  have hout : ¬ A.has w1 n.toNat := fun hq => (hshrink _ hq).2 rfl
  obtain ⟨hI', hframe⟩ := hA.frame (m := zeroPage w1.mem n.toNat) (hA.inv hI halloc) (by
    intro a ha
    apply load_cleared_ne hn
    rintro he; rw [he] at ha; exact hout ha)
  refine ⟨⟨hpool, fun q hq => (hshrink q (hframe q hq)).1, fun a ha => ?_⟩, hI', fun hq => hout (hframe _ hq)⟩
  rw [load_cleared_ne hn, hA.writes hI halloc a ha]
  rintro he; rw [he] at ha; exact ha hpool

/-- The tree is apart from such a page, and stays as it is. -/
theorem TreeInv.of_drawn (h : TreeInv A mask root w) (hdrawn : Drawn A w w' n) (hI : A.Ok w') :
    TreeInv A mask root w' ∧ (∀ va, SameBelow mask w.mem w'.mem root va 0) ∧
      ∀ va d, d ≤ 3 → tableAt mask w'.mem root va d ≠ some n := by
  have hsame : ∀ va, SameBelow mask w.mem w'.mem root va 0 :=
    h.tree.same_of_pages (fun q => A.has w q) h.apart hdrawn.writes
  have hT : ∀ va d, d ≤ 3 → tableAt mask w'.mem root va d = tableAt mask w.mem root va d :=
    fun va d hd => (hsame va).tables (by omega)
  refine ⟨⟨h.tree.of_same hsame, hI, fun va d t hd ht hq => ?_⟩, hsame, fun va d hd ht => ?_⟩
  · rw [hT va d hd] at ht
    exact h.apart va d t hd ht (hdrawn.shrinks _ hq)
  · rw [hT va d hd] at ht
    exact h.apart va d n hd ht hdrawn.page

/-- What installing a table does: nothing, or it hangs a cleared page of the allocator into the tree. -/
theorem installTable_cases (ha : AttrOk attr) (h : TreeInv A mask root w) (hd : d ≤ 2)
    (ht : tableAt mask w.mem root va d = some t)
    (hrun : (installTable allocPages mask attr (3 - d) (entryAt d t va)).run w = .ok u w') :
    (isPresent (w.mem.load (entryAt d t va)) = true ∧ w' = w) ∨
      ∃ n w2, TreeInv A mask root w2 ∧ (∀ va', SameBelow mask w.mem w2.mem root va' 0) ∧ ¬ A.has w2 n.toNat ∧
        canHoldTable mask n = true ∧
        w' = { w2 with mem := w2.mem.store (entryAt d t va) (setTableAddr (3 - d) n attr) } ∧
        Linked mask w2.mem w'.mem root d va t n ∧ Drawn A w w2 n := by
  unfold installTable at hrun
  replace hrun := of_run_load_bind hrun
  split at hrun
  · rename_i hp
    obtain ⟨-, rfl⟩ := run_pure_ok hrun
    exact .inl ⟨hp, rfl⟩
  · rename_i habs
    simp only [Bool.not_eq_true] at habs
    obtain ⟨n, _, halloc, hrun⟩ := run_bind_ok hrun
    obtain ⟨_, _, hclear, hrun⟩ := run_bind_ok hrun
    obtain ⟨hcan, hrun⟩ := of_run_assert_bind hrun
    obtain rfl := run_clearMapping_ok hclear
    obtain rfl := run_store_ok hrun
    obtain ⟨hdrawn, hI, hout⟩ := drawn_of_alloc h.alloc halloc
    obtain ⟨h2, hsame, hfresh⟩ := h.of_drawn hdrawn hI
    have hn := (hA.page h.alloc halloc).1
    have hl3 : 3 - d ≤ 3 := by omega
    refine .inr ⟨n, _, h2, hsame, hout, hcan, rfl, ⟨hd, ((hsame va).tables (by omega)).trans ht, ?_, hfresh, hn,
      fun l va' => load_cleared l va', ?_, ?_⟩, hdrawn⟩
    · rw [hsame va d t (Nat.zero_le _) (by omega) ht]; exact habs
    · intro a hne; exact load_store_ne _ _ hne
    · rw [load_store_self, child_of ((isPresent_setTableAddr hcan).trans ha.present)
        (isPage_setTableAddr (by omega) hl3 n attr), getTableAddr_setTableAddr (by omega) hl3 hcan ha.within]

include hA in
/-- Hanging in a page that the allocator no longer owns. -/
theorem TreeInv.of_linked (h : TreeInv A mask root w)
    (hL : Linked mask w.mem m root d va t n) (hout : ¬ A.has w n.toNat) : TreeInv A mask root { w with mem := m } := by
  have hd := hL.depth
  refine h.of_mem (hL.treeOk h.tree) ?_ ?_
  · intro a hq
    exact hL.same a (h.entry_not_pool (by omega) hL.table hq)
  · intro va' k t' hk ht'
    rcases (hL.tableAt_iff h.tree hk).1 ht' with ht' | ⟨-, -, rfl⟩
    · exact h.apart va' k t' hk ht'
    · exact hout

/-- After installing a table the entry is present, and nothing else is to be seen. -/
theorem installTable_spec (ha : AttrOk attr) (h : TreeInv A mask root w) (hd : d ≤ 2)
    (ht : tableAt mask w.mem root va d = some t)
    (hrun : (installTable allocPages mask attr (3 - d) (entryAt d t va)).run w = .ok u w') :
    Kept A mask root w w' ∧ isPresent (w'.mem.load (entryAt d t va)) = true := by
  rcases installTable_cases ha h hd ht hrun with ⟨hp, rfl⟩ | ⟨_, _, h2, hsame, hout, -, rfl, hL, -⟩
  · exact ⟨⟨h, Extends.refl _, fun _ => rfl⟩, hp⟩
  · refine ⟨⟨h2.of_linked hL hout, ?_, ?_⟩, (child_some hL.linked).1⟩
    · intro va' k t' hk ht'
      exact (hL.tableAt_iff h2.tree hk).2 (.inl (((hsame va').tables (by omega)).trans ht'))
    · intro va'
      rw [hL.v2p_eq h2.tree]
      exact (hsame va').v2p_eq

/-! ## Setting attributes -/

theorem rewritten_setAttr (ha : AttrOk attr) (hd : d ≤ 3) (ht : tableAt mask m root va d = some t)
    (hpres : isPresent (m.load (entryAt d t va)) = true) (hpage : isPage (3 - d) (m.load (entryAt d t va)) = false) :
    Rewritten mask m (m.store (entryAt d t va) (setAttr (m.load (entryAt d t va)) attr)) root d va t := by
  refine ⟨⟨hd, ht, fun a hne => load_store_ne _ _ hne⟩, ?_, ?_⟩
  · rw [load_store_self, child_setAttr ha (by omega) hpres hpage]
  · rw [load_store_self]
    exact (isPresent_setAttr _ _).trans ha.present

include hA in
/-- Setting the attributes of an entry that leads to a table changes neither tables nor translations. -/
theorem updateAttr_spec (ha : AttrOk attr) (h : TreeInv A mask root w) (hd : d ≤ 2)
    (ht : tableAt mask w.mem root va d = some t) (hpres : isPresent (w.mem.load (entryAt d t va)) = true)
    (hpage : isPage (3 - d) (w.mem.load (entryAt d t va)) = false)
    (hrun : (updateAttr attr (entryAt d t va)).run w = .ok u w') : Kept A mask root w w' := by
  obtain rfl := run_updateAttr_ok hrun
  have hs := rewritten_setAttr ha (by omega) ht hpres hpage
  obtain ⟨hinv, hT⟩ := h.of_rewritten hs
  exact ⟨hinv, fun va' k t' hk ht' => (hT va' k hk).trans ht', h.tree.v2p_of_rewritten hd hs (child_of hpres hpage)⟩

theorem updateAttr_load (h : (updateAttr attr a).run w = .ok u w') : w'.mem.load a = setAttr (w.mem.load a) attr := by
  obtain rfl := run_updateAttr_ok h
  exact load_store_self _ _ _

/-- The entry of level `l` at `a` has been given a table and the attributes, and written back in between or
behind. -/
structure Through (allocPages : Word → WM σ Word) (mask attr : Word) (l a : Nat) (w w' : World σ) : Prop where
  steps : ∃ u u' w1 w1' w2, (installTable allocPages mask attr l a).run w = .ok u w1 ∧ SameLoads w1 w1' ∧
    (updateAttr attr a).run w1' = .ok u' w2 ∧ SameLoads w2 w'

/-- The call has gone through the entry at depth `d` of `va`, in the table `t`, and it is no page. -/
structure Enters (allocPages : Word → WM σ Word) (mask root attr : Word) (d : Nat) (va t : Word) (w w' : World σ) :
    Prop where
  depth : d ≤ 2
  table : tableAt mask w.mem root va d = some t
  through : Through allocPages mask attr (3 - d) (entryAt d t va) w w'
  page : isPage (3 - d) (w'.mem.load (entryAt d t va)) = false

section

variable (ha : AttrOk attr) (h : TreeInv A mask root w) (he : Enters allocPages mask root attr d va t w w')

include ha h he

/-- An entry that is no page in the end leads to a table when its attributes are set. -/
theorem before_updateAttr : ∃ u u' w1 w1' w2,
      (installTable allocPages mask attr (3 - d) (entryAt d t va)).run w = .ok u w1 ∧ SameLoads w1 w1' ∧
      (updateAttr attr (entryAt d t va)).run w1' = .ok u' w2 ∧ SameLoads w2 w' ∧
      Kept A mask root w w1' ∧ tableAt mask w1'.mem root va d = some t ∧
      isPresent (w1'.mem.load (entryAt d t va)) = true ∧
      isPage (3 - d) (w1'.mem.load (entryAt d t va)) = false := by
  obtain ⟨hd, ht, ⟨u, u', w1, w1', w2, hinst, hs1, hattr, hs2⟩, hpage⟩ := he
  obtain ⟨k1, hpres⟩ := installTable_spec ha h hd ht hinst
  have k1' := k1.comp (k1.inv.of_same_loads hs1)
  rw [← hs1.2] at hpres
  rw [hs2.2, updateAttr_load hattr, isPage_setAttr (by omega)] at hpage
  exact ⟨u, u', w1, w1', w2, hinst, hs1, hattr, hs2, k1', k1'.ext va d t (by omega) ht, hpres, hpage⟩

/-- The steps into the table below an entry. -/
theorem enter_table : Kept A mask root w w' ∧
      tableAt mask w'.mem root va (d + 1) = some (getTableAddr mask (3 - d) (w'.mem.load (entryAt d t va))) := by
  obtain ⟨_, _, _, _, _, -, -, hattr, hs2, k1, ht1, hpres, hpage1⟩ := before_updateAttr ha h he
  have k2 := updateAttr_spec ha k1.inv he.depth ht1 hpres hpage1 hattr
  have k3 := (k1.comp k2).comp (k2.inv.of_same_loads hs2)
  refine ⟨k3, ?_⟩
  rw [tableAt_succ (k3.ext va d t (he.depth.trans (by omega)) he.table)]
  refine child_of ?_ he.page
  rw [hs2.2, updateAttr_load hattr]
  exact (isPresent_setAttr _ _).trans ha.present

end

/-! ## Mapping a page -/

theorem rewritten_setPageBaseAddr (paddr : Word) (ha : AttrOk attr) (hd1 : 1 ≤ d) (hd : d ≤ 3)
    (ht : tableAt mask m root va d = some t) (hnone : child mask (3 - d) (m.load (entryAt d t va)) = none) :
    Rewritten mask m (m.store (entryAt d t va)
      (setPageBaseAddr mask (3 - d) (m.load (entryAt d t va)) paddr attr)) root d va t := by
  refine ⟨⟨hd, ht, fun a hne => load_store_ne _ _ hne⟩, ?_, ?_⟩
  · rw [load_store_self, hnone, child_none_of_page (isPage_setPageBaseAddr (by omega) _ _ _)]
  · rw [load_store_self]
    exact (isPresent_setPageBaseAddr (by omega)).trans ha.present

section

variable (ha : AttrOk attr) (h : TreeInv A mask root w) (hd1 : 1 ≤ d) (hd : d ≤ 3)
  (ht : tableAt mask w.mem root va d = some t) (hnone : child mask (3 - d) (w.mem.load (entryAt d t va)) = none)

include hA ha h hd1 hd ht hnone

/-- Mapping a page at an entry that leads to no table changes that entry alone. -/
theorem mapPage_frame (hrun : (mapPage mask attr (3 - d) (entryAt d t va) paddr).run w = .ok u w') :
    TreeInv A mask root w' ∧ (∀ va' k, k ≤ 3 → tableAt mask w'.mem root va' k = tableAt mask w.mem root va' k) ∧
      canHoldPage (3 - d) paddr = true ∧ Stored mask w.mem w'.mem root d va t ∧
      w'.mem.load (entryAt d t va) = setPageBaseAddr mask (3 - d) (w.mem.load (entryAt d t va)) paddr attr := by
  obtain ⟨hcan, rfl⟩ := run_mapPage_ok hrun
  have hs := rewritten_setPageBaseAddr paddr ha hd1 hd ht hnone
  obtain ⟨hinv, hT⟩ := h.of_rewritten hs
  exact ⟨hinv, hT, hcan, hs.toStored, load_store_self _ _ _⟩

/-- Mapping a page at an entry that leads to no table: the tables stay, and the translation changes
for the addresses through the entry only, which now fall into the page. -/
theorem mapPage_spec (hm : paddr &&& ~~~mask = 0#64)
    (hrun : (mapPage mask attr (3 - d) (entryAt d t va) paddr).run w = .ok u w') :
    TreeInv A mask root w' ∧ Extends mask root w.mem w'.mem ∧ canHoldPage (3 - d) paddr = true ∧
      (∀ va', path (d + 1) va' = path (d + 1) va →
        v2p mask w'.mem 3 root va' = paddr ||| (va' &&& kOffsetMask (3 - d))) ∧
      (∀ va', path (d + 1) va' ≠ path (d + 1) va → v2p mask w'.mem 3 root va' = v2p mask w.mem 3 root va') := by
  obtain ⟨hinv, hT, hcan, hsame, hself⟩ := mapPage_frame ha h hd1 hd ht hnone hrun
  have hl2 : 3 - d ≤ 2 := by omega
  refine ⟨hinv, fun va' k t' hk ht' => (hT va' k hk).trans ht', hcan, ?_,
    fun va' hp => (h.tree.same_of_path_ne hsame hp).v2p_eq⟩
  intro va' hp
  obtain ⟨hp1, hp2⟩ := (path_succ_eq_iff hd va' va).1 hp
  have ht' : tableAt mask w'.mem root va' d = some t := by
    rw [hT va' d hd, tableAt_congr (by omega) hp1]; exact ht
  have hent : entryAt d t va' = entryAt d t va := entryAddr_congr hp2
  rw [v2p_of_page hd ht' (by rw [hent, hself]; exact (isPresent_setPageBaseAddr (by omega)).trans ha.present)
    (by rw [hent, hself]; exact isPage_setPageBaseAddr hl2 _ _ _), hent, hself,
    getPageBaseAddr_setPageBaseAddr hl2 hcan hm ha]

end

/-! ## A rule for the steps at an entry -/

/-- `P` is kept by what the call does at the entry at depth `d` of `va`: what the cache does, hanging a page of the
allocator into the entry, and stores that keep what the entry leads to. -/
structure StepRule (A : Pool σ) (mask root : Word) (d : Nat) (va t : Word) (P : World σ → Prop) : Prop where
  same : ∀ {w w'}, TreeInv A mask root w → SameLoads w w' → P w → P w'
  linked : ∀ {w w2 m n}, TreeInv A mask root w → Drawn A w w2 n → TreeInv A mask root w2 → ¬ A.has w2 n.toNat →
    Linked mask w2.mem m root d va t n → P w → P { w2 with mem := m }
  rewritten : ∀ {w m}, TreeInv A mask root w → Rewritten mask w.mem m root d va t → P w → P { w with mem := m }

variable {P : World σ → Prop}

theorem StepRule.through (hR : StepRule A mask root d va t P) (ha : AttrOk attr)
    (h : TreeInv A mask root w) (he : Enters allocPages mask root attr d va t w w') (hP : P w) : P w' := by
  obtain ⟨_, _, w1, _, w2, hinst, hs1, hattr, hs2, k1, ht1, hpres, hpage1⟩ := before_updateAttr ha h he
  have hP1 : P w1 := by
    rcases installTable_cases ha h he.depth he.table hinst with ⟨-, rfl⟩ | ⟨_, _, h₂, -, hout, -, rfl, hL, hdrawn⟩
    · exact hP
    · exact hR.linked h hdrawn h₂ hout hL hP
  have hP1' := hR.same (installTable_spec ha h he.depth he.table hinst).1.inv hs1 hP1
  obtain rfl := run_updateAttr_ok hattr
  have hs := rewritten_setAttr ha (he.depth.trans (by omega)) ht1 hpres hpage1
  exact hR.same (k1.inv.of_rewritten hs).1 hs2 (hR.rewritten k1.inv hs hP1')

theorem StepRule.mapPage (hR : StepRule A mask root d va t P) (ha : AttrOk attr)
    (h : TreeInv A mask root w) (hd1 : 1 ≤ d) (hd : d ≤ 3) (ht : tableAt mask w.mem root va d = some t)
    (hnone : child mask (3 - d) (w.mem.load (entryAt d t va)) = none)
    (hrun : (Paging.mapPage mask attr (3 - d) (entryAt d t va) paddr).run w = .ok u w') (hP : P w) : P w' := by
  obtain ⟨-, rfl⟩ := run_mapPage_ok hrun
  exact hR.rewritten h (rewritten_setPageBaseAddr paddr ha hd1 hd ht hnone) hP

end

end Liumos.Paging
