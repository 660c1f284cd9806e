/-
The kernel half of the process tables. A process table is created with the upper half of the kernel's PML4 as it is at
that time, and nothing copies the entries again when `MapPages` maps into the kernel's table later on. The windows of
`MapPages` show through the process tables all the same while they lie below entries that every creation has found
present, since then the tables below are shared.
Sources: paging.{h,cc} (`AllocPageTable`, `SetKernelPageEntries`), kernel_virtual_heap_allocator.h, elf.cc.
-/
import Liumos.Heap.VirtualHeap
import Liumos.Paging.SharedTables
import Liumos.Process.Persistent

namespace Liumos.Paging

open Process Heap List

/-! ## Creating a table -/

section

variable {σ : Type}

/-- `AllocPageTable(allocator)`, and `SetKernelPageEntries` on the new table. -/
def createPageTable (allocPages : Word → WM σ Word) (kernelPml4 : Word) : WM σ Word := do
  let pml4 ← allocPageTable allocPages
  setKernelPageEntries kernelPml4 pml4
  return pml4

theorem run_copyWords_alloc {dst src : Nat} : ∀ {n i : Nat} {w w' : World σ} {u : Unit},
    (copyWords dst src n i).run w = .ok u w' → w'.alloc = w.alloc
  | 0, _, _, _, _, h => by
    obtain ⟨-, rfl⟩ := run_pure_ok h
    rfl
  | n + 1, i, w, w', u, h => by
    unfold copyWords at h
    replace h := of_run_load_bind h
    obtain ⟨_, _, hstore, h⟩ := run_bind_ok h
    rw [run_copyWords_alloc h, run_store_ok hstore]

theorem run_copyWords_ok {dst src n : Nat} (hdis : ∀ i < n, ∀ j < n, src + 8 * i ≠ dst + 8 * j) {w w' : World σ}
    {u : Unit} (h : (copyWords dst src n 0).run w = .ok u w') :
    w' = { w with mem := storeWords w.mem dst (fun i => w.mem.load (src + 8 * i)) n } := by
  have hmem : w'.mem = storeWords w.mem dst (fun i => w.mem.load (src + 8 * i)) n :=
    ensures_true_iff.1 (ensures_copyWords (P := fun _ => True) (m := w.mem)
      (Q := fun _ w' => w'.mem = storeWords w.mem dst (fun i => w.mem.load (src + 8 * i)) n) (fun _ _ _ _ _ => trivial)
      hdis n 0 w (by omega) rfl trivial fun _ hm _ => hm) u w' h
  obtain ⟨m', a'⟩ := w'
  obtain rfl : a' = w.alloc := run_copyWords_alloc h
  obtain rfl : m' = _ := hmem
  rfl

theorem run_allocPageTable_ok {allocPages : Word → WM σ Word} {p : Word} {w w' : World σ}
    (h : (allocPageTable allocPages).run w = .ok p w') :
    ∃ w1, (allocPages 1#64).run w = .ok p w1 ∧ w' = { w1 with mem := zeroPage w1.mem p.toNat } := by
  unfold allocPageTable at h
  obtain ⟨_, w1, halloc, h⟩ := run_bind_ok h
  obtain ⟨-, h⟩ := of_run_assert_bind h
  obtain ⟨_, _, hclear, h⟩ := run_bind_ok h
  obtain ⟨rfl, rfl⟩ := run_pure_ok h
  exact ⟨w1, halloc, run_clearMapping_ok hclear⟩

end

/-- The lower half of the PML4 `p` is empty, the upper half is that of `kernel`. -/
structure Copied (m : Mem) (kernel p : Word) : Prop where
  aligned : p.toNat % 4096 = 0
  lower : ∀ va, ¬ Upper va → m.load (entryAddr 3 p va) = 0#64
  upper : ∀ va, Upper va → m.load (entryAddr 3 p va) = m.load (entryAddr 3 kernel va)

theorem run_setKernelPageEntries_ok {σ : Type} {kernel p : Word} {w w' : World σ} {u : Unit}
    (hk : kernel.toNat % 4096 = 0) (hp : p.toNat % 4096 = 0) (hne : kernel ≠ p)
    (hzero : ∀ va, w.mem.load (entryAddr 3 p va) = 0#64) (h : (setKernelPageEntries kernel p).run w = .ok u w') :
    w'.alloc = w.alloc ∧ Copied w'.mem kernel p ∧ ∀ a, pageOf a ≠ p.toNat → w'.mem.load a = w.mem.load a := by
  have hpages : kernel.toNat ≠ p.toNat := fun he => hne (BitVec.eq_of_toNat_eq he)
  unfold setKernelPageEntries at h
  have hw' := run_copyWords_ok (fun i hi j hj => by simp only [kNumOfEntries] at hi hj ⊢; omega) h
  -- the copy goes to the upper half of the page of `p`
  have hother : ∀ a, (∀ i < kNumOfEntries / 2, a ≠ p.toNat + 8 * (kNumOfEntries / 2) + 8 * i) → w'.mem.load a =
      w.mem.load a := by
    intro a ha
    rw [hw']
    exact load_storeWords_ne _ _ _ ha
  have hsame : ∀ a, pageOf a ≠ p.toNat → w'.mem.load a = w.mem.load a := by
    intro a ha
    refine hother a fun i hi he => ha ?_
    simp only [kNumOfEntries] at hi he
    unfold pageOf
    omega
  refine ⟨by rw [hw'], ⟨hp, fun va hlow => ?_, fun va hup => ?_⟩, hsame⟩
  · rw [hother, hzero]
    intro i hi he
    refine hlow ?_
    unfold entryAddr at he
    unfold Upper
    omega
  · obtain ⟨i, hi⟩ := Nat.exists_eq_add_of_le hup
    have hlt : i < kNumOfEntries / 2 := by
      have := addr2index_lt 3 va
      simp only [kNumOfEntries] at hi ⊢
      omega
    rw [hsame (entryAddr 3 kernel va) (by rw [pageOf, entryAddr_mem_page hk]; exact hpages)]
    have hentry : ∀ t : Word, entryAddr 3 t va = t.toNat + 8 * (kNumOfEntries / 2) + 8 * i := by
      intro t
      unfold entryAddr
      omega
    rw [hentry p, hentry kernel, hw']
    exact load_storeWords _ _ _ hlt

section

variable {mask kernel p : Word} {m : Mem}

theorem Copied.tableAt_upper (h : Copied m kernel p) {va : Word} (hup : Upper va) :
    ∀ d, tableAt mask m p va (d + 1) = tableAt mask m kernel va (d + 1)
  | 0 => by
    show child mask 3 (m.load (entryAddr 3 p va)) = child mask 3 (m.load (entryAddr 3 kernel va))
    rw [h.upper va hup]
  | d + 1 => by
    show (tableAt mask m p va (d + 1)).bind _ = (tableAt mask m kernel va (d + 1)).bind _
    rw [h.tableAt_upper hup d]

theorem Copied.tableAt_lower (h : Copied m kernel p) {va : Word} (hlow : ¬ Upper va) :
    ∀ d, tableAt mask m p va (d + 1) = none
  | 0 => by
    show child mask 3 (m.load (entryAddr 3 p va)) = none
    rw [h.lower va hlow]
    rfl
  | d + 1 => by
    rw [tableAt, h.tableAt_lower hlow d]
    rfl

/-- The tables of the new tree are its root, and the kernel's below the upper half. -/
theorem Copied.tableAt_some (h : Copied m kernel p) {va t : Word} {d : Nat} (ht : tableAt mask m p va d = some t) :
    (d = 0 ∧ t = p) ∨ (1 ≤ d ∧ Upper va ∧ tableAt mask m kernel va d = some t) := by
  cases d with
  | zero =>
    cases ht
    exact .inl ⟨rfl, rfl⟩
  | succ d =>
    by_cases hup : Upper va
    · rw [h.tableAt_upper hup] at ht
      exact .inr ⟨by omega, hup, ht⟩
    · rw [h.tableAt_lower hup] at ht
      cases ht

theorem Copied.treeOk (h : Copied m kernel p) (hk : TreeOk mask m kernel)
    (hfresh : ∀ va d, d ≤ 3 → tableAt mask m kernel va d ≠ some p) : TreeOk mask m p := by
  refine ⟨h.aligned, ?_, ?_⟩
  · intro d d' va va' t hd hd' ht ht'
    rcases h.tableAt_some ht with ⟨rfl, rfl⟩ | ⟨-, -, hkt⟩
    · rcases h.tableAt_some ht' with ⟨rfl, -⟩ | ⟨-, -, hkt'⟩
      · exact ⟨rfl, by rw [path_zero, path_zero]⟩
      · exact absurd hkt' (hfresh va' d' hd')
    · rcases h.tableAt_some ht' with ⟨-, rfl⟩ | ⟨-, -, hkt'⟩
      · exact absurd hkt (hfresh va d hd)
      · exact hk.inj hd hd' hkt hkt'
  · intro d va t hd ht habs
    rcases h.tableAt_some ht with ⟨rfl, rfl⟩ | ⟨-, -, hkt⟩
    · by_cases hup : Upper va
      · rw [h.upper va hup] at habs ⊢
        exact hk.zero (d := 0) hd rfl habs
      · exact h.lower va hup
    · exact hk.zero hd hkt habs

end

section

variable {σ : Type} {A : Pool σ} {allocPages : Word → WM σ Word} [hA : AllocOk allocPages A]
  {mask kernel p : Word} {procs : List Word} {w w' : World σ}

/-- A copy in a page of its own joins the family. -/
theorem Family.copied (h : Family A mask kernel procs w) (hc : Copied w.mem kernel p) (hout : ¬ A.has w p.toNat)
    (hfresh : ∀ x ∈ kernel :: procs, ∀ va d, d ≤ 3 → tableAt mask w.mem x va d ≠ some p) :
    Family A mask kernel (p :: procs) w := by
  have hk := h.tree kernel mem_cons_self
  have hfreshK := hfresh kernel mem_cons_self
  have hmem : ∀ r ∈ kernel :: p :: procs, r = p ∨ r ∈ kernel :: procs := by
    intro r hr
    simp only [mem_cons] at hr ⊢
    tauto
  -- a table of the copy that an older tree has too is the kernel's
  have hwith : ∀ {x va va' t : Word} {d d' : Nat}, x ∈ kernel :: procs → d ≤ 3 → d' ≤ 3 →
    tableAt mask w.mem p va d = some t →
      tableAt mask w.mem x va' d' = some t → d = d' ∧ path d va = path d va' ∧ 1 ≤ d ∧ Upper va := by
    intro x va va' t d d' hx hd hd' ht ht'
    rcases hc.tableAt_some ht with ⟨-, rfl⟩ | ⟨hd1, hup, hkt⟩
    · exact absurd ht' (hfresh x hx va' d' hd')
    · obtain ⟨hdd, hpath⟩ := h.place mem_cons_self hx hd hd' hkt ht'
      exact ⟨hdd, hpath, hd1, hup⟩
  refine ⟨fun r hr => ?_, ?_, fun q hq va hup => ?_⟩
  · rcases hmem r hr with rfl | hr
    · refine ⟨hc.treeOk hk.tree hfreshK, hk.alloc, fun va d t hd ht => ?_⟩
      rcases hc.tableAt_some ht with ⟨-, rfl⟩ | ⟨-, -, hkt⟩
      · exact hout
      · exact hk.apart va d t hd hkt
    · exact h.tree r hr
  · intro r r' d d' va va' t hr hr' hne hd hd' ht ht'
    rcases hmem r hr with rfl | hold
    · exact hwith ((hmem r' hr').resolve_left hne.symm) hd hd' ht ht'
    · rcases hmem r' hr' with rfl | hold'
      · obtain ⟨rfl, hpath, hd1, hup⟩ := hwith hold hd' hd ht' ht
        exact ⟨rfl, hpath.symm, hd1, hup.congr (path_mono hd1 (by omega) hpath.symm)⟩
      · exact h.common hold hold' hne hd hd' ht ht'
  · rcases mem_cons.1 hq with rfl | hq
    · exact .inl (hc.tableAt_upper hup 0)
    · exact h.alike q hq va hup

/-- What a creation does to the kernel's table and the older ones, and where its entries lead. -/
structure Created (A : Pool σ) (mask kernel : Word) (procs : List Word) (p : Word) (w w' : World σ) : Prop where
  family : Family A mask kernel (p :: procs) w'
  ext : AllExtend mask kernel procs w.mem w'.mem
  upper : ∀ va, Upper va → tableAt mask w'.mem p va 1 = tableAt mask w'.mem kernel va 1

theorem Family.createPageTable (h : Family A mask kernel procs w)
    (hrun : (createPageTable allocPages kernel).run w = .ok p w') : Created A mask kernel procs p w w' := by
  unfold Paging.createPageTable at hrun
  obtain ⟨p, w2, hnew, hrun⟩ := run_bind_ok hrun
  obtain ⟨_, w3, hcopy, hrun⟩ := run_bind_ok hrun
  obtain ⟨rfl, rfl⟩ := run_pure_ok hrun
  obtain ⟨w1, halloc, rfl⟩ := run_allocPageTable_ok hnew
  have hk := h.tree kernel mem_cons_self
  obtain ⟨hp, -⟩ := hA.page hk.alloc halloc
  obtain ⟨hdrawn, hI, hout⟩ := drawn_of_alloc hk.alloc halloc
  obtain ⟨hfam, hext⟩ := h.of_drawn hdrawn hI
  have hfresh := fun x hx => ((h.tree x hx).of_drawn hdrawn hI).2.2
  have hne : kernel ≠ p := fun he => hfresh kernel mem_cons_self 0#64 0 (by omega) (congrArg some he)
  obtain ⟨halloc3, hcopied, hsame⟩ := run_setKernelPageEntries_ok hk.tree.aligned hp hne (load_cleared 3) hcopy
  -- the copy goes to the page of the new table only, which no tree has
  have hstores : ∀ x ∈ kernel :: procs, ApartStores A mask x { w1 with mem := zeroPage w1.mem p.toNat } w3 := by
    refine fun x hx => ⟨halloc3, fun a hchanged => ?_⟩
    have ha : pageOf a = p.toNat := by
      by_contra ha
      exact hchanged (hsame a ha)
    refine ⟨by rwa [ha], fun va d t hd ht he => ?_⟩
    rw [ha] at he
    exact hfresh x hx va d hd (BitVec.eq_of_toNat_eq he ▸ ht)
  obtain ⟨hfam3, hext3⟩ := hfam.of_apart hstores
  refine ⟨hfam3.copied hcopied ?_ fun x hx va d hd ht => ?_, hext.trans hext3,
    fun va hup => hcopied.tableAt_upper hup 0⟩
  · have hpage : pageOf p.toNat = p.toNat := by
      unfold pageOf
      omega
    have hapart : Apart A mask kernel { w1 with mem := zeroPage w1.mem p.toNat } p.toNat := by
      refine ⟨by rwa [hpage], fun va d t hd ht he => ?_⟩
      rw [hpage] at he
      exact hfresh kernel mem_cons_self va d hd (BitVec.eq_of_toNat_eq he ▸ ht)
    have := (((hstores kernel mem_cons_self).kept (hfam.tree kernel mem_cons_self)).2 p.toNat hapart).pool
    rwa [hpage] at this
  · rw [((hstores x hx).sameBelow (hfam.tree x hx).tree va).tables (by omega)] at ht
    exact hfresh x hx va d hd ht

end

/-! ## Runs -/

section

variable {σ : Type} {A : Pool σ} {mask kernel : Word}

/-- The runs of the kernel as far as its own table and those of the processes go: the kernel's heap, the tables
created so far, and the PML4 entries that all the creations have found present. -/
inductive Sharing (A : Pool σ) (mask kernel : Word) : KernelVirtualHeapAllocator σ → List Word → (Nat → Prop) → Prop
  | start {s} : TreeInv A mask kernel s.world → Sharing A mask kernel s [] fun _ => True
  | create {s procs found allocPages p w'} [AllocOk allocPages A] : Sharing A mask kernel s procs found →
      (createPageTable allocPages kernel).run s.world = .ok p w' →
      Sharing A mask kernel { s with world := w' } (p :: procs)
        fun i => found i ∧ isPresent (s.world.mem.load (kernel.toNat + 8 * i)) = true
  -- the pages of the window are below entries that every creation has found present
  | mapPages {s procs found allocPages v s'} [AllocOk allocPages A] {c : Request} :
      Sharing A mask kernel s procs found → AttrOk c.pageAttr → (∀ k < pageCount (c.numOfPages <<< kPageSizeExponent),
        found (addr2index 3 (pageAddr s.nextBase k))) →
      (mapPages allocPages mask kernel c).run s = .ok v s' → Sharing A mask kernel s' procs found
  -- a process maps a segment in the lower half
  | map {s procs found allocPages p a seg attr shouldClflush u w'} [AllocOk allocPages A] :
      Sharing A mask kernel s procs found → p ∈ procs → SegmentIs s.world.mem a seg → seg.vaddr.toNat +
      seg.mapSize.toNat ≤ 2 ^ 47 → attr &&& ~~~kPageAttrMask = 0#64 →
      (SegmentMapping.map allocPages mask a p attr shouldClflush).run s.world = .ok u w' →
      Sharing A mask kernel { s with world := w' } procs found
  -- stores to anything but the tables and the pages of the allocators
  | other {s procs found allocPages w'} [AllocOk allocPages A] : Sharing A mask kernel s procs found →
      (∀ r ∈ kernel :: procs, ApartStores A mask r s.world w') →
      Sharing A mask kernel { s with world := w' } procs found

/-- The tables are a family, and entries that every creation has found present lead them all to the same table. -/
structure SharingInv (A : Pool σ) (mask kernel : Word) (w : World σ) (procs : List Word)
    (found : Nat → Prop) : Prop where
  family : Family A mask kernel procs w
  joined : ∀ va, Upper va → found (addr2index 3 va) → Joined mask w.mem kernel procs va

variable {procs : List Word} {found : Nat → Prop} {allocPages : Word → WM σ Word} [AllocOk allocPages A]
  {w w' : World σ}

theorem sharingInv_start (h : TreeInv A mask kernel w) : SharingInv A mask kernel w [] found := by
  refine ⟨⟨fun r hr => ?_, ?_, ?_⟩, ?_⟩
  · rwa [mem_singleton.1 hr]
  · intro r r' d d' va va' t hr hr' hne
    exact absurd ((mem_singleton.1 hr).trans (mem_singleton.1 hr').symm) hne
  · intro p hp
    cases hp
  · intro va _ _ p hp
    cases hp

theorem SharingInv.create {p : Word} (h : SharingInv A mask kernel w procs found)
    (hrun : (createPageTable allocPages kernel).run w = .ok p w') :
    SharingInv A mask kernel w' (p :: procs) fun i => found i ∧
      isPresent (w.mem.load (kernel.toNat + 8 * i)) = true := by
  have hc := h.family.createPageTable hrun
  refine ⟨hc.family, fun va hup hfound q hq => ?_⟩
  rcases mem_cons.1 hq with rfl | hq
  · -- the entry was present, and led the kernel to a table
    have ht : tableAt mask w.mem kernel va 1 = _ := child_of hfound.2 (isPage_three _)
    have ht' := hc.ext kernel mem_cons_self va 1 _ (by omega) ht
    exact ⟨_, (hc.upper va hup).trans ht', ht'⟩
  · exact (h.joined va hup hfound.1).extend hc.ext q hq

theorem SharingInv.of_extend (h : SharingInv A mask kernel w procs found)
    (h' : Family A mask kernel procs w' ∧ AllExtend mask kernel procs w.mem w'.mem) :
    SharingInv A mask kernel w' procs found := ⟨h'.1, fun va hup hfound => (h.joined va hup hfound).extend h'.2⟩

/-- The pages of a range that ends in the lower half are in the lower half. -/
theorem not_upper_of_range {v s : Word} (h : v.toNat + s.toNat ≤ 2 ^ 47) {k : Nat} (hk : k < pageCount s) :
    ¬ Upper (pageAddr v k) := by
  rw [pageCount_eq (by omega)] at hk
  unfold Upper
  rw [toNat_addr2index, toNat_pageAddr, pos]
  simp only [kNumOfEntries, kIndexShift]
  omega

theorem SharingInv.map {p attr : Word} {a : Nat} {seg : SegmentMapping} {shouldClflush : Bool}
    {u : Unit} (h : SharingInv A mask kernel w procs found) (hp : p ∈ procs) (hseg : SegmentIs w.mem a seg)
    (hlow : seg.vaddr.toNat + seg.mapSize.toNat ≤ 2 ^ 47) (hattr : attr &&& ~~~kPageAttrMask = 0#64)
    (hrun : (SegmentMapping.map allocPages mask a p attr shouldClflush).run w = .ok u w') :
    SharingInv A mask kernel w' procs found := by
  by_cases hnull : seg.paddr = 0#64
  · rw [Elf.run_map_null hseg hnull] at hrun
    cases hrun
    exact h
  · rw [Elf.run_map hseg hnull] at hrun
    refine h.of_extend (h.family.createPageMapping (Elf.attrOk_present hattr) (mem_cons_of_mem _ hp) ?_ hrun)
    exact fun k hk hup => absurd hup (not_upper_of_range hlow hk)

theorem Sharing.sharingInv {s : KernelVirtualHeapAllocator σ} (h : Sharing A mask kernel s procs found) :
    SharingInv A mask kernel s.world procs found := by
  induction h with
  | start h => exact sharingInv_start h
  | create _ hrun ih => exact ih.create hrun
  | mapPages _ hattr hwin hrun ih =>
    refine ih.of_extend (ih.family.createPageMapping hattr mem_cons_self ?_ (run_mapPages_ok hrun).1)
    exact fun k hk hup => ih.joined _ hup (hwin k hk)
  | map _ hp hseg hlow hattr hrun ih => exact ih.map hp hseg hlow hattr hrun
  | other _ hs ih => exact ih.of_extend (ih.family.of_apart hs)

/-- Every process table translates the upper half as the kernel's does. -/
theorem sharing_v2p_eq {s : KernelVirtualHeapAllocator σ} (h : Sharing A mask kernel s procs found) :
    ∀ p ∈ procs, ∀ va, Upper va → v2p mask s.world.mem 3 p va = v2p mask s.world.mem 3 kernel va :=
  fun p hp va hup => (h.sharingInv.family.alike p hp va hup).v2p_eq

end

/-- A page is mapped in the window, a table created and another page mapped. -/
def mapCreateMap : KM (KernelVirtualHeapAllocator (List Word)) Word := do
  let _ ← mapPages allocFromList (lowMask 36) 0x1000#64 firstPage
  let e ← onWorld (load (0x1000 + 8 * 511))
  assert (isPresent e) "entries[511].IsPresent()"
  let p ← onWorld (createPageTable allocFromList 0x1000#64)
  let _ ← mapPages allocFromList (lowMask 36) 0x1000#64 firstPage
  return p

theorem sharing_v2p_eq_mapCreateMap : ∃ p s, mapCreateMap.run (freshHeap 5) = .ok p s ∧
    ∀ va, Upper va → v2p (lowMask 36) s.world.mem 3 p va = v2p (lowMask 36) s.world.mem 3 0x1000#64 va := by
  obtain ⟨p, s, hrun⟩ := exists_of_returned (r := mapCreateMap.run (freshHeap 5)) (by decide +kernel)
  refine ⟨p, s, hrun, ?_⟩
  have hstart := (freshHeap_start (n := 5) (by norm_num)).tree
  have hattr : AttrOk firstPage.pageAttr := ⟨by decide, by decide⟩
  have hbase : (freshHeap 5).nextBase = kKernelHeapBaseAddr := rfl
  generalize freshHeap 5 = s0 at hrun hstart hbase
  unfold mapCreateMap at hrun
  obtain ⟨_, s1, hmap1, hrun⟩ := run_bind_ok hrun
  obtain ⟨_, _, hload, hrun⟩ := run_bind_ok hrun
  obtain ⟨hpres, hrun⟩ := of_run_assert_bind hrun
  obtain ⟨p', s2, hcreate, hrun⟩ := run_bind_ok hrun
  obtain ⟨_, _, hmap2, hrun⟩ := run_bind_ok hrun
  obtain ⟨rfl, rfl⟩ := run_pure_ok hrun
  obtain ⟨hl, hb1⟩ := run_onWorld_ok hload
  obtain ⟨rfl, hw1⟩ := EStateM.Result.ok.inj hl
  obtain ⟨hcreate, hb2⟩ := run_onWorld_ok hcreate
  rw [← hw1] at hcreate
  have hs2 : s2 = { s1 with world := s2.world } := by
    rw [← hb1, ← hb2]
  have h1 := Sharing.mapPages (.start hstart) hattr (fun _ _ => trivial) hmap1
  have h2 := h1.create hcreate
  rw [hs2] at hmap2
  refine sharing_v2p_eq (h2.mapPages hattr (fun k hk => ?_) hmap2) p' mem_cons_self
  -- the window of the second call is below the entry that the creation has found present
  obtain rfl : k = 0 := Nat.lt_one_iff.1 hk
  have hindex : addr2index 3 (pageAddr s1.nextBase 0) = 511 := by
    rw [(run_mapPages_ok hmap1).2, hbase]
    decide
  rw [hindex]
  exact ⟨trivial, hpres⟩

end Liumos.Paging
