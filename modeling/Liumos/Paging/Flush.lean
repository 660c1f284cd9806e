/-
`FlushDirtyPages`: the four nested loops over a range of a page table that write back the pages whose
entries are dirty, and clear these dirty bits. Source: paging.cc. The counter of issued flushes is left
out.

The loops go through the entries of level 0 of the pages of the range, in order. What the caller relies on is stated for
any property `Base` of memory that flushes and such clearings keep: it holds at every point of the call, also when the
call panics, and when the call returns every page of the range has an entry that is not dirty.
-/
import Liumos.Paging.Levels
import Liumos.Paging.Range

namespace Liumos.Paging

open WriteBack BitVec

variable {σ : Type}

/-! ## The function -/

/-- The variables the loops share. -/
structure FlushCursor where
  vaddr : Word
  numOf4kPages : Word

section

variable (mask : Word)

/-- The body of the innermost loop, for the entry at `a`. -/
def flushPte (a : Nat) : WM σ Unit := do
  let pte ← load a
  if isDirty pte then do
    clflushSize (getPageBaseAddr mask 0 pte).toNat 4096
    store a (clearDirtyBit pte)
  else pure ()

/-- The loop over `pt_idx`. -/
def flushPt (pt : Word) : Nat → FlushCursor → WM σ FlushCursor
  | 0, c => pure c
  | n + 1, c =>
    if c.numOf4kPages = 0#64 then pure c
    else do
      flushPte mask (entryAddr 0 pt c.vaddr)
      flushPt pt n ⟨c.vaddr + (1#64 <<< 12), c.numOf4kPages - 1#64⟩

/-- The loop over `pdt_idx`. -/
def flushPdt (pdt : Word) : Nat → FlushCursor → WM σ FlushCursor
  | 0, c => pure c
  | n + 1, c =>
    if c.numOf4kPages = 0#64 then pure c
    else do
      let pdte ← load (entryAddr 1 pdt c.vaddr)
      if !isPresent pdte then throw (.message "Not mapped")
      else if isPage 1 pdte then throw (.message "Page overwrapping at pdte")
      else
        let c ← flushPt mask (getTableAddr mask 1 pdte) (kNumOfEntries - addr2index 0 c.vaddr) c
        flushPdt pdt n c

/-- The loop over `pdpt_idx`. -/
def flushPdpt (pdpt : Word) : Nat → FlushCursor → WM σ FlushCursor
  | 0, c => pure c
  | n + 1, c =>
    if c.numOf4kPages = 0#64 then pure c
    else do
      let pdpte ← load (entryAddr 2 pdpt c.vaddr)
      if !isPresent pdpte then throw (.message "Not mapped")
      else if isPage 2 pdpte then throw (.message "Page overwrapping at pdpte")
      else
        let c ← flushPdt mask (getTableAddr mask 2 pdpte) (kNumOfEntries - addr2index 1 c.vaddr) c
        flushPdpt pdpt n c

/-- The loop over `pml4_idx`, which the number of pages left does not guard. -/
def flushPml4 (pml4 : Word) : Nat → FlushCursor → WM σ FlushCursor
  | 0, c => pure c
  | n + 1, c => do
    let pml4e ← load (entryAddr 3 pml4 c.vaddr)
    if !isPresent pml4e then throw (.message "Not mapped")
    else
      let c ← flushPdpt mask (getTableAddr mask 3 pml4e) (kNumOfEntries - addr2index 2 c.vaddr) c
      flushPml4 pml4 n c

def flushDirtyPages (pml4 vaddr byteSize : Word) : WM σ Unit := do
  assert (vaddr &&& kPageAddrMask == 0#64) "(vaddr & kPageAddrMask) == 0"
  let _ ← flushPml4 mask pml4 (kNumOfEntries - addr2index 3 vaddr) ⟨vaddr, byteSizeToPageSize byteSize⟩

end

/-! ## The loops -/

section

variable {v0 : Word} {N : Nat}

def flushCursorAt (v0 : Word) (N k : Nat) : FlushCursor := ⟨pageAddr v0 k, BitVec.ofNat 64 (N - k)⟩

theorem flushCursorAt_num (hN : N < 2 ^ 64) {k : Nat} (hk : k < N) : (flushCursorAt v0 N k).numOf4kPages ≠ 0#64 := by
  rw [flushCursorAt, Ne, ← toNat_inj, toNat_ofNat]
  simp only [toNat_ofNat]
  omega

theorem flushCursorAt_end : (flushCursorAt v0 N N).numOf4kPages = 0#64 := by rw [flushCursorAt, Nat.sub_self]

theorem flushCursorAt_succ {k : Nat} (hk : k < N) :
    (⟨(flushCursorAt v0 N k).vaddr + (1#64 <<< 12), (flushCursorAt v0 N k).numOf4kPages - 1#64⟩ : FlushCursor) =
      flushCursorAt v0 N (k + 1) := by
  have hnum : BitVec.ofNat 64 (N - k) - 1#64 = BitVec.ofNat 64 (N - (k + 1)) := by
    apply eq_of_toNat_eq
    rw [toNat_sub, toNat_ofNat, toNat_ofNat, toNat_ofNat]
    omega
  have hva : pageAddr v0 k + (1#64 <<< 12) = pageAddr v0 (k + 1) := by
    rw [pageAddr, pageAddr, BitVec.add_assoc, Nat.mul_succ, BitVec.ofNat_add]
    rfl
  rw [flushCursorAt, flushCursorAt, hnum, hva]

variable {J : Judgement σ} {mask root t : Word} {m0 : Mem} {Inv : World σ → Nat → Prop} {w : World σ}
  {d k k0 stop : Nat}

/-- `Inv w k` holds after `k` pages, and the tables stay as in `m0`: what the steps have to keep. The judgement has to
allow a panic where a page of the range has no entry of level 0, and where there is no PML4 entry behind the range. -/
structure FlushRule (J : Judgement σ) (mask root v0 : Word) (N : Nat) (m0 : Mem) (Inv : World σ → Nat → Prop) :
    Prop where
  le : ∀ {w k}, Inv w k → k ≤ N
  tables : ∀ {w k}, Inv w k → ∀ va, ∀ d ≤ 3, tableAt mask w.mem root va d = tableAt mask m0 root va d
  page : ∀ {w k t} {Q : Unit → World σ → Prop}, Inv w k → k < N → tableAt mask m0 root (pageAddr v0 k) 3 = some t →
    (∀ w', Inv w' (k + 1) → Q () w') → J.holds (flushPte mask (entryAddr 0 t (pageAddr v0 k))) w Q
  stuck : ∀ {α : Type} {w k e} {Q : α → World σ → Prop}, Inv w k → k < N → InSpace v0 k →
    tableAt mask m0 root (pageAddr v0 k) 3 = none → J.holds (throw e) w Q
  behind : ∀ {α : Type} {w e} {Q : α → World σ → Prop}, Inv w N → InSpace v0 N →
    isPresent (w.mem.load (entryAddr 3 root (pageAddr v0 N))) = false → J.holds (throw e) w Q

section

variable (hR : FlushRule J mask root v0 N m0 Inv) (h : Inv w k) (hd : d ≤ 2)
  (ht : tableAt mask m0 root (pageAddr v0 k) d = some t)

include hR h hd ht

/-- At an entry without a table below, page `k` has no entry of level 0. -/
theorem FlushRule.none_of_child (hc : child mask (3 - d) (w.mem.load (entryAt d t (pageAddr v0 k))) = none) :
    tableAt mask m0 root (pageAddr v0 k) 3 = none := by
  rw [← hR.tables h _ 3 (le_refl 3)]
  by_contra hsome
  obtain ⟨t', ht'⟩ := Option.ne_none_iff_exists'.1 hsome
  obtain ⟨t1, ht1⟩ := tableAt_of_le ht' (by omega : d + 1 ≤ 3)
  rw [tableAt_succ ((hR.tables h _ d (by omega)).trans ht), hc] at ht1
  cases ht1

/-- The table below an entry. -/
theorem FlushRule.table_below (hpres : isPresent (w.mem.load (entryAt d t (pageAddr v0 k))) = true)
    (hpage : isPage (3 - d) (w.mem.load (entryAt d t (pageAddr v0 k))) = false) :
    tableAt mask m0 root (pageAddr v0 k) (d + 1) =
      some (getTableAddr mask (3 - d) (w.mem.load (entryAt d t (pageAddr v0 k)))) := by
  rw [← hR.tables h _ (d + 1) (by omega), tableAt_succ ((hR.tables h _ d (by omega)).trans ht), child_of hpres hpage]

end

/-- What holds below the PML4 entry that ends at `stop`. -/
def Before (Inv : World σ → Nat → Prop) (v0 : Word) (stop : Nat) (w : World σ) (k : Nat) : Prop :=
  Inv w k ∧ pos v0 k ≤ stop

section

variable (hR : FlushRule J mask root v0 N m0 Inv) (hN : N < 2 ^ 64)

include hR hN

theorem FlushRule.pt (hal : v0.toNat % 4096 = 0)
    (ht : tableAt mask m0 root (pageAddr v0 k0) 3 = some t) (hslot : InSlot v0 stop k0) :
    RangeLoop J v0 N (flushCursorAt v0 N) (Before Inv v0 stop) 0 (span v0 0 k0) (flushPt mask t) := by
  refine ⟨fun h => hR.le h.1, fun c => rfl, fun n => by rw [flushPt, if_pos flushCursorAt_end], ?_⟩
  intro n w k Q h hk hsp hcont
  have hva : pos v0 k % 2 ^ kIndexShift 0 = 0 := by
    simp only [kIndexShift, pos]
    omega
  have htk := table_of_span (le_refl 3) (.refl m0) ht hsp
  rw [flushPt, if_neg (flushCursorAt_num hN hk), flushCursorAt_succ hk]
  refine J.bind (hR.page h.1 hk htk fun w' h' => ?_)
  refine hcont (k + 1) w' ⟨h', ?_⟩ (.of_page (by norm_num [kIndexShift]) hva)
  exact ((hslot.of_span (by omega) hsp).fits (l := 0) (by omega) hva).2

/-- The loops over tables of tables, by what their rounds do. -/
theorem FlushRule.upper (hd1 : 1 ≤ d) (hd : d ≤ 2) {loop : Nat → FlushCursor → WM σ FlushCursor}
    {below : Word → Nat → FlushCursor → WM σ FlushCursor} {absent page : Panic}
    (ht : tableAt mask m0 root (pageAddr v0 k0) d = some t) (hslot : InSlot v0 stop k0)
    (hbelow : ∀ {k t}, tableAt mask m0 root (pageAddr v0 k) (d + 1) = some t → InSlot v0 stop k →
      RangeLoop J v0 N (flushCursorAt v0 N) (Before Inv v0 stop) (2 - d) (span v0 (2 - d) k) (below t))
    (hzero : ∀ c, loop 0 c = pure c) (hloop : ∀ n c, loop (n + 1) c = if c.numOf4kPages = 0#64 then pure c else do
      let e ← load (entryAt d t c.vaddr)
      if !isPresent e then throw absent
      else if isPage (3 - d) e then throw page
      else
        let c ← below (getTableAddr mask (3 - d) e) (kNumOfEntries - addr2index (2 - d) c.vaddr) c
        loop n c) : RangeLoop J v0 N (flushCursorAt v0 N) (Before Inv v0 stop) (3 - d) (span v0 (3 - d) k0) loop := by
  refine ⟨fun h => hR.le h.1, hzero, fun n => by rw [hloop, if_pos flushCursorAt_end], ?_⟩
  intro n w k Q h hk hsp hcont
  have htk := table_of_span (by omega) (.refl m0) ht hsp
  have hslotk := hslot.of_span (by omega) hsp
  rw [hloop, if_neg (flushCursorAt_num hN hk)]
  refine J.load ?_
  split
  · rename_i hpres
    exact hR.stuck h.1 hk hslotk.space
      (hR.none_of_child h.1 hd htk (child_none_of_not_present (Bool.not_eq_true' _ ▸ hpres)))
  · split
    · rename_i hpage
      exact hR.stuck h.1 hk hslotk.space (hR.none_of_child h.1 hd htk (child_none_of_page hpage))
    · rename_i hpres hpage
      simp only [Bool.not_eq_true, Bool.not_eq_false'] at hpres hpage
      refine J.bind ((hbelow (hR.table_below h.1 hd htk hpres hpage) hslotk).below (by omega) h fun k1 w1 h1 hr => ?_)
      rw [show 2 - d + 1 = 3 - d by omega] at hr
      exact hcont k1 w1 h1 hr

theorem FlushRule.pdt (hal : v0.toNat % 4096 = 0)
    (ht : tableAt mask m0 root (pageAddr v0 k0) 2 = some t) (hslot : InSlot v0 stop k0) :
    RangeLoop J v0 N (flushCursorAt v0 N) (Before Inv v0 stop) 1 (span v0 1 k0) (flushPdt mask t) :=
  hR.upper hN (by omega) (le_refl 2) ht hslot (hR.pt hN hal) (fun _ => rfl) fun _ _ => rfl

theorem FlushRule.pdpt (hal : v0.toNat % 4096 = 0)
    (ht : tableAt mask m0 root (pageAddr v0 k0) 1 = some t) (hslot : InSlot v0 stop k0) :
    RangeLoop J v0 N (flushCursorAt v0 N) (Before Inv v0 stop) 2 (span v0 2 k0) (flushPdpt mask t) :=
  hR.upper hN (le_refl 1) (by omega) ht hslot (hR.pdt hN hal) (fun _ => rfl) fun _ _ => rfl

theorem FlushRule.pml4 (hal : v0.toNat % 4096 = 0) :
    ∀ (n : Nat) {w : World σ} {k : Nat} {mark : Word → Nat}, Inv w k → Pending v0 N mark n k →
      J.holds (flushPml4 mask root n (flushCursorAt v0 N k)) w fun _ w' => Inv w' (mappedPages v0 N)
  | 0, w, k, mark, h, hpend => J.pure (hpend.eq_mappedPages hal (hR.le h) ▸ h)
  | n + 1, w, k, mark, h, hpend => by
    have hspace := hpend.inSpace
    rw [flushPml4]
    refine J.load ?_
    split
    · rename_i hpres
      rw [Bool.not_eq_true'] at hpres
      rcases (hR.le h).lt_or_eq with hk | rfl
      · exact hR.stuck h hk hspace (hR.none_of_child h (Nat.zero_le 2) rfl (child_none_of_not_present hpres))
      · exact hR.behind h hspace hpres
    · rename_i hpres
      simp only [Bool.not_eq_true, Bool.not_eq_false'] at hpres
      have hbelow := hR.table_below h (Nat.zero_le 2) rfl hpres (isPage_three _)
      refine J.bind ((hR.pdpt hN hal hbelow ⟨hspace, rfl⟩).below (le_refl 2) ⟨h, by omega⟩ fun k1 w1 h1 hr => ?_)
      exact FlushRule.pml4 hal n h1.1 (hpend.next (hR.le h1.1) h1.2 hr)

end

/-- The loops from the beginning of the range on. -/
theorem FlushRule.loops {vaddr byteSize : Word} (hR : FlushRule J mask root vaddr (pageCount byteSize) m0 Inv)
    (hal : vaddr.toNat % 4096 = 0) (h : Inv w 0) :
    J.holds (flushPml4 mask root (kNumOfEntries - addr2index 3 vaddr) ⟨vaddr, byteSizeToPageSize byteSize⟩) w
      fun _ w' => Inv w' (mappedPages vaddr (pageCount byteSize)) := by
  have hcur : (⟨vaddr, byteSizeToPageSize byteSize⟩ : FlushCursor) = flushCursorAt vaddr (pageCount byteSize) 0 := by
    simp [flushCursorAt, pageAddr]
  rw [hcur]
  exact hR.pml4 (byteSizeToPageSize byteSize).isLt hal _ h (pending_init fun _ => 0)

end

/-! ## What a call keeps -/

/-- Memory after the entry at `a` was dirty and `FlushDirtyPages` came across it. -/
def cleaned (mask : Word) (m : Mem) (a : Nat) : Mem :=
  (clflushRange m (getPageBaseAddr mask 0 (m.load a)).toNat 4096).store a (clearDirtyBit (m.load a))

/-- What `FlushDirtyPages` may be called under: flushes, and cleaning an entry of a table of level 0,
keep it. -/
structure FlushKeeps (mask : Word) (lv : Nat → Option Nat) (Base : Mem → Prop) : Prop where
  levelled : ∀ {m}, Base m → Levelled mask lv m
  flush : ∀ m a, Base m → Base (m.flush a)
  cleaned : ∀ {m a}, Base m → lv (pageOf a) = some 0 → isDirty (m.load a) = true → Base (Paging.cleaned mask m a)

section

variable {mask root v0 : Word} {lv : Nat → Option Nat} {Base : Mem → Prop} {N : Nat} {m0 : Mem}

/-- Page `j` has an entry of level 0, and it is not dirty. -/
def CleanAt (mask root v0 : Word) (m : Mem) (j : Nat) : Prop :=
  ∃ t, tableAt mask m root (pageAddr v0 j) 3 = some t ∧ isDirty (m.load (entryAddr 0 t (pageAddr v0 j))) = false

/-- The state of the loops after `k` pages, with the tables of `m0`. -/
structure FlushInv (Base : Mem → Prop) (mask root v0 : Word) (N : Nat) (m0 : Mem) (w : World σ) (k : Nat) : Prop where
  base : Base w.mem
  le : k ≤ N
  tables : ∀ va, ∀ d ≤ 3, tableAt mask w.mem root va d = tableAt mask m0 root va d
  clean : ∀ j < k, CleanAt mask root v0 w.mem j

/-- Cleaning an entry leaves the tables where they are and makes no entry dirty. -/
theorem sameTables_cleaned (mask : Word) (m : Mem) (a : Nat) : SameTables lv m (cleaned mask m a) := by
  have hflush : SameTables lv m (clflushRange m (getPageBaseAddr mask 0 (m.load a)).toNat 4096) :=
    .of_load fun x _ _ => load_clflushRange m _ _ x
  refine hflush.trans (sameTables_store_dirty ?_)
  rw [load_clflushRange, clearDirtyBit_clearDirtyBit]

theorem isDirty_cleaned {m : Mem} (a : Nat) {x : Nat} (hx : isDirty (m.load x) = false) :
    isDirty ((cleaned mask m a).load x) = false := by
  rw [cleaned, Memory.load_store, load_clflushRange]
  split
  · exact isDirty_clearDirtyBit _
  · exact hx

theorem isDirty_cleaned_self (mask : Word) (m : Mem) (a : Nat) : isDirty ((cleaned mask m a).load a) = false := by
  rw [cleaned, Memory.load_store_self]
  exact isDirty_clearDirtyBit _

variable (hB : FlushKeeps mask lv Base) (hroot : lv root.toNat = some 3)

include hB hroot in
theorem FlushInv.cleaned {w : World σ} {k : Nat} (h : FlushInv Base mask root v0 N m0 w k) {a : Nat}
    (ha : lv (pageOf a) = some 0) (hd : isDirty (w.mem.load a) = true) :
    FlushInv Base mask root v0 N m0 { w with mem := Paging.cleaned mask w.mem a } k := by
  have hT : ∀ va, ∀ d ≤ 3, _ := fun va d hd =>
    (hB.levelled h.base).tableAt_eq (sameTables_cleaned mask w.mem a) hroot va (d := d) hd
  refine ⟨hB.cleaned h.base ha hd, h.le, fun va d hd' => (hT va d hd').trans (h.tables va d hd'), ?_⟩
  intro j hj
  obtain ⟨t, ht, hclean⟩ := h.clean j hj
  exact ⟨t, by rw [hT _ 3 (le_refl 3), ht], isDirty_cleaned a hclean⟩

include hB hroot in
/-- The entry of each page is cleaned, and then the page is clean. -/
theorem flushInv_flushRule :
    FlushRule (ensuring Base) mask root v0 N m0 (FlushInv Base mask root v0 N m0 : World σ → Nat → Prop) where
  le := FlushInv.le
  tables := FlushInv.tables
  page := by
    intro w k t Q h hk ht hQ
    have hlv : lv (pageOf (entryAddr 0 t (pageAddr v0 k))) = some 0 := by
      have := (hB.levelled h.base).tableAt hroot (le_refl 3) ((h.tables _ 3 (le_refl 3)).trans ht)
      rwa [(hB.levelled h.base).page this]
    have hnext : ∀ w1 : World σ, FlushInv Base mask root v0 N m0 w1 k →
        isDirty (w1.mem.load (entryAddr 0 t (pageAddr v0 k))) = false → Q () w1 := by
      refine fun w1 h1 hclean => hQ w1 { h1 with le := hk, clean := fun j hj => ?_ }
      rcases Nat.lt_succ_iff_lt_or_eq.1 hj with hj | rfl
      · exact h1.clean j hj
      · exact ⟨t, (h1.tables _ 3 (le_refl 3)).trans ht, hclean⟩
    refine ensures_load ?_
    split
    · rename_i hd
      have h1 := h.cleaned hB hroot hlv hd
      refine .bind (ensures_clflushSize hB.flush h.base ?_)
      exact ensures_store h1.base (hnext _ h1 (isDirty_cleaned_self ..))
    · rename_i hd
      exact ensures_pure (hnext w h (Bool.eq_false_iff.2 hd))
  stuck _ _ _ _ := ensures_throw
  behind _ _ _ := ensures_throw

include hB hroot in
/-- `FlushDirtyPages` on any range keeps `Base`; when it returns and the range lies inside the 48-bit
space, every page of it has an entry of level 0, which is not dirty. -/
theorem flushDirtyPages_ensures {vaddr byteSize : Word} {w : World σ} (h : Base w.mem) :
    Ensures Base (flushDirtyPages mask root vaddr byteSize) w fun _ w' => Base w'.mem ∧
      (vaddr.toNat % 2 ^ 48 + 4096 * pageCount byteSize ≤ 2 ^ 48 →
        ∀ j < pageCount byteSize, CleanAt mask root vaddr w'.mem j) := by
  unfold flushDirtyPages
  refine ensures_assert fun hal => ?_
  rw [beq_kPageAddrMask_iff] at hal
  have h0 : FlushInv Base mask root vaddr (pageCount byteSize) w.mem w 0 :=
    ⟨h, Nat.zero_le _, fun _ _ _ => rfl, fun j hj => absurd hj (Nat.not_lt_zero j)⟩
  refine .bind (((flushInv_flushRule hB hroot).loops hal h0).mono (fun _ hm => hm) fun _ w' h' => ?_)
  refine ensures_pure ⟨h'.base, fun hvirt j hj => h'.clean j ?_⟩
  unfold mappedPages
  omega

end

end Liumos.Paging
