/-
One region of the loader's page allocator over whole runs: pages are handed out and given back in any order,
and whoever has a page writes into it. The counter is the number of bits that are set, no assert fails, and
a page that is handed out is one that nobody has.
-/
import Liumos.Loader.PageAllocator

namespace Liumos.Loader

open RegionHeader BitVec

/-- A region with the pages that have been handed out and not given back. -/
structure Region where
  mem : PhysBytes
  header : RegionHeader
  live : List Word

/-- A region of `n` pages at `addr` in which the bitmap lies in pages that are marked as used. -/
structure RegionOk (addr : Word) (n : Nat) : Prop where
  nonempty : 1 ≤ n
  aligned : addr.toNat % 4096 = 0
  inMemory : addr.toNat + 4096 * n ≤ 2 ^ 64
  bitmap : size + (n + 7) / 8 ≤ 4096 * headerPages n

/-- The states that a region comes to. Pages are only given back while they are live, and only live pages are written
to from outside. -/
inductive Runs (addr : Word) (n : Nat) : Region → Prop
  | init {m0 m h} : (init addr n).run m0 = .ok h m → Runs addr n ⟨m, h, []⟩
  | allocate {s page h m} : Runs addr n s → (allocatePhysicalPage [s.header]).run s.mem = .ok (some page, [h]) m →
      Runs addr n ⟨m, h, page :: s.live⟩
  | full {s h m} : Runs addr n s → (allocatePhysicalPage [s.header]).run s.mem = .ok (none, [h]) m →
      Runs addr n ⟨m, h, s.live⟩
  | free {s page h m} : Runs addr n s → page ∈ s.live → (freePhysicalPage s.header page).run s.mem = .ok h m →
      Runs addr n ⟨m, h, s.live.erase page⟩
  | write {s page a} (b : BitVec 8) : Runs addr n s → page ∈ s.live → page.toNat ≤ a → a < page.toNat + 4096 →
      Runs addr n { s with mem := Function.update s.mem a b }

/-- The pages of the region whose bit is set. -/
def usedPages (m : PhysBytes) (addr : Word) (n : Nat) : Finset Nat :=
  (Finset.range n).filter fun i => bit m addr i = true

/-- The address of a page of the region. -/
def pageAt (addr : Word) (i : Nat) : Word := addr + BitVec.ofNat 64 i <<< 12

/-- A region of `n` pages at `addr`. -/
structure Placed (addr : Word) (n : Nat) : Prop where
  nonempty : 1 ≤ n
  aligned : addr.toNat % 4096 = 0
  inMemory : addr.toNat + 4096 * n ≤ 2 ^ 64

section

variable {addr : Word} {n : Nat}

theorem RegionOk.placed (hr : RegionOk addr n) : Placed addr n := ⟨hr.nonempty, hr.aligned, hr.inMemory⟩

variable {i : Nat} {m : PhysBytes} {page : Word}

section

variable (hr : Placed addr n) (hi : i < n)

include hr hi

theorem Placed.toNat_pageAt : (pageAt addr i).toNat = addr.toNat + 4096 * i := by
  have := hr.inMemory
  unfold pageAt
  rw [toNat_add, toNat_shiftLeft, toNat_ofNat, Nat.shiftLeft_eq]
  omega

theorem Placed.pageAt_inj {j : Nat} (hj : j < n) (h : pageAt addr i = pageAt addr j) : i = j := by
  rw [← toNat_inj, hr.toNat_pageAt hi, hr.toNat_pageAt hj] at h
  omega

/-- The index that `free_physical_page` computes for a page of its region. -/
theorem Placed.index_pageAt : ((pageAt addr i - addr) >>> 12).toNat = i := by
  have haddr := hr.toNat_pageAt hi
  have hle : addr.toNat ≤ (pageAt addr i).toNat := by omega
  rw [toNat_ushiftRight, toNat_sub_of_le hle, haddr, Nat.shiftRight_eq_div_pow]
  omega

theorem Placed.aligned_pageAt : (pageAt addr i &&& 0xFFF#64 == 0#64) = true := by
  have haddr := hr.toNat_pageAt hi
  have hal := hr.aligned
  rw [beq_iff_eq, ← toNat_inj, show (0xFFF#64) = lowMask 12 from rfl, toNat_and_lowMask _ (by norm_num), haddr]
  simp
  omega

end

/-- What `free_physical_page` does to a page of its region that is used. -/
theorem run_freePhysicalPage {h : RegionHeader} (hr : Placed h.addr n) (hi : i < n)
    (hbit : bit m h.addr i = true) : (freePhysicalPage h (pageAt h.addr i)).run m =
      .ok { h with numberOfPagesUsed := h.numberOfPagesUsed - 1 } (setBit m h.addr i false) := by
  unfold freePhysicalPage
  rw [run_bind_eq (run_assert_true (hr.aligned_pageAt hi) _ _)]
  rw [hr.index_pageAt hi, run_bind_eq run_readAllocationBitmap, hbit]
  rfl

theorem RegionOk.headerPages_le (hr : RegionOk addr n) : headerPages n ≤ n := RegionHeader.headerPages_le hr.nonempty

theorem usedPages_setBit_true (hi : i < n) (h : bit m addr i = false) :
    (usedPages (setBit m addr i true) addr n).card = (usedPages m addr n).card + 1 := by
  have hset : usedPages (setBit m addr i true) addr n = insert i (usedPages m addr n) := by
    ext j
    simp only [usedPages, Finset.mem_filter, Finset.mem_insert, Finset.mem_range, bit_setBit]
    by_cases hji : j = i
    · simp [hji, hi]
    · simp [hji]
  rw [hset, Finset.card_insert_of_notMem]
  simp [usedPages, h]

theorem usedPages_setBit_false (hi : i < n) (h : bit m addr i = true) :
    (usedPages (setBit m addr i false) addr n).card = (usedPages m addr n).card - 1 := by
  have hset : usedPages (setBit m addr i false) addr n = (usedPages m addr n).erase i := by
    ext j
    simp only [usedPages, Finset.mem_filter, Finset.mem_erase, Finset.mem_range, bit_setBit]
    by_cases hji : j = i
    · simp [hji]
    · simp [hji]
  rw [hset, Finset.card_erase_of_mem]
  simp [usedPages, h, hi]

theorem usedPages_congr {m' : PhysBytes} (h : ∀ i < n, bit m' addr i = bit m addr i) :
    usedPages m' addr n = usedPages m addr n :=
  Finset.filter_congr fun i hi => by rw [h i (Finset.mem_range.1 hi)]

/-- All bits are set exactly when there are `n` of them. -/
theorem card_usedPages_eq_iff : (usedPages m addr n).card = n ↔ ∀ i < n, bit m addr i = true := by
  have hcard := Finset.card_filter_eq_iff (s := Finset.range n) (p := fun i => bit m addr i = true)
  simpa [usedPages] using hcard

theorem card_usedPages_of_lt {k : Nat} (hk : k ≤ n) (h : ∀ i < n, bit m addr i = decide (i < k)) :
    (usedPages m addr n).card = k := by
  have hset : usedPages m addr n = Finset.range k := by
    ext i
    simp only [usedPages, Finset.mem_filter, Finset.mem_range]
    constructor
    · rintro ⟨hi, hbit⟩
      rw [h i hi] at hbit
      exact of_decide_eq_true hbit
    · intro hi
      exact ⟨by omega, by rw [h i (by omega), decide_eq_true hi]⟩
  rw [hset, Finset.card_range]

/-! ## The invariant -/

/-- What holds in every state of a run. -/
structure Inv (addr : Word) (n : Nat) (s : Region) : Prop where
  base : s.header.addr = addr
  pages : s.header.numberOfPages = n
  next : s.header.nextPossibleFreeIndex ≤ n
  used : s.header.numberOfPagesUsed = (usedPages s.mem addr n).card
  header : ∀ i < headerPages n, bit s.mem addr i = true
  nodup : s.live.Nodup
  live : ∀ page ∈ s.live, ∃ i, headerPages n ≤ i ∧ i < n ∧ page = pageAt addr i ∧ bit s.mem addr i = true

variable {s : Region}

theorem inv_init (hr : RegionOk addr n) (m0 : PhysBytes) :
    ∃ h m, (init addr n).run m0 = .ok h m ∧ Inv addr n ⟨m, h, []⟩ := by
  obtain ⟨m, hrun, hbits, -⟩ := run_init addr n m0
  have hle := hr.headerPages_le
  refine ⟨_, m, hrun, rfl, rfl, Nat.zero_le n, ?_, fun i hi => ?_, List.nodup_nil, by simp⟩
  · exact (card_usedPages_of_lt hle hbits).symm
  · rw [hbits i (by omega), decide_eq_true hi]

/-- A change of one bit, of a page that does not belong to the header. -/
theorem Inv.changeBit (h : Inv addr n s) (hi : headerPages n ≤ i) (data : Bool) :
    (∀ j < headerPages n, bit (setBit s.mem addr i data) addr j = true) ∧ ∀ page ∈ s.live, page ≠ pageAt addr i →
        ∃ j, headerPages n ≤ j ∧ j < n ∧ page = pageAt addr j ∧ bit (setBit s.mem addr i data) addr j = true := by
  constructor
  · intro j hj
    rw [bit_setBit, if_neg (by omega)]
    exact h.header j hj
  · intro page hpage hne
    obtain ⟨j, h1, h2, rfl, hbit⟩ := h.live page hpage
    refine ⟨j, h1, h2, rfl, ?_⟩
    rw [bit_setBit, if_neg]
    · exact hbit
    · rintro rfl
      exact hne rfl

/-- The search finds a free page, or there is none. -/
theorem run_searchFrom_cases (addr : Word) {next : Nat} (hnext : next ≤ n) :
    (∃ i < n, bit m addr i = false ∧ (searchFrom addr next n).run m = .ok (some i) (setBit m addr i true)) ∨
      (searchFrom addr next n).run m = .ok none m ∧ ∀ i < n, bit m addr i = true := by
  unfold searchFrom
  rcases run_searchLoop (m := m) addr (n - next) next with ⟨i, h1, h2, hi, hrun⟩ | ⟨hrun, hall⟩
  · refine .inl ⟨i, by omega, hi, ?_⟩
    rw [run_bind_eq hrun]
    rfl
  · rcases run_searchLoop (m := m) addr next 0 with ⟨i, h1, h2, hi, hrun'⟩ | ⟨hrun', hall'⟩
    · refine .inl ⟨i, by omega, hi, ?_⟩
      rw [run_bind_eq hrun]
      exact hrun'
    · refine .inr ⟨?_, fun i hi => ?_⟩
      · rw [run_bind_eq hrun]
        exact hrun'
      · rcases Nat.lt_or_ge i next with hlt | hge
        · exact hall' i (Nat.zero_le i) (by omega)
        · exact hall i hge (by omega)

/-- The free page that a call hands out. -/
theorem Inv.allocate (hr : RegionOk addr n) (h : Inv addr n s) (hroom : s.header.numberOfPagesUsed ≠ n) :
    ∃ i h' m, headerPages n ≤ i ∧ i < n ∧ pageAt addr i ∉ s.live ∧
      (allocatePhysicalPage [s.header]).run s.mem = .ok (some (pageAt addr i), [h']) m ∧
      Inv addr n ⟨m, h', pageAt addr i :: s.live⟩ := by
  have hex : ∃ i < n, bit s.mem addr i = false := by
    by_contra hall
    push Not at hall
    refine hroom (h.used.trans (card_usedPages_eq_iff.2 fun i hi => ?_))
    simpa using hall i hi
  obtain ⟨i, hi, hbit, hrun⟩ : ∃ i < n, bit s.mem addr i = false ∧
      (searchFrom addr s.header.nextPossibleFreeIndex n).run s.mem = .ok (some i) (setBit s.mem addr i true) := by
    rcases run_searchFrom_cases addr h.next with hfound | ⟨-, hall⟩
    · exact hfound
    · obtain ⟨i, hi, hbit⟩ := hex
      rw [hall i hi] at hbit
      cases hbit
  have hheader : headerPages n ≤ i := by
    by_contra hlt
    rw [h.header i (by omega)] at hbit
    cases hbit
  have hlive : pageAt addr i ∉ s.live := by
    intro hmem
    obtain ⟨_, -, hj, he, hset⟩ := h.live _ hmem
    rw [← hr.placed.pageAt_inj hi hj he, hbit] at hset
    cases hset
  obtain ⟨hheader', hlive'⟩ := h.changeBit hheader true
  refine ⟨i, ⟨addr, n, s.header.numberOfPagesUsed + 1, i + 1⟩, setBit s.mem addr i true, hheader, hi, hlive, ?_, rfl,
    rfl, hi, ?_, hheader', List.nodup_cons.2 ⟨hlive, h.nodup⟩, ?_⟩
  · rw [allocatePhysicalPage, if_neg (by rw [h.pages]; exact hroom), h.base, h.pages,
      run_bind_eq (run_assert_true (decide_eq_true h.next) _ _), run_bind_eq hrun]
    rfl
  · rw [usedPages_setBit_true hi hbit]
    exact congrArg (· + 1) h.used
  · intro page hpage
    rcases List.mem_cons.1 hpage with rfl | hmem
    · refine ⟨i, hheader, hi, rfl, ?_⟩
      rw [bit_setBit, if_pos rfl]
    · exact hlive' page hmem fun he => hlive (he ▸ hmem)

/-- A call when all pages are used. -/
theorem Inv.full (h : Inv addr n s) (hfull : s.header.numberOfPagesUsed = n) :
    (allocatePhysicalPage [s.header]).run s.mem = .ok (none, [s.header]) s.mem := by
  rw [allocatePhysicalPage, if_pos (by rw [h.pages]; exact hfull)]
  rfl

/-- A page that is given back. -/
theorem Inv.free (hr : RegionOk addr n) (h : Inv addr n s) (hpage : page ∈ s.live) :
    ∃ h' m, (freePhysicalPage s.header page).run s.mem = .ok h' m ∧ Inv addr n ⟨m, h', s.live.erase page⟩ := by
  obtain ⟨_, hheader, hi, rfl, hbit⟩ := h.live page hpage
  obtain ⟨hheader', hlive'⟩ := h.changeBit hheader false
  have hrun := run_freePhysicalPage (h := s.header) (h.base ▸ hr.placed) hi (h.base ▸ hbit)
  rw [h.base] at hrun
  refine ⟨_, _, hrun, rfl, h.pages, h.next, ?_, hheader', h.nodup.erase _, fun page hmem => ?_⟩
  · rw [usedPages_setBit_false hi hbit]
    exact congrArg (· - 1) h.used
  · obtain ⟨hne, hmem'⟩ := (h.nodup.mem_erase_iff).1 hmem
    exact hlive' page hmem' hne

/-- A write into a live page does not come to the bitmap. -/
theorem Inv.write (hr : RegionOk addr n) (h : Inv addr n s) (hpage : page ∈ s.live) {a : Nat} (h1 : page.toNat ≤ a)
    (b : BitVec 8) : Inv addr n { s with mem := Function.update s.mem a b } := by
  obtain ⟨i, hheader, hi, rfl, -⟩ := h.live page hpage
  have hbits : ∀ j < n, bit (Function.update s.mem a b) addr j = bit s.mem addr j := by
    intro j hj
    have hbitmap := hr.bitmap
    have haddr := hr.placed.toNat_pageAt hi
    unfold bit
    rw [Function.update_of_ne]
    unfold bitmapAddr
    omega
  refine ⟨h.base, h.pages, h.next, ?_, fun j hj => ?_, h.nodup, fun page hmem => ?_⟩
  · rw [usedPages_congr hbits]
    exact h.used
  · rw [hbits j (by omega)]
    exact h.header j hj
  · obtain ⟨j, hj1, hj2, he, hbit⟩ := h.live page hmem
    refine ⟨j, hj1, hj2, he, ?_⟩
    rw [hbits j hj2]
    exact hbit

theorem Runs.inv (hr : RegionOk addr n) (h : Runs addr n s) : Inv addr n s := by
  induction h with
  | @init m0 m h hrun =>
    obtain ⟨h', m', hrun', hinv⟩ := inv_init hr m0
    cases hrun'.symm.trans hrun
    exact hinv
  | @allocate s page h m _ hrun ih =>
    by_cases hfull : s.header.numberOfPagesUsed = n
    · cases (ih.full hfull).symm.trans hrun
    · obtain ⟨i, h', m', -, -, -, hrun', hinv⟩ := ih.allocate hr hfull
      cases hrun'.symm.trans hrun
      exact hinv
  | @full s h m _ hrun ih =>
    by_cases hfull : s.header.numberOfPagesUsed = n
    · cases (ih.full hfull).symm.trans hrun
      exact ih
    · obtain ⟨i, h', m', -, -, -, hrun', -⟩ := ih.allocate hr hfull
      cases hrun'.symm.trans hrun
  | free _ hpage hrun ih =>
    obtain ⟨h', m', hrun', hinv⟩ := ih.free hr hpage
    cases hrun'.symm.trans hrun
    exact hinv
  | write b _ hpage h1 _ ih => exact ih.write hr hpage h1 b

/-- The allocator over any history. In every state of a region that it comes to, the counter is the number of the bits
that are set, a call of `allocate_physical_page` returns, with `None` exactly when all pages are used and otherwise with
the address of a page of the region that is neither the header's nor the bitmap's nor live, and every live page can be
given back. -/
theorem allocator_safe (hr : RegionOk addr n) : (∀ m0, ∃ h m, (init addr n).run m0 = .ok h m) ∧ ∀ s, Runs addr n s →
      s.header.numberOfPagesUsed = (usedPages s.mem addr n).card ∧
      (∃ result h m, (allocatePhysicalPage [s.header]).run s.mem = .ok (result, [h]) m ∧
        (result = none ↔ ∀ i < n, bit s.mem addr i = true) ∧
        ∀ page, result = some page → page.toNat % 4096 = 0 ∧ addr.toNat ≤ page.toNat ∧
          page.toNat + 4096 ≤ addr.toNat + 4096 * n ∧ addr.toNat + size + (n + 7) / 8 ≤ page.toNat ∧ page ∉ s.live) ∧
      ∀ page ∈ s.live, ∃ h m, (freePhysicalPage s.header page).run s.mem = .ok h m := by
  constructor
  · intro m0
    obtain ⟨h, m, hrun, -⟩ := inv_init hr m0
    exact ⟨h, m, hrun⟩
  · intro s hs
    have hinv := hs.inv hr
    refine ⟨hinv.used, ?_, fun page hpage => ?_⟩
    · by_cases hfull : s.header.numberOfPagesUsed = n
      · refine ⟨none, s.header, s.mem, hinv.full hfull, iff_of_true rfl ?_, fun page he => by cases he⟩
        exact card_usedPages_eq_iff.1 (hinv.used.symm.trans hfull)
      · obtain ⟨i, h, m, hheader, hi, hlive, hrun, -⟩ := hinv.allocate hr hfull
        refine ⟨_, h, m, hrun, iff_of_false (by simp)
          fun hall => hfull (hinv.used.trans (card_usedPages_eq_iff.2 hall)), ?_⟩
        rintro page ⟨⟩
        have haddr := hr.placed.toNat_pageAt hi
        have hal := hr.aligned
        have hbitmap := hr.bitmap
        exact ⟨by omega, by omega, by omega, by omega, hlive⟩
    · obtain ⟨h, m, hrun, -⟩ := hinv.free hr hpage
      exact ⟨h, m, hrun⟩

theorem allocator_safe_two : ∃ h m, (init 0x1000#64 2).run (fun _ => 0xFF#8) = .ok h m ∧
    ∃ result h' m', (allocatePhysicalPage [h]).run m = .ok (result, [h']) m' ∧
      (result = none ↔ ∀ i < 2, bit m 0x1000#64 i = true) := by
  have hregion : RegionOk 0x1000#64 2 := ⟨by decide, by decide, by decide, by decide⟩
  obtain ⟨hinit, hruns⟩ := allocator_safe hregion
  obtain ⟨h, m, hrun⟩ := hinit fun _ => 0xFF#8
  obtain ⟨-, ⟨result, h', m', hrun', hnone, -⟩, -⟩ := hruns _ (.init hrun)
  exact ⟨h, m, hrun, result, h', m', hrun', hnone⟩

end

end Liumos.Loader
