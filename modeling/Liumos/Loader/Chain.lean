/-
Regions of the loader's page allocator in a chain. `allocate_physical_page` goes along the chain until it finds
a region with a free page; `free_physical_page` looks at the region it is called on only. A page that was handed
out through the head of a chain can be given back through the head exactly if it lies in the region of the head.
Sources: loader/src/physical_page_allocator.rs, loader/src/main.rs (`main_without_boot_services`).
-/
import Liumos.Loader.PageSafety

namespace Liumos.Loader

open RegionHeader List

/-! ## Chains and their runs -/

/-- The loop of `main_without_boot_services` over the memory map. Each region is initialized and, with `set_next`, put
in front of the chain so far. -/
def linkRegions : List (Word × Nat) → List RegionHeader → KM PhysBytes (List RegionHeader)
  | [], chain => return chain
  | (addr, numberOfPages) :: rest, chain => do
    let header ← init addr numberOfPages
    linkRegions rest (header :: chain)

/-- A chain of regions with the pages that have been handed out and not given back. -/
structure Chain where
  mem : PhysBytes
  regions : List RegionHeader
  live : List Word

/-- Where a region lies. -/
def RegionHeader.extent (h : RegionHeader) : Word × Nat := (h.addr, h.numberOfPages)

def Apart (r t : Word × Nat) : Prop := r.1.toNat + 4096 * r.2 ≤ t.1.toNat ∨ t.1.toNat + 4096 * t.2 ≤ r.1.toNat

instance : Std.Symm fun g h : RegionHeader => Apart g.extent h.extent := ⟨fun _ _ => Or.symm⟩

/-- The address lies in the region. -/
def Inside (r : Word × Nat) (x : Nat) : Prop := r.1.toNat ≤ x ∧ x < r.1.toNat + 4096 * r.2

/-- The page lies in the region. -/
def RegionHeader.Holds (h : RegionHeader) (page : Word) : Prop := Inside h.extent page.toNat

/-- The page lies in the region at the head of the chain. -/
def Chain.InHead (s : Chain) (page : Word) : Prop := ∃ head ∈ s.regions.head?, head.Holds page

/-- The states that a chain comes to by calls on its head, as long as what is given back lies in the region of the
head. -/
inductive ChainRuns (rs : List (Word × Nat)) : Chain → Prop
  | init {m0 chain m} : (linkRegions rs []).run m0 = .ok chain m → ChainRuns rs ⟨m, chain, []⟩
  | allocate {s page chain m} : ChainRuns rs s → (allocatePhysicalPage s.regions).run s.mem = .ok (some page, chain) m →
      ChainRuns rs ⟨m, chain, page :: s.live⟩
  | full {s chain m} : ChainRuns rs s → (allocatePhysicalPage s.regions).run s.mem = .ok (none, chain) m →
      ChainRuns rs ⟨m, chain, s.live⟩
  | free {s page head head' rest m} : ChainRuns rs s → page ∈ s.live → s.regions = head :: rest → head.Holds page →
      (freePhysicalPage head page).run s.mem = .ok head' m → ChainRuns rs ⟨m, head' :: rest, s.live.erase page⟩

/-- What `allocate_physical_page` returns after `k` calls before it. -/
def allocateNth : Nat → List RegionHeader → KM PhysBytes (Option Word)
  | 0, chain => do return (← allocatePhysicalPage chain).1
  | k + 1, chain => do allocateNth k (← allocatePhysicalPage chain).2

/-- Calls of `allocate_physical_page` come to hand out the page. -/
def Allocatable (m : PhysBytes) (chain : List RegionHeader) (page : Word) : Prop :=
  ∃ k m', (allocateNth k chain).run m = .ok (some page) m'

/-- `free_physical_page` on the head returns, the page can be handed out again and otherwise the same pages as before,
and the bits of all other pages are what they were. -/
def FreesExactly (s : Chain) (page : Word) : Prop :=
  ∃ head rest head' m, s.regions = head :: rest ∧ (freePhysicalPage head page).run s.mem = .ok head' m ∧
    (∀ q, Allocatable m (head' :: rest) q ↔ q = page ∨ Allocatable s.mem s.regions q) ∧
    ∀ h ∈ s.regions, ∀ i < h.numberOfPages, pageAt h.addr i ≠ page → bit m h.addr i = bit s.mem h.addr i

/-! ## Bits of different regions -/

section

variable {m m' : PhysBytes} {a b page : Word} {n k i j : Nat} {h g : RegionHeader} {chain : List RegionHeader}

theorem Apart.ne {r t : Word × Nat} {x y : Nat} (h : Apart r t) (hx : Inside r x) (hy : Inside t y) : y ≠ x := by
  unfold Apart Inside at *
  omega

/-- The bitmap lies in its region. -/
theorem bitmapAddr_inside (a : Word) (hi : i < n) : Inside (a, n) (bitmapAddr a i) := by
  unfold Inside bitmapAddr size
  dsimp only
  omega

theorem bitmapAddr_ne_of_apart (hab : Apart (a, n) (b, k)) (hi : i < n) (hj : j < k) :
    bitmapAddr b j ≠ bitmapAddr a i :=
  hab.ne (bitmapAddr_inside a hi) (bitmapAddr_inside b hj)

theorem bit_congr (h : m' (bitmapAddr a i) = m (bitmapAddr a i)) : bit m' a i = bit m a i := by
  unfold bit
  rw [h]

theorem bit_setBit_of_ne (h : bitmapAddr b j ≠ bitmapAddr a i) (data : Bool) :
    bit (setBit m a i data) b j = bit m b j :=
  bit_congr (Function.update_of_ne h _ _)

/-- Marking a page as used clears no bit anywhere. -/
theorem bit_setBit_true (h : bit m b j = true) : bit (setBit m a i true) b j = true := by
  unfold bit setBit at *
  by_cases hx : bitmapAddr b j = bitmapAddr a i
  · rw [hx] at h ⊢
    rw [Function.update_self, if_pos rfl, BitVec.getLsbD_or, h, Bool.true_or]
  · rw [Function.update_of_ne hx]
    exact h

/-! ## What a call of `allocate_physical_page` does -/

/-- The header after its page `i` was handed out. -/
def RegionHeader.handedOut (h : RegionHeader) (i : Nat) : RegionHeader :=
  { h with nextPossibleFreeIndex := i + 1, numberOfPagesUsed := h.numberOfPagesUsed + 1 }

/-- The regions before the one with the page are full. A call that panics has come to a region that is not full by its
counter and has no free page. -/
theorem run_allocatePhysicalPage (m : PhysBytes) : ∀ chain : List RegionHeader,
    ((allocatePhysicalPage chain).run m = .ok (none, chain) m ∧ ∀ h ∈ chain, h.numberOfPagesUsed = h.numberOfPages) ∨
    (∃ pre h post i, chain = pre ++ h :: post ∧ i < h.numberOfPages ∧ bit m h.addr i = false ∧
      (allocatePhysicalPage chain).run m = .ok (some (pageAt h.addr i), pre ++ h.handedOut i :: post)
    (setBit m h.addr i true)) ∨ (∃ h ∈ chain, h.numberOfPagesUsed ≠ h.numberOfPages ∧
      (h.nextPossibleFreeIndex ≤ h.numberOfPages → ∀ i < h.numberOfPages, bit m h.addr i = true) ∧
      ∃ e, (allocatePhysicalPage chain).run m = .error e m)
  | [] => .inl ⟨rfl, by simp⟩
  | self :: next => by
    rw [allocatePhysicalPage]
    split_ifs with hfull
    · rcases run_allocatePhysicalPage m next with ⟨hrun, hall⟩ | ⟨pre, h, post, i, rfl, hi, hbit, hrun⟩
      | ⟨h, hh, hne, hbits, e, hrun⟩
      · refine .inl ⟨?_, ?_⟩
        · rw [run_bind_eq hrun]
          rfl
        · rintro h (_ | ⟨_, hh⟩)
          · exact hfull
          · exact hall h hh
      · refine .inr (.inl ⟨self :: pre, h, post, i, rfl, hi, hbit, ?_⟩)
        rw [run_bind_eq hrun]
        rfl
      · exact .inr (.inr ⟨h, mem_cons_of_mem self hh, hne, hbits, e, run_bind_error hrun⟩)
    · by_cases hnext : self.nextPossibleFreeIndex ≤ self.numberOfPages
      · rw [run_bind_eq (run_assert_true (decide_eq_true hnext) _ _)]
        rcases run_searchFrom_cases (m := m) self.addr hnext with ⟨i, hi, hbit, hrun⟩ | ⟨hrun, hall⟩
        · refine .inr (.inl ⟨[], self, next, i, rfl, hi, hbit, ?_⟩)
          rw [run_bind_eq hrun]
          rfl
        · refine .inr (.inr ⟨self, mem_cons_self, hfull, fun _ => hall, .assertFailed "free_index.is_some()", ?_⟩)
          rw [run_bind_eq hrun]
          rfl
      · exact .inr (.inr ⟨self, mem_cons_self, hfull, fun h => absurd h hnext, _,
          run_bind_error (run_assert_false (decide_eq_false hnext) _ _)⟩)

variable {chain' post rest : List RegionHeader} {data x : Bool} {h' head : RegionHeader} {s : Chain}

/-- What a call that returns has done. -/
theorem of_run_allocatePhysicalPage {r : Option Word} (hrun : (allocatePhysicalPage chain).run m = .ok (r, chain') m') :
    (r = none ∧ chain' = chain ∧ m' = m) ∨
      ∃ pre h post i, chain = pre ++ h :: post ∧ i < h.numberOfPages ∧ bit m h.addr i = false ∧
      r = some (pageAt h.addr i) ∧
        chain' = pre ++ h.handedOut i :: post ∧ m' = setBit m h.addr i true := by
  rcases run_allocatePhysicalPage m chain with ⟨hr, -⟩ | ⟨pre, h, post, i, rfl, hi, hbit, hr⟩ | ⟨-, -, -, -, _, hr⟩
  · obtain ⟨hres, rfl⟩ := EStateM.Result.ok.inj (hrun.symm.trans hr)
    exact .inl ⟨congrArg Prod.fst hres, congrArg Prod.snd hres, rfl⟩
  · obtain ⟨hres, rfl⟩ := EStateM.Result.ok.inj (hrun.symm.trans hr)
    exact .inr ⟨pre, h, post, i, rfl, hi, hbit, congrArg Prod.fst hres, congrArg Prod.snd hres, rfl⟩
  · cases hrun.symm.trans hr

/-! ## Pages that can be handed out -/

/-- The page is one of the chain's, and this is its bit. -/
def HasBit (chain : List RegionHeader) (m : PhysBytes) (page : Word) (data : Bool) : Prop :=
  ∃ h ∈ chain, ∃ i < h.numberOfPages, page = pageAt h.addr i ∧ bit m h.addr i = data

theorem extent_handedOut (pre post : List RegionHeader) (h : RegionHeader) (i : Nat) :
    (pre ++ h.handedOut i :: post).map extent = (pre ++ h :: post).map extent := by
  simp [handedOut, extent]

theorem HasBit.of_extent (hb : HasBit chain m page data)
    (he : chain'.map extent = chain.map extent) (hbits : ∀ h ∈ chain, ∀ i < h.numberOfPages, page = pageAt h.addr i →
      bit m h.addr i = data → bit m' h.addr i = data) : HasBit chain' m' page data := by
  obtain ⟨h, hh, i, hi, rfl, hbit⟩ := hb
  have hmem : h.extent ∈ chain'.map extent := he ▸ mem_map_of_mem hh
  obtain ⟨g, hg, heq⟩ := mem_map.1 hmem
  have haddr : g.addr = h.addr := congrArg Prod.fst heq
  have hpages : g.numberOfPages = h.numberOfPages := congrArg Prod.snd heq
  refine ⟨g, hg, i, hpages ▸ hi, by rw [haddr], ?_⟩
  rw [haddr]
  exact hbits h hh i hi rfl hbit

/-- What calls of `allocate_physical_page` come to hand out is free, whatever the counters of the headers say. -/
theorem free_of_allocatable (ha : Allocatable m chain page) : HasBit chain m page false := by
  obtain ⟨k, _, hrun⟩ := ha
  induction k generalizing chain m with
  | zero =>
    obtain ⟨⟨r, chain'⟩, t, hcall, hret⟩ := run_bind_ok hrun
    obtain ⟨rfl, rfl⟩ := run_pure_ok hret
    rcases of_run_allocatePhysicalPage hcall with ⟨hr, -⟩ | ⟨pre, h, post, i, rfl, hi, hbit, hr, -⟩
    · cases hr
    · exact ⟨h, by simp, i, hi, Option.some.inj hr, hbit⟩
  | succ k ih =>
    obtain ⟨⟨_, _⟩, _, hcall, hrest⟩ := run_bind_ok hrun
    rcases of_run_allocatePhysicalPage hcall with ⟨-, rfl, rfl⟩ | ⟨pre, h, post, i, rfl, -, -, -, rfl, rfl⟩
    · exact ih hrest
    · refine (ih hrest).of_extent (extent_handedOut pre post h i).symm fun g _ j _ _ hfree => ?_
      by_contra hset
      rw [bit_setBit_true (Bool.not_eq_false _ ▸ hset)] at hfree
      cases hfree

/-! ## The invariant -/

/-- Regions that do not overlap. -/
structure ChainOk (rs : List (Word × Nat)) : Prop where
  placed : ∀ r ∈ rs, Placed r.1 r.2
  apart : rs.Pairwise Apart

/-- The counter of a header is the number of the bits that are set. -/
structure Counted (m : PhysBytes) (h : RegionHeader) : Prop where
  next : h.nextPossibleFreeIndex ≤ h.numberOfPages
  used : h.numberOfPagesUsed = (usedPages m h.addr h.numberOfPages).card

theorem Counted.congr (hc : Counted m h) (hbits : ∀ j < h.numberOfPages, bit m' h.addr j = bit m h.addr j) :
    Counted m' h := by
  refine ⟨hc.next, ?_⟩
  rw [usedPages_congr hbits]
  exact hc.used

structure ChainInv (chain : List RegionHeader) (m : PhysBytes) : Prop where
  ok : ChainOk (chain.map extent)
  counted : ∀ h ∈ chain, Counted m h

section

variable (hc : ChainInv chain m) (hh : h ∈ chain)

include hc hh

theorem ChainInv.placed : Placed h.addr h.numberOfPages := hc.ok.placed h.extent (mem_map_of_mem hh)

theorem ChainInv.apart (hg : g ∈ chain) (hne : h ≠ g) : Apart h.extent g.extent :=
  (pairwise_map.1 hc.ok.apart).forall hh hg hne

theorem ChainInv.holds_pageAt (hi : i < h.numberOfPages) : h.Holds (pageAt h.addr i) := by
  have := (hc.placed hh).toNat_pageAt hi
  unfold Holds Inside extent
  dsimp only
  omega

/-- A page lies in one region only. -/
theorem ChainInv.holds_inj (hg : g ∈ chain) (h1 : h.Holds page) (h2 : g.Holds page) : h = g := by
  by_contra hne
  exact (hc.apart hh hg hne).ne h1 h2 rfl

theorem ChainInv.pageAt_inj (hg : g ∈ chain) (hi : i < h.numberOfPages)
    (hj : j < g.numberOfPages) (he : pageAt h.addr i = pageAt g.addr j) : h = g ∧ i = j := by
  obtain rfl := hc.holds_inj hh hg (hc.holds_pageAt hh hi) (he ▸ hc.holds_pageAt hg hj)
  exact ⟨rfl, (hc.placed hh).pageAt_inj hi hj he⟩

end

/-- A page has one bit. -/
theorem ChainInv.hasBit_inj {y : Bool} (hc : ChainInv chain m) (h1 : HasBit chain m page x)
    (h2 : HasBit chain m page y) : x = y := by
  obtain ⟨h, hh, i, hi, rfl, rfl⟩ := h1
  obtain ⟨g, hg, j, hj, he, rfl⟩ := h2
  obtain ⟨rfl, rfl⟩ := hc.pageAt_inj hh hg hi hj he
  rfl

/-- Changing the bit of one page of the chain leaves those of the others. -/
theorem ChainInv.bit_setBit_of_page_ne (hc : ChainInv chain m) (hh : h ∈ chain) (hi : i < h.numberOfPages)
    (hg : g ∈ chain) (hj : j < g.numberOfPages) (hne : pageAt g.addr j ≠ pageAt h.addr i) (data : Bool) :
    bit (setBit m h.addr i data) g.addr j = bit m g.addr j := by
  by_cases hsame : h = g
  · subst hsame
    rw [bit_setBit, if_neg]
    rintro rfl
    exact hne rfl
  · exact bit_setBit_of_ne (bitmapAddr_ne_of_apart (hc.apart hh hg hsame) hi hj) data

/-- The other pages of the chain, whatever its counters become. -/
theorem ChainInv.hasBit_setBit (hc : ChainInv chain m) (hh : h ∈ chain) (hi : i < h.numberOfPages)
    (data : Bool) (he : chain'.map extent = chain.map extent) (hne : page ≠ pageAt h.addr i) :
    HasBit chain' (setBit m h.addr i data) page x ↔ HasBit chain m page x := by
  have hbits : ∀ g ∈ chain, ∀ j < g.numberOfPages, page = pageAt g.addr j →
      bit (setBit m h.addr i data) g.addr j = bit m g.addr j := by
    rintro g hg j hj rfl
    exact hc.bit_setBit_of_page_ne hh hi hg hj hne data
  constructor
  · intro hb
    -- the chain itself is the one whose bits are known
    refine (hb.of_extent he.symm fun _ _ _ _ _ hset => hset).of_extent rfl fun g hg j hj hpage hset => ?_
    rw [← hbits g hg j hj hpage, hset]
  · intro hb
    refine hb.of_extent he fun g hg j hj hpage hset => ?_
    rw [hbits g hg j hj hpage, hset]

theorem hasBit_setBit_self (hh : h ∈ chain) (hi : i < h.numberOfPages)
    (he : chain'.map extent = chain.map extent) : HasBit chain' (setBit m h.addr i data) (pageAt h.addr i) data := by
  have hb : HasBit chain (setBit m h.addr i data) (pageAt h.addr i) data :=
    ⟨h, hh, i, hi, rfl, by rw [bit_setBit, if_pos rfl]⟩
  exact hb.of_extent he fun _ _ _ _ _ hset => hset

/-- A change of one bit of one region, with a header that counts it. -/
theorem ChainInv.update (pre : List RegionHeader) (hc : ChainInv (pre ++ h :: post) m) (hi : i < h.numberOfPages)
    (data : Bool) (he : h'.extent = h.extent) (hcount : Counted (setBit m h.addr i data) h') :
    ChainInv (pre ++ h' :: post) (setBit m h.addr i data) := by
  have hmap : (pre ++ h' :: post).map extent = (pre ++ h :: post).map extent := by simp [he]
  have hpw : (h :: (pre ++ post)).Pairwise fun g t => Apart g.extent t.extent :=
    (perm_middle.pairwise_iff fun hab => Or.symm hab).1 (pairwise_map.1 hc.ok.apart)
  have hother := (pairwise_cons.1 hpw).1
  constructor
  · rw [hmap]
    exact hc.ok
  · intro g hg
    rcases mem_cons.1 (perm_middle.mem_iff.1 hg) with rfl | hg
    · exact hcount
    · have hg' : g ∈ pre ++ h :: post := perm_middle.mem_iff.2 (mem_cons_of_mem h hg)
      exact (hc.counted g hg').congr fun j hj => bit_setBit_of_ne (bitmapAddr_ne_of_apart (hother g hg) hi hj) data

theorem ChainInv.handOut {pre : List RegionHeader} (hc : ChainInv (pre ++ h :: post) m) (hi : i < h.numberOfPages)
    (hbit : bit m h.addr i = false) : ChainInv (pre ++ h.handedOut i :: post) (setBit m h.addr i true) := by
  refine hc.update pre hi true rfl ⟨hi, ?_⟩
  show h.numberOfPagesUsed + 1 = (usedPages (setBit m h.addr i true) h.addr h.numberOfPages).card
  rw [usedPages_setBit_true hi hbit, (hc.counted h (by simp)).used]

/-- With counters that are right, a call returns; nothing is returned only when all pages are used. -/
theorem ChainInv.run_allocate (hc : ChainInv chain m) :
    ((allocatePhysicalPage chain).run m = .ok (none, chain) m ∧ ∀ h ∈ chain, ∀ i < h.numberOfPages, bit m h.addr i =
      true) ∨ ∃ pre h post i, chain = pre ++ h :: post ∧ i < h.numberOfPages ∧ bit m h.addr i = false ∧
      (allocatePhysicalPage chain).run m = .ok (some (pageAt h.addr i), pre ++ h.handedOut i :: post)
      (setBit m h.addr i true) := by
  have hall : ∀ h ∈ chain, h.numberOfPagesUsed = h.numberOfPages ↔ ∀ i < h.numberOfPages, bit m h.addr i = true := by
    intro h hh
    rw [(hc.counted h hh).used]
    exact card_usedPages_eq_iff
  rcases run_allocatePhysicalPage m chain with ⟨hrun, hfull⟩ | hsome | ⟨h, hh, hne, hbits, -⟩
  · exact .inl ⟨hrun, fun h hh => (hall h hh).1 (hfull h hh)⟩
  · exact .inr hsome
  · exact absurd ((hall h hh).2 (hbits (hc.counted h hh).next)) hne

/-- The number of pages that are free, by the counters. -/
def freePages (chain : List RegionHeader) : Nat := (chain.map fun h => h.numberOfPages - h.numberOfPagesUsed).sum

theorem freePages_handedOut (pre post : List RegionHeader) (hlt : h.numberOfPagesUsed < h.numberOfPages) :
    freePages (pre ++ h.handedOut i :: post) < freePages (pre ++ h :: post) := by
  simp only [freePages, handedOut, map_append, map_cons, sum_append, sum_cons]
  omega

theorem Counted.lt_of_free (hc : Counted m h) (hi : i < h.numberOfPages) (hbit : bit m h.addr i = false) :
    h.numberOfPagesUsed < h.numberOfPages := by
  have hle : (usedPages m h.addr h.numberOfPages).card ≤ h.numberOfPages :=
    (Finset.card_filter_le _ _).trans_eq (Finset.card_range _)
  refine lt_of_le_of_ne (hc.used ▸ hle) fun heq => ?_
  rw [card_usedPages_eq_iff.1 (hc.used.symm.trans heq) i hi] at hbit
  cases hbit

/-- Every free page comes to be handed out. -/
theorem ChainInv.allocatable (hc : ChainInv chain m) (hfree : HasBit chain m page false) :
    Allocatable m chain page := by
  -- each call that hands out another page leaves one free page less
  induction hn : freePages chain using Nat.strong_induction_on generalizing chain m with
  | _ n ih =>
    rcases hc.run_allocate with ⟨-, hall⟩ | ⟨pre, h, post, i, rfl, hi, hbit, hrun⟩
    · obtain ⟨g, hg, j, hj, -, hbit⟩ := hfree
      rw [hall g hg j hj] at hbit
      cases hbit
    · by_cases hpage : page = pageAt h.addr i
      · refine ⟨0, setBit m h.addr i true, ?_⟩
        rw [allocateNth, run_bind_eq hrun, hpage]
        rfl
      · have hh : h ∈ pre ++ h :: post := by simp
        have hless := freePages_handedOut (i := i) pre post ((hc.counted h hh).lt_of_free hi hbit)
        have hstill := (hc.hasBit_setBit hh hi true (extent_handedOut pre post h i) hpage).2 hfree
        obtain ⟨k, m', hk⟩ := ih _ (hn ▸ hless) (hc.handOut hi hbit) hstill rfl
        refine ⟨k + 1, m', ?_⟩
        rw [allocateNth, run_bind_eq hrun]
        exact hk

theorem ChainInv.allocatable_iff (hc : ChainInv chain m) : Allocatable m chain page ↔ HasBit chain m page false :=
  ⟨free_of_allocatable, hc.allocatable⟩

/-! ## Initialization -/

/-- A region that is initialized and put in front. -/
theorem ChainInv.link (hc : ChainInv chain m) (hp : Placed a n) (hapart : ∀ g ∈ chain, Apart (a, n) g.extent) :
    ∃ h m', (init a n).run m = .ok h m' ∧ h.extent = (a, n) ∧ ChainInv (h :: chain) m' := by
  obtain ⟨m', hrun, hbits, hframe⟩ := run_init a n m
  have hle := headerPages_le hp.nonempty
  refine ⟨_, m', hrun, rfl, ?_, ?_⟩
  · constructor
    · rintro r (_ | ⟨_, hr⟩)
      · exact hp
      · exact hc.ok.placed r hr
    · rw [map_cons, pairwise_cons]
      refine ⟨?_, hc.ok.apart⟩
      rintro r hr
      obtain ⟨g, hg, rfl⟩ := mem_map.1 hr
      exact hapart g hg
  · rintro g (_ | ⟨_, hg⟩)
    · constructor
      · exact Nat.zero_le n
      · exact (card_usedPages_of_lt hle hbits).symm
    · refine (hc.counted g hg).congr fun j hj => bit_congr (hframe _ fun i hi => ?_)
      exact bitmapAddr_ne_of_apart (hapart g hg) (by omega) hj

theorem run_linkRegions :
    ∀ {rs : List (Word × Nat)} {chain : List RegionHeader} {m : PhysBytes}, ChainInv chain m → ChainOk rs →
    (∀ r ∈ rs, ∀ g ∈ chain, Apart r g.extent) → ∃ chain' m', (linkRegions rs chain).run m = .ok chain' m' ∧
    ChainInv chain' m'
  | [], chain, m, hc, _, _ => ⟨chain, m, rfl, hc⟩
  | (a, n) :: rs, chain, m, hc, hrs, hapart => by
    obtain ⟨h, _, hrun, hext, hc1⟩ := hc.link (hrs.placed (a, n) (by simp)) (hapart (a, n) (by simp))
    obtain ⟨hhead, htail⟩ := pairwise_cons.1 hrs.apart
    have hrest : ∀ r ∈ rs, ∀ g ∈ h :: chain, Apart r g.extent := by
      rintro r hr g (_ | ⟨_, hg⟩)
      · rw [hext]
        exact Or.symm (hhead r hr)
      · exact hapart r (mem_cons_of_mem _ hr) g hg
    obtain ⟨chain', m', hrun', hc'⟩ := run_linkRegions hc1
      ⟨fun r hr => hrs.placed r (mem_cons_of_mem _ hr), htail⟩ hrest
    refine ⟨chain', m', ?_, hc'⟩
    rw [linkRegions, run_bind_eq hrun]
    exact hrun'

/-! ## Giving pages back -/

/-- A page of the chain that lies in the region of the head is one of the head's. -/
theorem ChainInv.of_holds (hc : ChainInv (head :: rest) m) (hb : HasBit (head :: rest) m page data)
    (hhold : head.Holds page) : ∃ i < head.numberOfPages, page = pageAt head.addr i ∧ bit m head.addr i = data := by
  obtain ⟨h, hh, i, hi, rfl, hbit⟩ := hb
  obtain rfl := hc.holds_inj hh mem_cons_self (hc.holds_pageAt hh hi) hhold
  exact ⟨i, hi, rfl, hbit⟩

section

variable (hc : ChainInv (head :: rest) m) (hi : i < head.numberOfPages) (hbit : bit m head.addr i = true)

include hc hi hbit

theorem ChainInv.giveBack :
    ChainInv ({ head with numberOfPagesUsed := head.numberOfPagesUsed - 1 } :: rest) (setBit m head.addr i false) := by
  have hcount := hc.counted head mem_cons_self
  refine ChainInv.update [] hc hi false rfl ⟨hcount.next, ?_⟩
  rw [usedPages_setBit_false hi hbit, hcount.used]

theorem ChainInv.freesExactly (live : List Word) : FreesExactly ⟨m, head :: rest, live⟩ (pageAt head.addr i) := by
  have hmem : head ∈ head :: rest := mem_cons_self
  refine ⟨head, rest, _, _, rfl, run_freePhysicalPage (hc.placed hmem) hi hbit, fun q => ?_, fun g hg j hj hne =>
    hc.bit_setBit_of_page_ne hmem hi hg hj hne false⟩
  rw [(hc.giveBack hi hbit).allocatable_iff, hc.allocatable_iff]
  have hmap : ({ head with numberOfPagesUsed := head.numberOfPagesUsed - 1 } :: rest).map extent =
    (head :: rest).map extent := rfl
  by_cases hq : q = pageAt head.addr i
  · subst hq
    exact iff_of_true (hasBit_setBit_self hmem hi hmap) (.inl rfl)
  · rw [hc.hasBit_setBit hmem hi _ hmap hq, or_iff_right hq]

end

/-- The byte that `free_physical_page` takes for that of a page of another region is not the byte with its bit. -/
theorem bitmapAddr_index_ne (ha : Placed a n) (hb : Placed b k) (hab : Apart (a, n) (b, k)) (hj : j < k) :
    bitmapAddr b j ≠ bitmapAddr a ((pageAt b j - a) >>> 12).toNat := by
  have hpage := hb.toNat_pageAt hj
  have ha1 := ha.nonempty
  rcases hab with hlt | hlt
  · -- the region lies behind: its pages are 4096 bytes apart and their bits an eighth of a byte
    simp only at hlt
    have hle : a.toNat ≤ (pageAt b j).toNat := by omega
    have hindex : ((pageAt b j - a) >>> 12).toNat = (b.toNat + 4096 * j - a.toNat) / 4096 := by
      rw [BitVec.toNat_ushiftRight, BitVec.toNat_sub_of_le hle, hpage, Nat.shiftRight_eq_div_pow]
    rw [hindex]
    unfold bitmapAddr size
    omega
  · -- the region lies before: whatever the index, the byte is behind the start of this region
    simp only at hlt
    unfold bitmapAddr size
    omega

/-- What a `free_physical_page` that returns has done. -/
theorem of_run_freePhysicalPage (hrun : (freePhysicalPage h page).run m = .ok h' m') :
    h'.extent = h.extent ∧ m' = setBit m h.addr ((page - h.addr) >>> 12).toNat false := by
  unfold freePhysicalPage at hrun
  obtain ⟨-, hrun⟩ := of_run_assert_bind hrun
  obtain ⟨-, hrun⟩ := of_run_assert_bind hrun
  cases hrun
  exact ⟨rfl, rfl⟩

/-- A page of another region stays used. -/
theorem ChainInv.not_freesExactly (hc : ChainInv s.regions s.mem) (hu : HasBit s.regions s.mem page true)
    (hout : ¬s.InHead page) : ¬FreesExactly s page := by
  rintro ⟨head, rest, head', _, hregions, hrun, hiff, -⟩
  obtain ⟨hext, rfl⟩ := of_run_freePhysicalPage hrun
  have hhead : head ∈ s.regions := by simp [hregions]
  have hmap : s.regions.map extent = (head' :: rest).map extent := by simp [hregions, hext]
  obtain ⟨g, hg, j, hj, rfl, hfree⟩ := (free_of_allocatable ((hiff _).2 (.inl rfl))).of_extent hmap fun _ _ _ _ _ h => h
  have hne : head ≠ g := by
    rintro rfl
    exact hout ⟨head, by simp [hregions], hc.holds_pageAt hg hj⟩
  rw [bit_setBit_of_ne (bitmapAddr_index_ne (hc.placed hhead) (hc.placed hg) (hc.apart hhead hg hne) hj)] at hfree
  cases hc.hasBit_inj hu ⟨g, hg, j, hj, rfl, hfree⟩

/-! ## Runs -/

/-- What holds in every state of a run. -/
structure Chain.Inv (s : Chain) : Prop where
  chain : ChainInv s.regions s.mem
  nodup : s.live.Nodup
  live : ∀ page ∈ s.live, HasBit s.regions s.mem page true

theorem ChainRuns.inv {rs : List (Word × Nat)} (hok : ChainOk rs) (hs : ChainRuns rs s) : s.Inv := by
  induction hs with
  | @init m0 chain m hrun =>
    have hnil : ChainInv [] m0 := ⟨⟨by simp, by simp⟩, by simp⟩
    obtain ⟨chain', m', hrun', hc⟩ := run_linkRegions hnil hok (by simp)
    cases hrun'.symm.trans hrun
    exact ⟨hc, nodup_nil, by simp⟩
  | @allocate s page chain m _ hrun ih =>
    rcases of_run_allocatePhysicalPage hrun with ⟨hr, -⟩ | ⟨pre, h, post, i, hregions, hi, hbit, hr, rfl, rfl⟩
    · cases hr
    · obtain rfl : page = pageAt h.addr i := Option.some.inj hr
      have hc := ih.chain
      have hext := extent_handedOut pre post h i
      rw [← hregions] at hext
      have hh : h ∈ s.regions := by simp [hregions]
      have hnew : pageAt h.addr i ∉ s.live := by
        intro hmem
        cases hc.hasBit_inj (ih.live _ hmem) ⟨h, hh, i, hi, rfl, hbit⟩
      refine ⟨(hregions ▸ hc).handOut hi hbit, nodup_cons.2 ⟨hnew, ih.nodup⟩, fun page hmem => ?_⟩
      rcases mem_cons.1 hmem with rfl | hmem
      · exact hasBit_setBit_self hh hi hext
      · exact (hc.hasBit_setBit hh hi _ hext fun he => hnew (he ▸ hmem)).2 (ih.live page hmem)
  | @full s chain m _ hrun ih =>
    rcases of_run_allocatePhysicalPage hrun with ⟨-, rfl, rfl⟩ | ⟨pre, h, post, i, -, -, -, hr, -⟩
    · exact ih
    · cases hr
  | @free s page head head' rest m _ hpage hregions hhold hrun ih =>
    have hc := ih.chain
    have hlive := ih.live
    rw [hregions] at hc hlive
    obtain ⟨i, hi, rfl, hbit⟩ := hc.of_holds (hlive page hpage) hhold
    have hmem : head ∈ head :: rest := mem_cons_self
    cases (run_freePhysicalPage (hc.placed hmem) hi hbit).symm.trans hrun
    refine ⟨hc.giveBack hi hbit, ih.nodup.erase _, fun page hmem' => ?_⟩
    obtain ⟨hne, hold⟩ := (ih.nodup.mem_erase_iff).1 hmem'
    exact (hc.hasBit_setBit hmem hi _ (by rfl) hne).2 (hlive page hold)

end

/-- In every state that a chain comes to, giving back a live page through the head of the chain returns, makes this
page free and changes no other one exactly if the page lies in the region of the head. -/
theorem freesExactly_iff_inHead {rs : List (Word × Nat)} (hok : ChainOk rs) {s : Chain} (hs : ChainRuns rs s)
    {page : Word} (hpage : page ∈ s.live) : FreesExactly s page ↔ s.InHead page := by
  obtain ⟨hc, -, hlive⟩ := hs.inv hok
  constructor
  · intro hfrees
    by_contra hout
    exact hc.not_freesExactly (hlive page hpage) hout hfrees
  · rintro ⟨head, hhead, hhold⟩
    obtain ⟨_, regions, live⟩ := s
    cases regions with
    | nil => simp at hhead
    | cons first rest =>
      obtain rfl : first = head := by simpa using hhead
      obtain ⟨_, hi, rfl, hbit⟩ := hc.of_holds (hlive page hpage) hhold
      exact hc.freesExactly hi hbit live

/-- Two regions, the second of which is at the head of the chain. -/
def twoRegions : List (Word × Nat) := [(0x10000#64, 3), (0x1000#64, 2)]

theorem twoRegions_ok : ChainOk twoRegions where
  placed := forall_mem_cons.2 ⟨⟨by decide, by decide, by decide⟩,
    forall_mem_singleton.2 ⟨by decide, by decide, by decide⟩⟩
  apart := by simp [twoRegions, Apart]

/-- A page of each region is handed out, and the one of the head is given back. -/
theorem freesExactly_two :
    ∃ s, ChainRuns twoRegions s ∧ s.live = [0x11000#64, 0x2000#64] ∧ FreesExactly s 0x2000#64 := by
  have h0 : ChainRuns twoRegions _ := .init (rfl : (linkRegions twoRegions []).run (fun _ => 0#8) = .ok _ _)
  have h2 : ChainRuns twoRegions ⟨_, _, [0x11000#64, 0x2000#64]⟩ := (h0.allocate rfl).allocate rfl
  exact ⟨_, h2, rfl, (freesExactly_iff_inHead twoRegions_ok h2 (by simp)).2 ⟨_, rfl, by decide, by decide⟩⟩

/-- In every state that a chain comes to, the pages that were handed out and not given back are different pages, and
no number of further calls hands out one of them. -/
theorem live_not_allocatable {rs : List (Word × Nat)} (hok : ChainOk rs) {s : Chain} (hs : ChainRuns rs s) :
    s.live.Nodup ∧ ∀ page ∈ s.live, ¬Allocatable s.mem s.regions page := by
  obtain ⟨hc, hnodup, hlive⟩ := hs.inv hok
  refine ⟨hnodup, fun page hpage ha => ?_⟩
  cases hc.hasBit_inj (hlive page hpage) (free_of_allocatable ha)

/-- The page that was given back is handed out once more, and one of the other region after it. -/
theorem live_not_allocatable_two : ∃ s, ChainRuns twoRegions s ∧ s.live = [0x12000#64, 0x2000#64, 0x11000#64] ∧
    ∀ page ∈ s.live, ¬Allocatable s.mem s.regions page := by
  have h0 : ChainRuns twoRegions _ := .init (rfl : (linkRegions twoRegions []).run (fun _ => 0#8) = .ok _ _)
  have h2 : ChainRuns twoRegions ⟨_, _, [0x11000#64, 0x2000#64]⟩ := (h0.allocate rfl).allocate rfl
  have h3 := h2.free (show 0x2000#64 ∈ _ by simp) rfl ⟨by decide, by decide⟩ rfl
  have h5 : ChainRuns twoRegions ⟨_, _, [0x12000#64, 0x2000#64, 0x11000#64]⟩ := (h3.allocate rfl).allocate rfl
  exact ⟨_, h5, rfl, (live_not_allocatable twoRegions_ok h5).2⟩

/-- Two regions. The one at `0x1000` is at the head and has no page to hand out, so that the page comes from the other
one. Given back through the head, it is looked up in the bitmap of the head, and the assert fails. -/
theorem free_other_region_panics : ∃ s rest, ChainOk [(0x10000#64, 2), (0x1000#64, 1)] ∧
    ChainRuns [(0x10000#64, 2), (0x1000#64, 1)] s ∧ s.live = [0x11000#64] ∧ s.regions = ⟨0x1000#64, 1, 1, 0⟩ :: rest ∧
    (freePhysicalPage ⟨0x1000#64, 1, 1, 0⟩ 0x11000#64).run s.mem =
      .error (.assertFailed "self.read_allocation_bitmap(index)") s.mem ∧ ¬FreesExactly s 0x11000#64 := by
  have hok : ChainOk [(0x10000#64, 2), (0x1000#64, 1)] :=
    { placed := forall_mem_cons.2 ⟨⟨by decide, by decide, by decide⟩,
      forall_mem_singleton.2 ⟨by decide, by decide, by decide⟩⟩
      apart := by simp [Apart] }
  have h0 : ChainRuns [(0x10000#64, 2), (0x1000#64, 1)] _ :=
    .init (rfl : (linkRegions [(0x10000#64, 2), (0x1000#64, 1)] []).run (fun _ => 0#8) = .ok _ _)
  have h1 : ChainRuns [(0x10000#64, 2), (0x1000#64, 1)] ⟨_, _, [0x11000#64]⟩ := h0.allocate rfl
  have hnot : ∀ s head rest e, s.regions = head :: rest →
      (freePhysicalPage head 0x11000#64).run s.mem = .error e s.mem → ¬FreesExactly s 0x11000#64 := by
    rintro s head rest e hregions herror ⟨head', rest', h', m, hregions', hrun, -⟩
    obtain ⟨rfl, -⟩ := cons.inj (hregions.symm.trans hregions')
    rw [herror] at hrun
    cases hrun
  refine ⟨_, _, hok, h1, rfl, rfl, ?_, hnot _ _ _ (.assertFailed "self.read_allocation_bitmap(index)") rfl ?_⟩
  · rfl
  · rfl

end Liumos.Loader
