/-
How many pages donated regions are good for. Each region gives all its pages but the first, which holds its `FreeInfo`.
A region at physical address 0 ends the list, as its address is the one that says so: it is lost, and with it all that
were donated before. Source: phys_page_allocator.h with `UsePhysicalAddressInternallyStrategy`.
-/
import Liumos.Dram.Safety

namespace Liumos.Dram

open List

/-! ## Donations -/

/-- A region as it is donated, which may start at address 0. -/
structure Donation where
  base : Word
  numOfPages : Word
  domain : BitVec 32
  aligned : base.toNat % 4096 = 0
  pos : 0 < numOfPages.toNat
  fits : base.toNat + 4096 * numOfPages.toNat ≤ 2 ^ 64

def Donation.stop (d : Donation) : Nat := d.base.toNat + 4096 * d.numOfPages.toNat

def Donation.Disjoint (d d' : Donation) : Prop := d.stop ≤ d'.base.toNat ∨ d'.stop ≤ d.base.toNat

/-- The constructed allocator once the regions have been donated, the last one first. -/
inductive Donated : List Donation → World Word → Prop
  | init (m : Mem) : Donated [] ⟨m, 0#64⟩
  | donate {ds : List Donation} {w w' : World Word} (d : Donation) : Donated ds w → (∀ d' ∈ ds, d.Disjoint d') →
      (freePagesWithProximityDomain d.base d.numOfPages d.domain).run w = .ok () w' → Donated (d :: ds) w'

/-- The sum of `k - 1` over regions of `k` pages. -/
def total (ds : List Donation) : Nat := (ds.map fun d => d.numOfPages.toNat - 1).sum

/-- The regions that were donated behind the one at address 0, if there is one. -/
def listed (ds : List Donation) : List Donation := ds.takeWhile (·.base ≠ 0#64)

/-- The region at address 0, and those that were donated before it. -/
def hidden (ds : List Donation) : List Donation := ds.dropWhile (·.base ≠ 0#64)

/-! ## Single pages -/

/-- Pages that calls of `AllocPages(1)` returned, the last one first. Their owners write to them in between. -/
inductive Served (fuel : Nat) (w : World Word) : List Word → World Word → Prop
  | start : Served fuel w [] w
  | alloc {ps : List Word} {p : Word} {w1 w2 : World Word} : Served fuel w ps w1 →
      (allocPages fuel 1#64).run w1 = .ok p w2 → Served fuel w (p :: ps) w2
  | write {ps : List Word} {w1 : World Word} {a : Nat} {v : Word} : Served fuel w ps w1 →
      (∃ p ∈ ps, p.toNat ≤ a ∧ a < p.toNat + 4096) → Served fuel w ps { w1 with mem := w1.mem.store a v }

/-- Calls of `AllocPages(1)` succeed `n` times, and then there is the panic. -/
def SucceedsExactly (fuel : Nat) (w : World Word) (n : Nat) : Prop :=
  ∀ ps w', Served fuel w ps w' →
    (ps.length < n → ∃ p w'', (allocPages fuel 1#64).run w' = .ok p w'') ∧
      (ps.length = n → ∃ w'', (allocPages fuel 1#64).run w' = .error (.message "Cannot allocate pages") w'')

theorem SucceedsExactly.exists_served {fuel : Nat} {w : World Word} {n : Nat} (h : SucceedsExactly fuel w n) :
    ∀ k ≤ n, ∃ ps w', Served fuel w ps w' ∧ ps.length = k
  | 0, _ => ⟨[], w, .start, rfl⟩
  | k + 1, hk => by
    obtain ⟨ps, w', hs, hlen⟩ := h.exists_served k (by omega)
    obtain ⟨p, w'', hrun⟩ := (h ps w' hs).1 (by omega)
    exact ⟨p :: ps, w'', hs.alloc hrun, by rw [length_cons, hlen]⟩

variable {fuel n k : Nat} {w : World Word} {m : Mem} {rs : List Region} {r : Region} {ds : List Donation}

theorem SucceedsExactly.le (h : SucceedsExactly fuel w n) (h' : SucceedsExactly fuel w k) : n ≤ k := by
  by_contra hlt
  obtain ⟨ps, w', hs, hlen⟩ := h.exists_served k (by omega)
  obtain ⟨_, _, hok⟩ := (h ps w' hs).1 (by omega)
  obtain ⟨_, herr⟩ := (h' ps w' hs).2 hlen
  rw [hok] at herr
  cases herr

theorem SucceedsExactly.unique (h : SucceedsExactly fuel w n)
    (h' : SucceedsExactly fuel w k) : n = k := le_antisymm (h.le h') (h'.le h)

/-! ## What the list is good for -/

/-- The pages the regions can still give. -/
def capacity (m : Mem) (rs : List Region) : Nat := (rs.map fun r => free m r - 1).sum

theorem capacity_congr {m' : Mem} (h : ∀ r ∈ rs, free m' r = free m r) : capacity m' rs = capacity m rs := by
  unfold capacity
  rw [map_congr_left fun r hr => by rw [h r hr]]

theorem Region.not_disjoint_self (r : Region) : ¬ r.Disjoint r := by
  have := r.base_lt_stop
  unfold Region.Disjoint
  omega

variable {rs : List Region}

/-- A page comes from one region. -/
theorem Provided.capacity {w w' : World Word} {p : Word} {r : Region} (hdis : rs.Pairwise Region.Disjoint)
    (h : Provided rs none 1#64 w w' p r) : Dram.capacity w.mem rs = Dram.capacity w'.mem rs + 1 := by
  obtain ⟨pre, post, rfl⟩ := append_of_mem h.mem
  have hcan : 1 < free w.mem r := h.can
  have hfree : free w'.mem r = free w.mem r - 1 := h.free_eq
  obtain ⟨-, hpost, hpre⟩ := pairwise_append.1 hdis
  have h1 : Dram.capacity w'.mem pre = Dram.capacity w.mem pre := by
    refine capacity_congr fun r' hr' => h.others r' (mem_append_left _ hr') ?_
    rintro rfl
    exact r'.not_disjoint_self (hpre r' hr' r' mem_cons_self)
  have h2 : Dram.capacity w'.mem post = Dram.capacity w.mem post := by
    refine capacity_congr fun r' hr' => h.others r' (mem_append_right _ (mem_cons_of_mem _ hr')) ?_
    rintro rfl
    exact r'.not_disjoint_self ((pairwise_cons.1 hpost).1 r' hr')
  unfold Dram.capacity at h1 h2 ⊢
  simp only [map_append, map_cons, sum_append, sum_cons]
  omega

theorem one_lt_of_capacity (h : 0 < capacity m rs) : ∃ r ∈ rs, 1 < free m r := by
  by_contra hno
  push Not at hno
  have hzero : capacity m rs = 0 := by
    refine sum_eq_zero fun x hx => ?_
    obtain ⟨r, hr, rfl⟩ := mem_map.1 hx
    have := hno r hr
    omega
  omega

section

variable {fuel : Nat} {w : World Word} {rs : List Region}

/-- Every page served is one of the capacity less. -/
theorem Served.inv (h : FreeListOk w.mem w.alloc rs) {ps : List Word} {w' : World Word} (hs : Served fuel w ps w') :
    System.Inv ⟨w', rs, ps.map (⟨·, 1#64, none⟩)⟩ ∧ ps.length + capacity w'.mem rs = capacity w.mem rs := by
  induction hs with
  | start => exact ⟨⟨h, by simp, .nil⟩, Nat.zero_add _⟩
  | @alloc ps p w1 w2 _ hrun ih =>
    obtain ⟨hinv, hcap⟩ := ih
    obtain ⟨r, hp⟩ := hinv.list.alloc hrun
    have hless : capacity w1.mem rs = capacity w2.mem rs + 1 := hp.capacity hinv.list.disjoint
    refine ⟨hinv.alloc hrun, ?_⟩
    rw [length_cons]
    omega
  | @write ps w1 a v _ hown ih =>
    obtain ⟨hinv, hcap⟩ := ih
    obtain ⟨p, hp, h1, h2⟩ := hown
    have hblock : ∃ b ∈ ps.map (fun p => (⟨p, 1#64, none⟩ : Block)), b.addr.toNat ≤ a ∧ a < b.stop :=
      ⟨_, mem_map_of_mem hp, h1, h2⟩
    refine ⟨hinv.write (.inl hblock), ?_⟩
    rw [← hcap, capacity_congr fun r hr => free_congr (hinv.same_of_write (.inl hblock) v r hr)]

theorem FreeListOk.succeedsExactly (h : FreeListOk w.mem w.alloc rs) (hfuel : rs.length < fuel) :
    SucceedsExactly fuel w (capacity w.mem rs) := by
  intro ps w' hs
  obtain ⟨hinv, hcap⟩ := hs.inv h
  have htotal := hinv.list.alloc_total hfuel none 1#64
  constructor
  · intro hlt
    rcases htotal with hok | ⟨-, hno⟩
    · exact hok
    · obtain ⟨r, hr, hfree⟩ := one_lt_of_capacity (show 0 < capacity w'.mem rs by omega)
      have := hno r hr nofun (by decide)
      exact absurd hfree (Nat.not_lt.2 this)
  · intro heq
    rcases htotal with ⟨p, w'', hok⟩ | ⟨herr, -⟩
    · obtain ⟨r, hp⟩ := hinv.list.alloc hok
      have hcan : 1 < free w'.mem r := hp.can
      have hle : free w'.mem r - 1 ≤ capacity w'.mem rs := le_sum_of_mem (mem_map_of_mem hp.mem)
      omega
    · exact herr

end

/-! ## From donations to the list -/

/-- The list runs through the regions that are listed, and none has given a page. -/
structure ListIs (ds : List Donation) (w : World Word) (rs : List Region) : Prop where
  list : FreeListOk w.mem w.alloc rs
  donated : rs.map (fun r => (r.base, r.numOfPages)) = (listed ds).map (fun d => (d.base, d.numOfPages))
  full : ∀ r ∈ rs, free w.mem r = r.numOfPages.toNat

def Donation.region (d : Donation) (h : d.base ≠ 0#64) : Region :=
  { base := d.base
    numOfPages := d.numOfPages
    domain := d.domain
    aligned := d.aligned
    nonzero := Nat.pos_of_ne_zero fun hz => h (BitVec.eq_of_toNat_eq hz)
    pos := d.pos
    fits := d.fits }

theorem ListIs.mem (h : ListIs ds w rs) (hr : r ∈ rs) : ∃ d ∈ ds, d.base = r.base ∧ d.numOfPages = r.numOfPages := by
  have hmem : (r.base, r.numOfPages) ∈ (listed ds).map (fun d => (d.base, d.numOfPages)) :=
    h.donated ▸ mem_map_of_mem (f := fun r : Region => (r.base, r.numOfPages)) hr
  obtain ⟨d, hd, heq⟩ := mem_map.1 hmem
  exact ⟨d, (takeWhile_sublist _).subset hd, congrArg Prod.fst heq, congrArg Prod.snd heq⟩

/-- One more region in front, or none left if it is the one at address 0. -/
theorem ListIs.donate {ds : List Donation} {w w' : World Word} {d : Donation} (h : ListIs ds w rs)
    (hdis : ∀ d' ∈ ds, d.Disjoint d')
    (hrun : (freePagesWithProximityDomain d.base d.numOfPages d.domain).run w = .ok () w') :
    ∃ rs', ListIs (d :: ds) w' rs' := by
  by_cases hz : d.base = 0#64
  · refine ⟨[], ⟨?_, by simp, by simp, .nil⟩, by simp [listed, hz], by simp⟩
    exact (run_freePages_ok hrun).1.trans hz
  · have hdis' : ∀ r ∈ rs, (d.region hz).Disjoint r := by
      intro r hr
      obtain ⟨d', hd', hbase, hnum⟩ := h.mem hr
      have := hdis d' hd'
      unfold Donation.Disjoint Donation.stop at this
      rwa [hbase, hnum] at this
    obtain ⟨hlist, hfree, hsame⟩ := h.list.donate (r := d.region hz) hdis' hrun
    refine ⟨d.region hz :: rs, hlist, ?_, forall_mem_cons.2 ⟨hfree, fun r hr => ?_⟩⟩
    · simp [listed, hz, Donation.region, h.donated]
    · rw [← h.full r hr]
      refine free_congr fun a h1 h2 => hsame a ?_
      have hd := hdis' r hr
      have := r.base_lt_stop
      unfold Region.Disjoint at hd
      omega

theorem Donated.listIs (h : Donated ds w) : ∃ rs, ListIs ds w rs := by
  induction h with
  | init m => exact ⟨[], ⟨rfl, by simp, by simp, .nil⟩, rfl, by simp⟩
  | donate d _ hdis hrun ih =>
    obtain ⟨_, hrs⟩ := ih
    exact hrs.donate hdis hrun

theorem ListIs.capacity {ds : List Donation} {w : World Word} (h : ListIs ds w rs) :
    Dram.capacity w.mem rs = total (listed ds) := by
  have hpages := congrArg (map fun x : Word × Word => x.2.toNat - 1) h.donated
  rw [map_map, map_map] at hpages
  calc Dram.capacity w.mem rs = (rs.map fun r => r.numOfPages.toNat - 1).sum := by
        rw [Dram.capacity, map_congr_left fun r hr => by rw [h.full r hr]]
    _ = total (listed ds) := congrArg sum hpages

theorem total_eq_iff (ds : List Donation) : total ds = total (listed ds) ↔ ∀ d ∈ hidden ds, d.numOfPages = 1#64 := by
  have hsplit : total ds = total (listed ds) + total (hidden ds) := by
    rw [total, total, total, ← sum_append, ← map_append, listed, hidden, takeWhile_append_dropWhile]
  have hzero : total (hidden ds) = 0 ↔ ∀ d ∈ hidden ds, d.numOfPages = 1#64 := by
    rw [total, sum_eq_zero_iff, forall_mem_map]
    refine forall₂_congr fun d _ => ?_
    have := d.pos
    rw [← BitVec.toNat_inj, BitVec.toNat_ofNat]
    omega
  rw [← hzero]
  omega

/-- Single pages can be had as often as the sum of `k - 1` says exactly if no region starts at address 0, or the region
there and all that were donated before it have one page only, which they keep. -/
theorem donated_succeedsExactly_iff {ds : List Donation} {w : World Word} (h : Donated ds w) {fuel : Nat}
    (hfuel : ds.length < fuel) : SucceedsExactly fuel w (total ds) ↔ ∀ d ∈ hidden ds, d.numOfPages = 1#64 := by
  obtain ⟨rs, hrs⟩ := h.listIs
  have hlen : rs.length ≤ ds.length := by
    have := congrArg length hrs.donated
    rw [length_map, length_map] at this
    rw [this]
    exact (takeWhile_sublist _).length_le
  have hexact := hrs.list.succeedsExactly (lt_of_le_of_lt hlen hfuel)
  rw [hrs.capacity] at hexact
  rw [← total_eq_iff]
  constructor
  · intro hall
    exact hall.unique hexact
  · intro heq
    rw [heq]
    exact hexact

def threePages : Donation := ⟨0x3000#64, 3#64, 0#32, by decide, by decide, by decide⟩

def firstPage : Donation := ⟨0#64, 1#64, 0#32, by decide, by decide, by decide⟩

theorem firstPage_disjoint : firstPage.Disjoint threePages := .inl (by decide)

/-- The page at address 0 donated first: nothing is lost. -/
theorem donated_succeedsExactly_firstPage : ∃ w, Donated [threePages, firstPage] w ∧ SucceedsExactly 3 w 2 := by
  have h0 := Donated.init (WriteBack.Memory.ofInit fun _ => 0#64)
  have h₁ := h0.donate firstPage (by simp) rfl
  have h₂ := h₁.donate threePages (forall_mem_singleton.2 firstPage_disjoint.symm) rfl
  refine ⟨_, h₂, (donated_succeedsExactly_iff h₂ (by decide)).2 fun d hd => ?_⟩
  obtain rfl : d = firstPage := by simpa [hidden, threePages, firstPage] using hd
  rfl

/-- Donated behind three others, it hides them, and the first call panics. -/
theorem donated_firstPage_loses : ∃ w, Donated [firstPage, threePages] w ∧ total [firstPage, threePages] = 2 ∧
    (∃ w', (allocPages 3 1#64).run w = .error (.message "Cannot allocate pages") w') ∧
      ¬ SucceedsExactly 3 w (total [firstPage, threePages]) := by
  have h0 := Donated.init (WriteBack.Memory.ofInit fun _ => 0#64)
  have h₁ := h0.donate threePages (by simp) rfl
  have h₂ := h₁.donate firstPage (forall_mem_singleton.2 firstPage_disjoint) rfl
  refine ⟨_, h₂, rfl, ⟨_, rfl⟩, fun h => ?_⟩
  obtain ⟨_, _, hok⟩ := (h [] _ .start).1 (by decide)
  cases hok

end Liumos.Dram
