/-
The physical page allocator: a free list of regions that is stored in the regions themselves.
Source: phys_page_allocator.h with `UsePhysicalAddressInternallyStrategy`, where the address of a
`FreeInfo` is the physical address of its region. The state of the allocator is `head_phys_addr_`.
-/
import Liumos.Machine.Basic

namespace Liumos.Dram

open WriteBack.Memory List BitVec

/-! ## `FreeInfo`, at the start of its region -/

def numOfPagesAddr (info : Word) : Nat := info.toNat
def nextPhysAddrAddr (info : Word) : Nat := info.toNat + 8
/-- The word whose lower half is `proximity_domain_`. -/
def proximityDomainAddr (info : Word) : Nat := info.toNat + 16

def getNext (info : Word) : WM Word Word := load (nextPhysAddrAddr info)

def getProximityDomain (info : Word) : WM Word (BitVec 32) := do
  return low32 (← load (proximityDomainAddr info))

def canProvidePages (numOfPages numOfReqPages : Word) : Bool := decide (numOfReqPages.toNat < numOfPages.toNat)

/-- Takes the pages from the end of the region; 0 is the null pointer. -/
def providePages (info numOfReqPages : Word) : WM Word Word := do
  let numOfPages ← load (numOfPagesAddr info)
  if !canProvidePages numOfPages numOfReqPages then return 0#64
  else
    store (numOfPagesAddr info) (numOfPages - numOfReqPages)
    return info + ((numOfPages - numOfReqPages) <<< 12)

/-! ## The allocator -/

def freePagesWithProximityDomain (physAddr numOfPages : Word) (proxDomain : BitVec 32) : WM Word Unit := do
  assert (decide (0 < numOfPages.toNat)) "num_of_pages > 0"
  assert (physAddr &&& 0xfff#64 == 0#64) "(phys_addr & 0xfff) == 0"
  let headPhysAddr := (← get).alloc
  store (numOfPagesAddr physAddr) numOfPages
  store (nextPhysAddrAddr physAddr) headPhysAddr
  let old ← load (proximityDomainAddr physAddr)
  store (proximityDomainAddr physAddr) (setLow32 old proxDomain)
  modify fun w => { w with alloc := physAddr }

/-- The domain a request asks for; `AllocPages` asks for none. -/
abbrev DomainReq := Option (BitVec 32)

/-- Whether the walk tries the region of `info`. -/
def wanted (domain : DomainReq) (info : Word) : WM Word Bool :=
  match domain with
  | none => pure true
  | some d => do return (← getProximityDomain info) == d

/-- `while (info) {...}`. -/
def allocLoop (domain : DomainReq) (numOfPages : Word) : Nat → Word → WM Word Word
  | 0, _ => throw .diverges
  | fuel + 1, info =>
    if info = 0#64 then throw (.message "Cannot allocate pages")
    else do
      if ← wanted domain info then
        let addr ← providePages info numOfPages
        if addr ≠ 0#64 then return addr
        else allocLoop domain numOfPages fuel (← getNext info)
      else allocLoop domain numOfPages fuel (← getNext info)

def alloc (fuel : Nat) (domain : DomainReq) (numOfPages : Word) : WM Word Word := do
  allocLoop domain numOfPages fuel (← get).alloc

def allocPages (fuel : Nat) (numOfPages : Word) : WM Word Word := alloc fuel none numOfPages

def allocPagesInProximityDomain (fuel : Nat) (numOfPages : Word) (proximityDomain : BitVec 32) : WM Word Word :=
  alloc fuel (some proximityDomain) numOfPages

/-! ## Runs of the parts -/

theorem run_wanted (domain : DomainReq) (info : Word) (w : World Word) :
    (wanted domain info).run w = .ok (domain.elim true (low32 (w.mem.load (proximityDomainAddr info)) == ·)) w := by
  cases domain <;> rfl

variable {info n : Word} {w : World Word} {m : Mem}

theorem run_providePages_lt (h : n.toNat < (w.mem.load (numOfPagesAddr info)).toNat) :
    (providePages info n).run w = .ok (info + ((w.mem.load (numOfPagesAddr info) - n) <<< 12))
      { w with mem := w.mem.store (numOfPagesAddr info) (w.mem.load (numOfPagesAddr info) - n) } := by
  rw [providePages, run_bind_eq (rfl : (load (numOfPagesAddr info)).run w = .ok _ w)]
  simp only [canProvidePages, h, decide_true, Bool.not_true, Bool.false_eq_true, if_false]
  rfl

theorem run_providePages_not_lt
    (h : ¬ n.toNat < (w.mem.load (numOfPagesAddr info)).toNat) : (providePages info n).run w = .ok 0#64 w := by
  rw [providePages, run_bind_eq (rfl : (load (numOfPagesAddr info)).run w = .ok _ w)]
  simp only [canProvidePages, h, decide_false, Bool.not_false, if_true]
  rfl

theorem run_getNext (info : Word) (w : World Word) :
    (getNext info).run w = .ok (w.mem.load (nextPhysAddrAddr info)) w := rfl

/-- What a donation writes. -/
theorem run_freePages_ok {physAddr numOfPages : Word} {proxDomain : BitVec 32} {w' : World Word} {u : Unit}
    (h : (freePagesWithProximityDomain physAddr numOfPages proxDomain).run w = .ok u w') :
    w'.alloc = physAddr ∧ w'.mem.load (numOfPagesAddr physAddr) = numOfPages ∧ w'.mem.load (nextPhysAddrAddr physAddr) =
      w.alloc ∧ low32 (w'.mem.load (proximityDomainAddr physAddr)) = proxDomain ∧
      ∀ a, a ≠ numOfPagesAddr physAddr → a ≠ nextPhysAddrAddr physAddr → a ≠ proximityDomainAddr physAddr →
        w'.mem.load a = w.mem.load a := by
  unfold freePagesWithProximityDomain at h
  obtain ⟨-, h⟩ := of_run_assert_bind h
  obtain ⟨-, h⟩ := of_run_assert_bind h
  cases h
  have h12 : numOfPagesAddr physAddr ≠ nextPhysAddrAddr physAddr := by unfold numOfPagesAddr nextPhysAddrAddr; omega
  have h13 : numOfPagesAddr physAddr ≠ proximityDomainAddr physAddr := by
    unfold numOfPagesAddr proximityDomainAddr; omega
  have h23 : nextPhysAddrAddr physAddr ≠ proximityDomainAddr physAddr := by
    unfold nextPhysAddrAddr proximityDomainAddr; omega
  refine ⟨rfl, ?_, ?_, ?_, ?_⟩
  · rw [load_store_ne _ _ h13, load_store_ne _ _ h12, load_store_self]
  · rw [load_store_ne _ _ h23, load_store_self]
  · rw [load_store_self, low32_setLow32]
  · intro a h1 h2 h3
    rw [load_store_ne _ _ h3, load_store_ne _ _ h2, load_store_ne _ _ h1]

/-! ## The free list -/

/-- A donated region: page aligned, not at address 0, of at least one page and inside the address space. -/
structure Region where
  base : Word
  numOfPages : Word
  domain : BitVec 32
  aligned : base.toNat % 4096 = 0
  nonzero : 0 < base.toNat
  pos : 0 < numOfPages.toNat
  fits : base.toNat + 4096 * numOfPages.toNat ≤ 2 ^ 64

/-- The end of a region. -/
def Region.stop (r : Region) : Nat := r.base.toNat + 4096 * r.numOfPages.toNat

def Region.Disjoint (r r' : Region) : Prop := r.stop ≤ r'.base.toNat ∨ r'.stop ≤ r.base.toNat

/-- The pages `num_of_pages_` of a region that are still free. -/
def free (m : Mem) (r : Region) : Nat := (m.load (numOfPagesAddr r.base)).toNat

/-- From `info` on, the list in memory runs through the regions `rs`. -/
def Chain (m : Mem) : Word → List Region → Prop
  | info, [] => info = 0#64
  | info, r :: rs => info = r.base ∧ low32 (m.load (proximityDomainAddr r.base)) = r.domain ∧
      Chain m (m.load (nextPhysAddrAddr r.base)) rs

/-- The free list from `head` on: each region keeps its first page, which holds its `FreeInfo`. -/
structure FreeListOk (m : Mem) (head : Word) (rs : List Region) : Prop where
  chain : Chain m head rs
  kept : ∀ r ∈ rs, 0 < free m r
  within : ∀ r ∈ rs, free m r ≤ r.numOfPages.toNat
  disjoint : rs.Pairwise Region.Disjoint

/-- The list depends on the links and the domains of its regions. -/
theorem Chain.congr {m m' : Mem} : ∀ {info : Word} {rs : List Region}, Chain m info rs →
    (∀ r ∈ rs, m'.load (nextPhysAddrAddr r.base) = m.load (nextPhysAddrAddr r.base) ∧
      m'.load (proximityDomainAddr r.base) = m.load (proximityDomainAddr r.base)) → Chain m' info rs
  | _, [], h, _ => h
  | info, r :: rs, ⟨h1, h2, h3⟩, hm => by
    obtain ⟨hn, hd⟩ := hm r mem_cons_self
    refine ⟨h1, by rw [hd]; exact h2, ?_⟩
    rw [hn]
    exact h3.congr fun r' hr' => hm r' (mem_cons_of_mem r hr')

/-! ## The walk -/

/-- Whether a region may serve a request. -/
def Region.Serves (r : Region) (domain : DomainReq) : Prop := ∀ d, domain = some d → r.domain = d

/-- The outcomes of a walk along the regions `rs`. A region provides from the end of its free pages; or
none can; or the walk was cut off before its end. -/
inductive WalkOutcome (domain : DomainReq) (n : Word) (rs : List Region) (fuel : Nat) (w : World Word) :
    EStateM.Result Panic (World Word) Word → Prop
  | provided {r : Region} {addr : Word} {w' : World Word} (mem : r ∈ rs) (serves : r.Serves domain)
      (can : n.toNat < free w.mem r) (addr_eq : addr.toNat = r.base.toNat + 4096 * (free w.mem r - n.toNat))
      (alloc_eq : w'.alloc = w.alloc)
      (loads : ∀ a, w'.mem.load a =
        if a = numOfPagesAddr r.base then w.mem.load (numOfPagesAddr r.base) - n else w.mem.load a) :
      WalkOutcome domain n rs fuel w (.ok addr w')
  | exhausted {w' : World Word} (none_can : ∀ r ∈ rs, r.Serves domain → 0 < n.toNat → free w.mem r ≤ n.toNat) :
      WalkOutcome domain n rs fuel w (.error (.message "Cannot allocate pages") w')
  | cutOff {w' : World Word} (short : fuel ≤ rs.length) : WalkOutcome domain n rs fuel w (.error .diverges w')

variable {r : Region}

/-- The outcome behind a region that does not provide, in a world with the same loads. -/
theorem WalkOutcome.cons {domain : DomainReq} {rs : List Region} {fuel : Nat} {w1 : World Word}
    {res : EStateM.Result Panic (World Word) Word} (h : WalkOutcome domain n rs fuel w1 res) (ha : w1.alloc = w.alloc)
    (hl : ∀ a, w1.mem.load a = w.mem.load a) (hr : r.Serves domain → 0 < n.toNat → free w.mem r ≤ n.toNat) :
    WalkOutcome domain n (r :: rs) (fuel + 1) w res := by
  have hfree : ∀ r', free w1.mem r' = free w.mem r' := fun r' => by unfold free; rw [hl]
  cases h with
  | provided mem serves can addr_eq alloc_eq loads =>
    refine .provided (mem_cons_of_mem r mem) serves (hfree _ ▸ can) (hfree _ ▸ addr_eq) (alloc_eq.trans ha) fun a => ?_
    rw [loads a, hl, hl]
  | exhausted none_can =>
    refine .exhausted fun r' hr' hs hn => ?_
    rcases mem_cons.1 hr' with rfl | hmem
    · exact hr hs hn
    · rw [← hfree]; exact none_can r' hmem hs hn
  | cutOff short => exact .cutOff (Nat.succ_le_succ short)

/-- The address that `ProvidePages` computes. -/
theorem provided_toNat (hn : n.toNat < free m r) : (r.base + (m.load (numOfPagesAddr r.base) - n) <<< 12).toNat =
      (r.base.toNat + 4096 * (free m r - n.toNat)) % 2 ^ 64 := by
  have hsub : (m.load (numOfPagesAddr r.base) - n).toNat = free m r - n.toNat := by
    unfold free at hn ⊢
    exact toNat_sub_of_le (le_def.2 hn.le)
  rw [toNat_add, toNat_shiftLeft, hsub, Nat.shiftLeft_eq]
  omega

/-- Where a region provides: inside itself, so never at address 0 unless nothing was asked for. -/
theorem provided_addr (hw : free m r ≤ r.numOfPages.toNat) (hn : n.toNat < free m r)
    (hne : r.base + (m.load (numOfPagesAddr r.base) - n) <<< 12 ≠ 0#64 ∨ 0 < n.toNat) :
    (r.base + (m.load (numOfPagesAddr r.base) - n) <<< 12).toNat = r.base.toNat + 4096 * (free m r - n.toNat) := by
  have hfits := r.fits
  rw [Ne, ← toNat_inj, provided_toNat hn] at hne
  rw [provided_toNat hn]
  simp only [toNat_ofNat] at hne
  omega

/-- Whether the loop tries the region behind a pointer of the list. -/
theorem elim_domain_iff (domain : DomainReq) (r : Region) :
    domain.elim true (r.domain == ·) = true ↔ r.Serves domain := by
  cases domain with
  | none => exact iff_of_true rfl fun d hd => by cases hd
  | some d =>
    constructor
    · intro h d' hd'
      cases hd'
      exact beq_iff_eq.1 h
    · intro h
      exact beq_iff_eq.2 (h d rfl)

theorem allocLoop_outcome (domain : DomainReq) (n : Word) :
    ∀ (fuel : Nat) {info : Word} {rs : List Region} {w : World Word},
    Chain w.mem info rs → (∀ r ∈ rs, free w.mem r ≤ r.numOfPages.toNat) →
    WalkOutcome domain n rs fuel w ((allocLoop domain n fuel info).run w)
  | 0, _, _, _, _, _ => .cutOff (Nat.zero_le _)
  | fuel + 1, info, [], w, h, _ => by
    obtain rfl : info = 0#64 := h
    exact .exhausted fun r hr => absurd hr not_mem_nil
  | fuel + 1, info, r :: rs, w, ⟨hi, hd, hc⟩, hw => by
    subst hi
    have hne : r.base ≠ 0#64 := by
      intro h
      have := r.nonzero
      rw [h] at this
      exact absurd this (by decide)
    have hrest : ∀ r' ∈ rs, free w.mem r' ≤ r'.numOfPages.toNat := fun r' hr' => hw r' (mem_cons_of_mem r hr')
    rw [allocLoop, if_neg hne, run_bind_eq (run_wanted domain r.base w), hd]
    by_cases hs : r.Serves domain
    · rw [if_pos ((elim_domain_iff domain r).2 hs)]
      by_cases hn : n.toNat < free w.mem r
      · rw [run_bind_eq (run_providePages_lt hn)]
        by_cases haddr : r.base + (w.mem.load (numOfPagesAddr r.base) - n) <<< 12 ≠ 0#64
        · rw [if_pos haddr]
          refine .provided mem_cons_self hs hn (provided_addr (hw r mem_cons_self) hn (.inl haddr)) rfl fun a => ?_
          exact load_store _ _ _ _
        · -- an empty block that would begin at address 0: the walk goes on, and the store changed nothing
          rw [if_neg haddr]
          have hn0 : ¬ 0 < n.toNat := by
            intro h0
            have := provided_addr (hw r mem_cons_self) hn (.inr h0)
            rw [not_not.1 haddr] at this
            simp only [toNat_ofNat] at *
            omega
          have hz : n = 0#64 := eq_of_toNat_eq (by simpa using hn0)
          subst hz
          have hl : ∀ a, (w.mem.store (numOfPagesAddr r.base) (w.mem.load (numOfPagesAddr r.base) - 0#64)).load a =
              w.mem.load a := by
            intro a
            rw [load_store]
            split
            · rename_i h; rw [h]; simp
            · rfl
          rw [run_bind_eq (run_getNext r.base _)]
          have hrec := allocLoop_outcome domain 0#64 fuel (w := ⟨w.mem.store (numOfPagesAddr r.base)
            (w.mem.load (numOfPagesAddr r.base) - 0#64), w.alloc⟩) (hc.congr fun _ _ => ⟨hl _, hl _⟩)
            (fun r' hr' => by unfold free; rw [hl]; exact hrest r' hr')
          rw [← hl (nextPhysAddrAddr r.base)] at hrec
          exact hrec.cons rfl hl fun _ h0 => absurd h0 hn0
      · rw [run_bind_eq (run_providePages_not_lt hn), if_neg (not_not.2 rfl), run_bind_eq (run_getNext r.base w)]
        exact (allocLoop_outcome domain n fuel hc hrest).cons rfl (fun _ => rfl) fun _ _ => not_lt.1 hn
    · rw [if_neg (fun h => hs ((elim_domain_iff domain r).1 h)), run_bind_eq (run_getNext r.base w)]
      exact (allocLoop_outcome domain n fuel hc hrest).cons rfl (fun _ => rfl) fun h => absurd h hs

end Liumos.Dram
