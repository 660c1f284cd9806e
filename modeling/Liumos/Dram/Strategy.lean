/-
The page allocator under both of its address strategies. A `FreeInfo*` is a physical address plus a base:
0 with `UsePhysicalAddressInternallyStrategy`, the kernel straight mapping with
`UseKernelStraightMappingInternallyStrategy`. The end of the list is the physical address 0 in memory,
but `while (info)` tests the pointer, so the two strategies leave the loop differently.
Source: phys_page_allocator.h.
-/
import Liumos.Dram.Safety

namespace Liumos.Dram

open List

/-! ## The strategies -/

def getFreeInfoFromPhysAddr (base paddr : Word) : Word := paddr + base

def getPhysAddrFromFreeInfo (base freeInfo : Word) : Word := if freeInfo = 0#64 then 0#64 else freeInfo - base

/-- The physical address that a pointer into the straight mapping reaches. -/
def backing (base ptr : Word) : Word := ptr - base

def freePagesVia (base physAddr numOfPages : Word) (proxDomain : BitVec 32) : WM Word Unit := do
  assert (decide (0 < numOfPages.toNat)) "num_of_pages > 0"
  assert (physAddr &&& 0xfff#64 == 0#64) "(phys_addr & 0xfff) == 0"
  let info := getFreeInfoFromPhysAddr base physAddr
  let next := getFreeInfoFromPhysAddr base (← get).alloc
  store (numOfPagesAddr (backing base info)) numOfPages
  store (nextPhysAddrAddr (backing base info)) (getPhysAddrFromFreeInfo base next)
  let old ← load (proximityDomainAddr (backing base info))
  store (proximityDomainAddr (backing base info)) (setLow32 old proxDomain)
  modify fun w => { w with alloc := getPhysAddrFromFreeInfo base info }

def providePagesVia (base info numOfReqPages : Word) : WM Word Word := do
  let numOfPages ← load (numOfPagesAddr (backing base info))
  if !canProvidePages numOfPages numOfReqPages then return 0#64
  else
    store (numOfPagesAddr (backing base info)) (numOfPages - numOfReqPages)
    return getPhysAddrFromFreeInfo base info + ((numOfPages - numOfReqPages) <<< 12)

def getNextVia (base info : Word) : WM Word Word := do
  return getFreeInfoFromPhysAddr base (← getNext (backing base info))

/-- An allocation under way: the world, and the physical addresses at which it has read a `FreeInfo`. -/
structure Walk where
  world : World Word
  visited : List Word

def onWorld {α : Type} (x : WM Word α) : KM Walk α := fun v =>
  match x v.world with
  | .ok a w => .ok a { v with world := w }
  | .error e w => .error e { v with world := w }

variable {α β : Type} {x : WM Word α} {w : World Word} {base info paddr : Word} {f : α → KM Walk β}

theorem run_onWorld {w' : World Word} {a : α} (h : x.run w = .ok a w') (v : List Word) :
    (onWorld x).run ⟨w, v⟩ = .ok a ⟨w', v⟩ := by
  unfold onWorld EStateM.run at *
  simp only [h]

def visit (base info : Word) : KM Walk Unit := modify fun v => { v with visited := v.visited ++ [backing base info] }

/-- `while (info) {...}`. -/
def walkLoop (base : Word) (domain : DomainReq) (numOfPages : Word) : Nat → Word → KM Walk Word
  | 0, _ => throw .diverges
  | fuel + 1, info =>
    if info = 0#64 then throw (.message "Cannot allocate pages")
    else do
      visit base info
      if ← onWorld (wanted domain (backing base info)) then
        let addr ← onWorld (providePagesVia base info numOfPages)
        if addr ≠ 0#64 then return addr
        else walkLoop base domain numOfPages fuel (← onWorld (getNextVia base info))
      else walkLoop base domain numOfPages fuel (← onWorld (getNextVia base info))

def allocVia (base : Word) (fuel : Nat) (domain : DomainReq) (numOfPages : Word) : KM Walk Word := do
  walkLoop base domain numOfPages fuel (getFreeInfoFromPhysAddr base (← get).world.alloc)

def allocPagesVia (base : Word) (fuel : Nat) (numOfPages : Word) : KM Walk Word := allocVia base fuel none numOfPages

/-! ## Pointers and what they reach -/

@[simp] theorem backing_getFreeInfo (base paddr : Word) :
    backing base (getFreeInfoFromPhysAddr base paddr) = paddr := by
  unfold backing getFreeInfoFromPhysAddr
  exact BitVec.add_sub_cancel paddr base

theorem getPhysAddr_of_ne (h : info ≠ 0#64) : getPhysAddrFromFreeInfo base info = backing base info := by
  unfold getPhysAddrFromFreeInfo backing
  exact if_neg h

/-- A pointer into the straight mapping, of anything but address 0, is not null. -/
theorem getFreeInfo_ne_zero (hpos : 0 < paddr.toNat) (hfit : base.toNat + paddr.toNat < 2 ^ 64) :
    getFreeInfoFromPhysAddr base paddr ≠ 0#64 := by
  unfold getFreeInfoFromPhysAddr
  intro h
  have hsum := congrArg BitVec.toNat h
  rw [BitVec.toNat_add, BitVec.toNat_ofNat] at hsum
  omega

/-- The head of a list is 0 or in the straight mapping; either way the new `FreeInfo` links to it. -/
theorem getPhysAddr_getFreeInfo (hfit : base.toNat + paddr.toNat < 2 ^ 64) :
    getPhysAddrFromFreeInfo base (getFreeInfoFromPhysAddr base paddr) = paddr := by
  by_cases hz : getFreeInfoFromPhysAddr base paddr = 0#64
  · have hp : paddr.toNat = 0 := by
      by_contra hne
      exact getFreeInfo_ne_zero (by omega) hfit hz
    unfold getPhysAddrFromFreeInfo
    rw [if_pos hz]
    exact BitVec.eq_of_toNat_eq (by rw [hp]; rfl)
  · rw [getPhysAddr_of_ne hz, backing_getFreeInfo]

theorem providePagesVia_eq (h : info ≠ 0#64) (n : Word) :
    providePagesVia base info n = providePages (backing base info) n := by
  unfold providePagesVia providePages
  rw [getPhysAddr_of_ne h]

/-! ## The physical strategy -/

/-- A run without the record of its visits. -/
def forget {α : Type} : EStateM.Result Panic Walk α → EStateM.Result Panic (World Word) α
  | .ok a v => .ok a v.world
  | .error e v => .error e v.world

theorem forget_onWorld_bind {g : α → WM Word β} (h : ∀ a v, forget ((f a).run v) = (g a).run v.world) (v : Walk) :
    forget ((onWorld x >>= f).run v) = (x >>= g).run v.world := by
  cases hx : x.run v.world with
  | ok a w =>
    rw [run_bind_eq hx, run_bind_eq (run_onWorld hx v.visited), h]
  | error e w =>
    simp only [bind, EStateM.bind, EStateM.run, onWorld] at hx ⊢
    rw [hx]
    rfl

@[simp] theorem backing_zero (info : Word) : backing 0#64 info = info := by
  unfold backing
  exact BitVec.sub_zero info

theorem getNextVia_zero (info : Word) : getNextVia 0#64 info = getNext info := by
  unfold getNextVia getFreeInfoFromPhysAddr
  simp only [backing_zero, BitVec.add_zero, bind_pure]

/-- With base 0 the walk is that of `UsePhysicalAddressInternallyStrategy`. -/
theorem forget_walkLoop_zero (domain : DomainReq) (n : Word) : ∀ fuel info v,
    forget ((walkLoop 0#64 domain n fuel info).run v) = (allocLoop domain n fuel info).run v.world
  | 0, _, _ => rfl
  | fuel + 1, info, v => by
    unfold walkLoop allocLoop
    by_cases hz : info = 0#64
    · rw [if_pos hz, if_pos hz]
      rfl
    · have hvisit : (visit 0#64 info).run v = .ok () { v with visited := v.visited ++ [backing 0#64 info] } := rfl
      rw [if_neg hz, if_neg hz, run_bind_eq hvisit, backing_zero, providePagesVia_eq hz, backing_zero, getNextVia_zero]
      refine forget_onWorld_bind ?_ _
      intro wants v'
      cases wants with
      | false => exact forget_onWorld_bind (fun info' => forget_walkLoop_zero domain n fuel info') _
      | true =>
        refine forget_onWorld_bind ?_ _
        intro addr v''
        by_cases ha : addr ≠ 0#64
        · rw [if_pos ha, if_pos ha]
          rfl
        · rw [if_neg ha, if_neg ha]
          exact forget_onWorld_bind (fun info' => forget_walkLoop_zero domain n fuel info') _

/-! ## Lists -/

/-- Both strategies write the same list. -/
theorem freePagesVia_run {physAddr numOfPages : Word} {proxDomain : BitVec 32}
    (hphys : base.toNat + physAddr.toNat < 2 ^ 64) (hhead : base.toNat + w.alloc.toNat < 2 ^ 64) :
    (freePagesVia base physAddr numOfPages proxDomain).run w =
      (freePagesWithProximityDomain physAddr numOfPages proxDomain).run w := by
  have hwrite : ∀ next, next = w.alloc → (do
      store (numOfPagesAddr physAddr) numOfPages
      store (nextPhysAddrAddr physAddr) next
      let old ← load (proximityDomainAddr physAddr)
      store (proximityDomainAddr physAddr) (setLow32 old proxDomain)
      modify fun w => { w with alloc := physAddr } : WM Word Unit).run w = (do
      store (numOfPagesAddr physAddr) numOfPages
      store (nextPhysAddrAddr physAddr) w.alloc
      let old ← load (proximityDomainAddr physAddr)
      store (proximityDomainAddr physAddr) (setLow32 old proxDomain)
      modify fun w => { w with alloc := physAddr } : WM Word Unit).run w := by
    rintro _ rfl
    rfl
  have hget : (get : WM Word (World Word)).run w = .ok w w := rfl
  unfold freePagesVia freePagesWithProximityDomain
  simp only [backing_getFreeInfo, getPhysAddr_getFreeInfo hphys]
  cases decide (0 < numOfPages.toNat) with
  | false => rfl
  | true =>
    rw [run_bind_eq (run_assert_true rfl _ w), run_bind_eq (run_assert_true rfl _ w)]
    cases physAddr &&& 0xfff#64 == 0#64 with
    | false => rfl
    | true =>
      rw [run_bind_eq (run_assert_true rfl _ w), run_bind_eq (run_assert_true rfl _ w),
        run_bind_eq hget, run_bind_eq hget]
      exact hwrite _ (getPhysAddr_getFreeInfo hhead)

/-- A free list in memory, as donations build it and allocations leave it, with all of its regions in the
straight mapping. -/
structure Listed (base : Word) (w : World Word) (rs : List Region) : Prop where
  chain : Chain w.mem w.alloc rs
  kept : ∀ r ∈ rs, 0 < free w.mem r
  within : ∀ r ∈ rs, free w.mem r ≤ r.numOfPages.toNat
  mapped : ∀ r ∈ rs, base.toNat + r.stop ≤ 2 ^ 64

theorem Region.mapped_lt {r : Region} (h : base.toNat + r.stop ≤ 2 ^ 64) : base.toNat + r.base.toNat < 2 ^ 64 := by
  have := r.base_lt_stop
  omega

/-- Donations of disjoint regions build such lists. -/
theorem Listed.donate {base : Word} {w w' : World Word} {rs : List Region} {r : Region} {u : Unit}
    (h : Listed base w rs) (hdisj : rs.Pairwise Region.Disjoint) (hr : ∀ r' ∈ rs, r.Disjoint r')
    (hmap : base.toNat + r.stop ≤ 2 ^ 64) (hrun : (freePagesVia base r.base r.numOfPages r.domain).run w = .ok u w') :
    Listed base w' (r :: rs) := by
  have hhead : base.toNat + w.alloc.toNat < 2 ^ 64 := by
    have hc := h.chain
    cases rs with
    | nil =>
      rw [show w.alloc = 0#64 from hc]
      exact base.isLt
    | cons r' rs =>
      rw [hc.1]
      exact Region.mapped_lt (h.mapped r' mem_cons_self)
  rw [freePagesVia_run (Region.mapped_lt hmap) hhead] at hrun
  have hlist : FreeListOk w.mem w.alloc rs := ⟨h.chain, h.kept, h.within, hdisj⟩
  obtain ⟨hnew, -, -⟩ := hlist.donate hr hrun
  refine ⟨hnew.chain, hnew.kept, hnew.within, ?_⟩
  intro r' hr'
  rcases mem_cons.1 hr' with rfl | hr'
  · exact hmap
  · exact h.mapped r' hr'

/-! ## Rounds of the loop -/

section

variable {base : Word} {domain : DomainReq} {n : Word} {w : World Word} {r : Region}

section

variable (hmap : base.toNat + r.stop ≤ 2 ^ 64) (hdom : low32 (w.mem.load (proximityDomainAddr r.base)) = r.domain)

include hmap hdom

/-- What a round does with the region it has reached. -/
theorem walkLoop_round (fuel : Nat) (v : List Word) :
    (walkLoop base domain n (fuel + 1) (getFreeInfoFromPhysAddr base r.base)).run ⟨w, v⟩ =
      (if domain.elim true (r.domain == ·) = true then do
        let addr ← onWorld (providePages r.base n)
        if addr ≠ 0#64 then return addr
        else walkLoop base domain n fuel (← onWorld (getNextVia base (getFreeInfoFromPhysAddr base r.base)))
      else do
        walkLoop base domain n fuel (← onWorld (getNextVia base (getFreeInfoFromPhysAddr base r.base))) :
          KM Walk Word).run ⟨w, v ++ [r.base]⟩ := by
  have hne := getFreeInfo_ne_zero r.nonzero (Region.mapped_lt hmap)
  have hvisit : (visit base (getFreeInfoFromPhysAddr base r.base)).run ⟨w, v⟩ = .ok () ⟨w, v ++ [r.base]⟩ := by
    unfold visit
    rw [backing_getFreeInfo]
    rfl
  have hwant : (onWorld (wanted domain (backing base (getFreeInfoFromPhysAddr base r.base)))).run ⟨w, v ++ [r.base]⟩ =
      .ok (domain.elim true (r.domain == ·)) ⟨w, v ++ [r.base]⟩ := by
    rw [backing_getFreeInfo, ← hdom]
    exact run_onWorld (run_wanted domain r.base w) _
  rw [walkLoop, if_neg hne, run_bind_eq hvisit, run_bind_eq hwant, providePagesVia_eq hne, backing_getFreeInfo]

/-- A region that cannot serve is left behind. -/
theorem walkLoop_pass (hno : ¬ (r.Serves domain ∧ n.toNat < free w.mem r)) (fuel : Nat) (v : List Word) :
    (walkLoop base domain n (fuel + 1) (getFreeInfoFromPhysAddr base r.base)).run ⟨w, v⟩ =
      (walkLoop base domain n fuel (getFreeInfoFromPhysAddr base (w.mem.load (nextPhysAddrAddr r.base)))).run
        ⟨w, v ++ [r.base]⟩ := by
  have hnext : (onWorld (getNextVia base (getFreeInfoFromPhysAddr base r.base))).run ⟨w, v ++ [r.base]⟩ =
      .ok (getFreeInfoFromPhysAddr base (w.mem.load (nextPhysAddrAddr r.base))) ⟨w, v ++ [r.base]⟩ := by
    unfold getNextVia
    rw [backing_getFreeInfo]
    rfl
  rw [walkLoop_round hmap hdom]
  by_cases hs : r.Serves domain
  · have hn : ¬ n.toNat < free w.mem r := fun hn => hno ⟨hs, hn⟩
    rw [if_pos ((elim_domain_iff domain r).2 hs), run_bind_eq (run_onWorld (run_providePages_not_lt hn) _),
      if_neg (not_not.2 rfl), run_bind_eq hnext]
  · rw [if_neg (fun h => hs ((elim_domain_iff domain r).1 h)), run_bind_eq hnext]

/-- A region that can serve gives the last of its free pages. -/
theorem walkLoop_take (hs : r.Serves domain) (hn : n.toNat < free w.mem r)
    (hne : r.base + (w.mem.load (numOfPagesAddr r.base) - n) <<< 12 ≠ 0#64) (fuel : Nat) (v : List Word) :
    ∃ w', (walkLoop base domain n (fuel + 1) (getFreeInfoFromPhysAddr base r.base)).run ⟨w, v⟩ =
      .ok (r.base + (w.mem.load (numOfPagesAddr r.base) - n) <<< 12) ⟨w', v ++ [r.base]⟩ := by
  rw [walkLoop_round hmap hdom, if_pos ((elim_domain_iff domain r).2 hs),
    run_bind_eq (run_onWorld (run_providePages_lt hn) _), if_pos hne]
  exact ⟨_, rfl⟩

end

/-- The walk over regions that cannot serve, down to the rest of the list. -/
theorem walkLoop_skip {rest : List Region} : ∀ {pre : List Region} {info : Word}, Chain w.mem info (pre ++ rest) →
    (∀ r ∈ pre, base.toNat + r.stop ≤ 2 ^ 64) → (∀ r ∈ pre, ¬ (r.Serves domain ∧ n.toNat < free w.mem r)) →
    ∃ info', Chain w.mem info' rest ∧ ∀ fuel v,
      (walkLoop base domain n (fuel + pre.length) (getFreeInfoFromPhysAddr base info)).run ⟨w, v⟩ =
        (walkLoop base domain n fuel (getFreeInfoFromPhysAddr base info')).run ⟨w, v ++ pre.map Region.base⟩
  | [], info, hc, _, _ => ⟨info, hc, fun fuel v => by rw [map_nil, append_nil]; rfl⟩
  | r :: pre, info, ⟨hi, hdom, hc⟩, hmap, hno => by
    subst hi
    obtain ⟨info', hc', hrun⟩ := walkLoop_skip hc (fun r' hr' => hmap r' (mem_cons_of_mem r hr'))
      (fun r' hr' => hno r' (mem_cons_of_mem r hr'))
    refine ⟨info', hc', fun fuel v => ?_⟩
    rw [length_cons, ← Nat.add_assoc, walkLoop_pass (hmap r mem_cons_self) hdom (hno r mem_cons_self), hrun,
      map_cons, append_assoc, singleton_append]

/-- A walk that stops on the way has not come to the end of the list. -/
theorem walkLoop_short : ∀ {rs : List Region} {info : Word} {fuel : Nat} (v : List Word), Chain w.mem info rs →
    (∀ r ∈ rs, base.toNat + r.stop ≤ 2 ^ 64) → (∀ r ∈ rs, ¬ (r.Serves domain ∧ n.toNat < free w.mem r)) →
    fuel ≤ rs.length → ∃ v', (walkLoop base domain n fuel (getFreeInfoFromPhysAddr base info)).run ⟨w, v⟩ =
      .error .diverges v'
  | _, _, 0, v, _, _, _, _ => ⟨_, rfl⟩
  | [], _, fuel + 1, _, _, _, _, hf => absurd hf (by simp)
  | r :: rs, info, fuel + 1, v, ⟨hi, hdom, hc⟩, hmap, hno, hf => by
    subst hi
    rw [walkLoop_pass (hmap r mem_cons_self) hdom (hno r mem_cons_self)]
    exact walkLoop_short _ hc (fun r' hr' => hmap r' (mem_cons_of_mem r hr'))
      (fun r' hr' => hno r' (mem_cons_of_mem r hr')) (Nat.le_of_succ_le_succ hf)

end

/-! ## What has been visited stays visited -/

/-- The walk a run leaves behind, however it ends. -/
def left {α : Type} : EStateM.Result Panic Walk α → Walk
  | .ok _ v => v
  | .error _ v => v

/-- A computation that forgets no visit. -/
def Remembers {α : Type} (x : KM Walk α) : Prop := ∀ v, v.visited ⊆ (left (x.run v)).visited

theorem Remembers.bind {x : KM Walk α} (hx : Remembers x) (hf : ∀ a, Remembers (f a)) : Remembers (x >>= f) := by
  intro v
  have h1 := hx v
  cases hrun : x.run v with
  | ok a v' =>
    rw [hrun] at h1
    rw [run_bind_eq hrun]
    exact List.Subset.trans h1 (hf a v')
  | error e v' =>
    rw [hrun] at h1
    rw [run_bind_error hrun]
    exact h1

theorem remembers_onWorld (x : WM Word α) : Remembers (onWorld x) := by
  intro v
  unfold onWorld EStateM.run
  dsimp only
  cases x v.world with
  | ok a w => exact .refl _
  | error e w => exact .refl _

/-- The part of a round behind the visit. -/
theorem remembers_round {wants : WM Word Bool} {provide : WM Word Word} {next : KM Walk Word}
    (hnext : Remembers next) : Remembers (do
      if ← onWorld wants then
        let addr ← onWorld provide
        if addr ≠ 0#64 then return addr else next
      else next) := by
  refine (remembers_onWorld _).bind fun wanted => ?_
  cases wanted with
  | false => exact hnext
  | true =>
    refine (remembers_onWorld _).bind fun addr => ?_
    split_ifs
    · exact fun _ => .refl _
    · exact hnext

theorem remembers_walkLoop (base : Word) (domain : DomainReq) (n : Word) :
    ∀ fuel info, Remembers (walkLoop base domain n fuel info)
  | 0, _ => fun _ => .refl _
  | fuel + 1, info => by
    unfold walkLoop
    split_ifs
    · exact fun _ => .refl _
    · refine Remembers.bind (fun v => subset_append_left _ _) fun _ => remembers_round ?_
      exact (remembers_onWorld _).bind fun info' => remembers_walkLoop base domain n fuel info'

/-- Past the end of the list, the kernel strategy takes physical address 0 for a `FreeInfo`. -/
theorem walkLoop_past_end (hbase : base ≠ 0#64) (domain : DomainReq) (n : Word) (fuel : Nat) (v : Walk) :
    0#64 ∈ (left ((walkLoop base domain n (fuel + 1) (getFreeInfoFromPhysAddr base 0#64)).run v)).visited := by
  have hne : getFreeInfoFromPhysAddr base 0#64 ≠ 0#64 := by
    unfold getFreeInfoFromPhysAddr
    rw [BitVec.zero_add]
    exact hbase
  have hvisit : (visit base (getFreeInfoFromPhysAddr base 0#64)).run v =
      .ok () { v with visited := v.visited ++ [0#64] } := by
    unfold visit
    rw [backing_getFreeInfo]
    rfl
  rw [walkLoop, if_neg hne, run_bind_eq hvisit]
  refine remembers_round ?_ _ (mem_append_right _ mem_cons_self)
  exact (remembers_onWorld _).bind fun info' => remembers_walkLoop base domain n fuel info'

/-! ## Finding memory -/

/-- The block that a request for `n` pages has to give: from the end of the first region that holds more. -/
def FirstBlock (m : Mem) (rs : List Region) (n addr : Word) : Prop :=
  ∃ pre r post, rs = pre ++ r :: post ∧ (∀ r' ∈ pre, free m r' ≤ n.toNat) ∧ n.toNat < free m r ∧
    addr.toNat = r.base.toNat + 4096 * (free m r - n.toNat)

/-- Every `FreeInfo` that was read belongs to a donated region. -/
def Walk.Inside (v : Walk) (rs : List Region) : Prop := ∀ a ∈ v.visited, ∃ r ∈ rs, a = r.base

/-- `AllocPages(n)` comes to an end: with the block of the first region that holds more than `n` pages, or in
`Panic` when none does, and inside the donated regions either way. -/
def FindsMemory (base n : Word) (w : World Word) (rs : List Region) : Prop :=
  ∃ fuel, match (allocPagesVia base fuel n).run ⟨w, []⟩ with
    | .ok addr v => FirstBlock w.mem rs n addr ∧ v.Inside rs
    | .error e v => e = .message "Cannot allocate pages" ∧ (∀ r ∈ rs, free w.mem r ≤ n.toNat) ∧ v.Inside rs

section

variable {base n : Word} {w : World Word} {rs : List Region}

variable {m : Mem}

/-- A list splits at its first region that holds more than `n` pages. -/
theorem exists_first (h : ∃ r ∈ rs, n.toNat < free m r) :
    ∃ pre r post, rs = pre ++ r :: post ∧ (∀ r' ∈ pre, free m r' ≤ n.toNat) ∧ n.toNat < free m r := by
  have hsome : (rs.find? fun r => decide (n.toNat < free m r)).isSome := by
    rw [find?_isSome]
    obtain ⟨r, hr, hn⟩ := h
    exact ⟨r, hr, decide_eq_true hn⟩
  obtain ⟨r, hfind⟩ := Option.isSome_iff_exists.1 hsome
  obtain ⟨hn, pre, post, hrs, hpre⟩ := find?_eq_some_iff_append.1 hfind
  refine ⟨pre, r, post, hrs, ?_, of_decide_eq_true hn⟩
  intro r' hr'
  have hno := hpre r' hr'
  rw [Bool.not_eq_true', decide_eq_false_iff_not] at hno
  exact not_lt.1 hno

theorem not_can_of_le {r : Region} {domain : DomainReq} (h : free m r ≤ n.toNat) :
    ¬ (r.Serves domain ∧ n.toNat < free m r) := fun hc => absurd hc.2 (not_lt.2 h)

/-- With a region that holds enough, the walk ends there. -/
theorem Listed.finds (h : Listed base w rs) (hex : ∃ r ∈ rs, n.toNat < free w.mem r)
    (hend : n = 0#64 → ∀ r ∈ rs.head?, r.base.toNat + 4096 * free w.mem r < 2 ^ 64) : FindsMemory base n w rs := by
  obtain ⟨pre, r, post, rfl, hpre, hr⟩ := exists_first hex
  have hmem : r ∈ pre ++ r :: post := mem_append_right _ mem_cons_self
  have haddr : (r.base + (w.mem.load (numOfPagesAddr r.base) - n) <<< 12).toNat =
      r.base.toNat + 4096 * (free w.mem r - n.toNat) := by
    by_cases hn : 0 < n.toNat
    · exact provided_addr (h.within r hmem) hr (.inr hn)
    · -- nothing is asked for, so the first region serves
      have hz : n = 0#64 := BitVec.eq_of_toNat_eq (by rw [BitVec.toNat_ofNat]; omega)
      have hfirst : r.base.toNat + 4096 * free w.mem r < 2 ^ 64 := by
        cases pre with
        | nil => exact hend hz r rfl
        | cons r' pre =>
          have hkept := h.kept r' mem_cons_self
          have := hpre r' mem_cons_self
          omega
      rw [provided_toNat hr]
      omega
  have hne : r.base + (w.mem.load (numOfPagesAddr r.base) - n) <<< 12 ≠ 0#64 := by
    intro hz
    rw [hz, BitVec.toNat_ofNat] at haddr
    omega
  have hcan : ∀ r' ∈ pre, ¬ (r'.Serves none ∧ n.toNat < free w.mem r') := fun r' hr' => not_can_of_le (hpre r' hr')
  have hserves : r.Serves none := (elim_domain_iff none r).1 rfl
  obtain ⟨_, ⟨hinfo, hdom, -⟩, hskip⟩ := walkLoop_skip h.chain (fun r' hr' => h.mapped r' (mem_append_left _ hr')) hcan
  subst hinfo
  obtain ⟨_, htake⟩ := walkLoop_take (h.mapped r hmem) hdom hserves hr hne 0 ([] ++ pre.map Region.base)
  refine ⟨1 + pre.length, ?_⟩
  have hrun : (allocPagesVia base (1 + pre.length) n).run ⟨w, []⟩ = _ := (hskip 1 []).trans htake
  rw [hrun]
  refine ⟨⟨pre, r, post, rfl, hpre, hr, haddr⟩, ?_⟩
  intro a ha
  rw [nil_append, mem_append, mem_map, mem_singleton] at ha
  rcases ha with ⟨r', hr', rfl⟩ | rfl
  · exact ⟨r', mem_append_left _ hr', rfl⟩
  · exact ⟨r, hmem, rfl⟩

/-- With pointers that are physical addresses, the end of the list is the null pointer. -/
theorem Listed.panics (h : Listed 0#64 w rs) (hno : ∀ r ∈ rs, free w.mem r ≤ n.toNat) : FindsMemory 0#64 n w rs := by
  have hchain : Chain w.mem w.alloc (rs ++ []) := by rw [append_nil]; exact h.chain
  have hcan : ∀ r ∈ rs, ¬ (r.Serves none ∧ n.toNat < free w.mem r) := fun r hr => not_can_of_le (hno r hr)
  obtain ⟨info', hinfo, hskip⟩ := walkLoop_skip hchain h.mapped hcan
  obtain rfl : info' = 0#64 := hinfo
  refine ⟨1 + rs.length, ?_⟩
  have hrun : (allocPagesVia 0#64 (1 + rs.length) n).run ⟨w, []⟩ =
      .error (.message "Cannot allocate pages") ⟨w, [] ++ rs.map Region.base⟩ := (hskip 1 []).trans rfl
  rw [hrun]
  refine ⟨rfl, hno, ?_⟩
  intro a ha
  obtain ⟨r, hr, rfl⟩ := mem_map.1 ha
  exact ⟨r, hr, rfl⟩

/-- With any other base it is not, and the walk leaves the donated regions. -/
theorem Listed.not_finds (h : Listed base w rs) (hbase : base ≠ 0#64) (hno : ∀ r ∈ rs, free w.mem r ≤ n.toNat) :
    ¬ FindsMemory base n w rs := by
  rintro ⟨fuel, hfind⟩
  have hcan : ∀ r ∈ rs, ¬ (r.Serves none ∧ n.toNat < free w.mem r) := fun r hr => not_can_of_le (hno r hr)
  by_cases hf : fuel ≤ rs.length
  · obtain ⟨v', hrun⟩ := walkLoop_short [] h.chain h.mapped hcan hf
    have hrun : (allocPagesVia base fuel n).run ⟨w, []⟩ = .error .diverges v' := hrun
    rw [hrun] at hfind
    cases hfind.1
  · have hchain : Chain w.mem w.alloc (rs ++ []) := by rw [append_nil]; exact h.chain
    obtain ⟨info', hinfo, hskip⟩ := walkLoop_skip hchain h.mapped hcan
    obtain rfl : info' = 0#64 := hinfo
    obtain ⟨more, rfl⟩ : ∃ more, fuel = more + 1 + rs.length := ⟨fuel - rs.length - 1, by omega⟩
    have hrun : (allocPagesVia base (more + 1 + rs.length) n).run ⟨w, []⟩ = _ := hskip (more + 1) []
    have hout := walkLoop_past_end hbase none n more ⟨w, [] ++ rs.map Region.base⟩
    rw [hrun] at hfind
    generalize (walkLoop base none n (more + 1) (getFreeInfoFromPhysAddr base 0#64)).run
      ⟨w, [] ++ rs.map Region.base⟩ = res at hfind hout
    have hin : (left res).Inside rs := by
      cases res with
      | ok addr v => exact hfind.2
      | error e v => exact hfind.2.2
    obtain ⟨r, -, hr⟩ := hin 0#64 hout
    have := r.nonzero
    rw [← hr] at this
    exact absurd this (by decide)

/-- A block of no pages at the very end of the address space is the null pointer to `AllocPages`. -/
theorem FindsMemory.end_lt (h : Listed base w rs) (hfind : FindsMemory base 0#64 w rs) :
    ∀ r ∈ rs.head?, r.base.toNat + 4096 * free w.mem r < 2 ^ 64 := by
  intro r hr
  obtain ⟨post, rfl⟩ : ∃ post, rs = r :: post := ⟨_, eq_cons_of_mem_head? hr⟩
  obtain ⟨_, hfind⟩ := hfind
  split at hfind
  · rename_i addr v _
    obtain ⟨⟨pre, _, _, hrs, hpre, -, haddr⟩, -⟩ := hfind
    cases pre with
    | nil =>
      obtain ⟨rfl, -⟩ := cons.inj hrs
      rw [BitVec.toNat_ofNat] at haddr
      omega
    | cons r'' pre =>
      obtain ⟨rfl, -⟩ := cons.inj hrs
      have := hpre r mem_cons_self
      rw [BitVec.toNat_ofNat] at this
      omega
  · have := hfind.2.1 r mem_cons_self
    rw [BitVec.toNat_ofNat] at this
    omega

end

/-- `AllocPages(n)` behaves exactly when its pointers are physical addresses or a region can serve the request. The
second condition is about requests for no pages at all. -/
theorem allocPages_findsMemory_iff {base : Word} {w : World Word} {rs : List Region} (h : Listed base w rs) (n : Word) :
    FindsMemory base n w rs ↔ (base = 0#64 ∨ ∃ r ∈ rs, n.toNat < free w.mem r) ∧
      (n = 0#64 → ∀ r ∈ rs.head?, r.base.toNat + 4096 * free w.mem r < 2 ^ 64) := by
  constructor
  · intro hfind
    constructor
    · by_contra hno
      rw [not_or, not_exists] at hno
      refine h.not_finds hno.1 ?_ hfind
      intro r hr
      exact not_lt.1 fun hn => hno.2 r ⟨hr, hn⟩
    · rintro rfl
      exact hfind.end_lt h
  · rintro ⟨hcond, hend⟩
    by_cases hex : ∃ r ∈ rs, n.toNat < free w.mem r
    · exact h.finds hex hend
    · obtain rfl : base = 0#64 := hcond.resolve_right hex
      refine h.panics ?_
      intro r hr
      exact not_lt.1 fun hn => hex ⟨r, hr, hn⟩

/-- `kernel_phys_page_map_begin` on a machine with 40-bit physical addresses. -/
def straightMappingBase : Word := ~~~((1#64 <<< (40 - 1)) - 1#64)

/-- One region of four pages, donated under the kernel strategy. -/
def kernelList : World Word := ⟨(((WriteBack.Memory.ofInit fun _ => 0#64).store 0x4000 4#64).store 0x4008 0#64).store
  0x4010 1#64, 0x4000#64⟩

theorem listed_empty (base : Word) (m : Mem) : Listed base ⟨m, 0#64⟩ [] := by
  refine ⟨rfl, ?_, ?_, ?_⟩ <;> intro r hr <;> cases hr

theorem listed_kernelList : Listed straightMappingBase kernelList [fourPages] := by
  have hrun : (freePagesVia straightMappingBase fourPages.base fourPages.numOfPages fourPages.domain).run
      ⟨WriteBack.Memory.ofInit fun _ => 0#64, 0#64⟩ = .ok () kernelList := rfl
  exact (listed_empty _ _).donate .nil (fun r hr => by cases hr) (by decide) hrun

/-- The list serves a request for three pages. -/
theorem allocPages_findsMemory_three : FindsMemory straightMappingBase 3#64 kernelList [fourPages] := by
  refine (allocPages_findsMemory_iff listed_kernelList 3#64).2 ⟨.inr ⟨fourPages, mem_cons_self, by decide⟩, ?_⟩
  intro h
  exact absurd h (by decide)

/-- A request for four pages is not refused: the walk goes on at physical address 0. -/
theorem allocPages_leaves_list : straightMappingBase.toNat % 4096 = 0 ∧ straightMappingBase ≠ 0#64 ∧
    Listed straightMappingBase kernelList [fourPages] ∧
    ¬ FindsMemory straightMappingBase 4#64 kernelList [fourPages] := by
  refine ⟨by decide, by decide, listed_kernelList, listed_kernelList.not_finds (by decide) ?_⟩
  intro r hr
  rw [mem_singleton.1 hr]
  decide

end Liumos.Dram
