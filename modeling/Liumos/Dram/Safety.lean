/-
The physical page allocator hands out every page at most once: over every history of donations,
allocations and stores of the callers into their blocks, each block lies in one donated region behind
its first page, and no two blocks overlap.

The free list lives in the memory it manages, so the blocks and the list are kept apart by one
invariant: in each region the pages below `num_of_pages_` belong to the list, those above to blocks.
-/
import Liumos.Dram.Allocator
import Liumos.Paging.MappingSteps

namespace Liumos.Dram

open List BitVec

/-! ## The free list under its operations -/

section

variable {m m' : Mem} {head : Word} {rs : List Region}

instance : Std.Symm Region.Disjoint := ⟨fun _ _ h => h.symm⟩

variable {r r' : Region} {w w' : World Word}

theorem FreeListOk.disjoint_of_ne (h : FreeListOk m head rs) (hr : r ∈ rs) (hr' : r' ∈ rs) (hne : r ≠ r') :
    r.Disjoint r' := h.disjoint.forall hr hr' hne

theorem Region.base_lt_stop (r : Region) : r.base.toNat + 4096 ≤ r.stop := by
  have := r.pos
  unfold stop
  omega

theorem free_congr (hm : ∀ a, r.base.toNat ≤ a → a < r.base.toNat + 4096 → m'.load a = m.load a) :
    free m' r = free m r := by
  unfold free
  rw [hm (numOfPagesAddr r.base) (le_refl _) (by unfold numOfPagesAddr; omega)]

/-- The list depends on the first pages of its regions only. -/
theorem FreeListOk.congr (h : FreeListOk m head rs)
    (hm : ∀ r ∈ rs, ∀ a, r.base.toNat ≤ a → a < r.base.toNat + 4096 → m'.load a = m.load a) :
    FreeListOk m' head rs := by
  refine ⟨h.chain.congr ?_, ?_, ?_, h.disjoint⟩
  · intro r hr
    constructor
    · exact hm r hr _ (by unfold nextPhysAddrAddr; omega) (by unfold nextPhysAddrAddr; omega)
    · exact hm r hr _ (by unfold proximityDomainAddr; omega) (by unfold proximityDomainAddr; omega)
  · intro r hr; rw [free_congr (hm r hr)]; exact h.kept r hr
  · intro r hr; rw [free_congr (hm r hr)]; exact h.within r hr

/-- A donation puts its region in front. -/
theorem FreeListOk.donate {u : Unit} (h : FreeListOk w.mem w.alloc rs) (hd : ∀ r' ∈ rs, r.Disjoint r')
    (hrun : (freePagesWithProximityDomain r.base r.numOfPages r.domain).run w = .ok u w') :
    FreeListOk w'.mem w'.alloc (r :: rs) ∧ free w'.mem r = r.numOfPages.toNat ∧
      ∀ a, ¬ (r.base.toNat ≤ a ∧ a < r.stop) → w'.mem.load a = w.mem.load a := by
  obtain ⟨halloc, hnum, hnext, hdom, hsame⟩ := run_freePages_ok hrun
  have hout : ∀ a, ¬ (r.base.toNat ≤ a ∧ a < r.stop) → w'.mem.load a = w.mem.load a := by
    intro a ha
    have := r.base_lt_stop
    refine hsame a ?_ ?_ ?_ <;> rintro rfl <;> apply ha
    · unfold numOfPagesAddr; omega
    · unfold nextPhysAddrAddr; omega
    · unfold proximityDomainAddr; omega
  have hfree : free w'.mem r = r.numOfPages.toNat := by unfold free; rw [hnum]
  have hrest : FreeListOk w'.mem w.alloc rs := by
    refine h.congr fun r' hr' a h1 h2 => hout a ?_
    have hdisj := hd r' hr'
    have := r'.base_lt_stop
    unfold Region.Disjoint at hdisj
    omega
  refine ⟨⟨⟨halloc, hdom, by rw [hnext]; exact hrest.chain⟩, ?_, ?_, pairwise_cons.2 ⟨hd, h.disjoint⟩⟩, hfree, hout⟩
  · rintro r' hr'
    rcases mem_cons.1 hr' with rfl | hr'
    · rw [hfree]; exact r'.pos
    · exact hrest.kept r' hr'
  · rintro r' hr'
    rcases mem_cons.1 hr' with rfl | hr'
    · exact hfree.le
    · exact hrest.within r' hr'

/-- What a successful allocation did: a region that serves the request gave the last of its free pages. -/
structure Provided (rs : List Region) (domain : DomainReq) (n : Word) (w w' : World Word) (addr : Word) (r : Region) :
    Prop where
  mem : r ∈ rs
  serves : r.Serves domain
  can : n.toNat < free w.mem r
  addr_eq : addr.toNat = r.base.toNat + 4096 * (free w.mem r - n.toNat)
  list : FreeListOk w'.mem w'.alloc rs
  free_eq : free w'.mem r = free w.mem r - n.toNat
  others : ∀ r' ∈ rs, r' ≠ r → free w'.mem r' = free w.mem r'
  loads : ∀ a, a ≠ numOfPagesAddr r.base → w'.mem.load a = w.mem.load a

variable {domain : DomainReq}

theorem FreeListOk.alloc {w w' : World Word} {fuel : Nat} {n addr : Word} (h : FreeListOk w.mem w.alloc rs)
    (hrun : (alloc fuel domain n).run w = .ok addr w') : ∃ r, Provided rs domain n w w' addr r := by
  have hout := allocLoop_outcome domain n fuel h.chain h.within
  have hrun : (allocLoop domain n fuel w.alloc).run w = .ok addr w' := hrun
  rw [hrun] at hout
  cases hout with
  | @provided r _ _ mem serves can addr_eq alloc_eq loads =>
    have hload : ∀ a, a ≠ numOfPagesAddr r.base → w'.mem.load a = w.mem.load a := by
      intro a ha; rw [loads, if_neg ha]
    have hfree : free w'.mem r = free w.mem r - n.toNat := by
      unfold free at can ⊢
      rw [loads, if_pos rfl]
      exact toNat_sub_of_le (le_def.2 can.le)
    have hothers : ∀ r' ∈ rs, r' ≠ r → free w'.mem r' = free w.mem r' := by
      intro r' hr' hne
      have hdisj := h.disjoint_of_ne hr' mem hne
      have := r.base_lt_stop
      have := r'.base_lt_stop
      unfold free
      rw [hload _ (by unfold numOfPagesAddr; unfold Region.Disjoint at hdisj; omega)]
    have hcases : ∀ r' ∈ rs, 0 < free w'.mem r' ∧ free w'.mem r' ≤ free w.mem r' := by
      intro r' hr'
      by_cases hne : r' = r
      · rw [hne, hfree]; omega
      · rw [hothers r' hr' hne]; exact ⟨h.kept r' hr', le_refl _⟩
    refine ⟨r, mem, serves, can, addr_eq, ⟨?_, fun r' hr' => (hcases r' hr').1, ?_, h.disjoint⟩, hfree, hothers, hload⟩
    · rw [alloc_eq]
      refine h.chain.congr fun r' _ => ?_
      have := r.aligned
      have := r'.aligned
      constructor
      · exact hload _ (by unfold nextPhysAddrAddr numOfPagesAddr; omega)
      · exact hload _ (by unfold proximityDomainAddr numOfPagesAddr; omega)
    · intro r' hr'; exact (hcases r' hr').2.trans (h.within r' hr')

/-- An allocation takes no page away from the other regions and gives none back. -/
theorem Provided.free_le {n addr : Word}
    (h : Provided rs domain n w w' addr r) (hr' : r' ∈ rs) : free w'.mem r' ≤ free w.mem r' := by
  by_cases hne : r' = r
  · rw [hne, h.free_eq]; exact Nat.sub_le _ _
  · exact (h.others r' hr' hne).le

end

/-! ## Histories -/

/-- A block that `AllocPages` or `AllocPagesInProximityDomain` returned, with the request. -/
structure Block where
  addr : Word
  numOfPages : Word
  domain : DomainReq

def Block.stop (b : Block) : Nat := b.addr.toNat + 4096 * b.numOfPages.toNat

def Block.Disjoint (b b' : Block) : Prop := b.stop ≤ b'.addr.toNat ∨ b'.stop ≤ b.addr.toNat

/-- The allocator, the regions donated and the blocks returned so far, newest first. -/
structure System where
  world : World Word
  donated : List Region
  blocks : List Block

/-- The constructed allocator, over any memory. -/
def System.init (m : Mem) : System := ⟨⟨m, 0#64⟩, [], []⟩

/-- Calls that return, and the stores of everyone else: into a block that was returned, or outside of
what was donated. -/
inductive Step : System → System → Prop
  | donate {s : System} {w' : World Word} (r : Region) (disjoint : ∀ r' ∈ s.donated, r.Disjoint r')
      (run : (freePagesWithProximityDomain r.base r.numOfPages r.domain).run s.world = .ok () w') :
      Step s ⟨w', r :: s.donated, s.blocks⟩
  | allocPages {s : System} {w' : World Word} {fuel : Nat} {n addr : Word}
      (run : (allocPages fuel n).run s.world = .ok addr w') :
      Step s ⟨w', s.donated, ⟨addr, n, none⟩ :: s.blocks⟩
  | allocPagesInProximityDomain {s : System} {w' : World Word} {fuel : Nat} {n addr : Word} {d : BitVec 32}
      (run : (allocPagesInProximityDomain fuel n d).run s.world = .ok addr w') :
      Step s ⟨w', s.donated, ⟨addr, n, some d⟩ :: s.blocks⟩
  | write {s : System} {a : Nat} {v : Word} (own : (∃ b ∈ s.blocks, b.addr.toNat ≤ a ∧ a < b.stop) ∨
      ∀ r ∈ s.donated, ¬ (r.base.toNat ≤ a ∧ a < r.stop)) :
      Step s { s with world := { s.world with mem := s.world.mem.store a v } }

/-- The states that histories of the allocator reach. -/
def Reachable (s : System) : Prop := ∃ m, Relation.ReflTransGen Step (System.init m) s

/-- A block lies behind the free pages of its region. -/
structure Block.Of (m : Mem) (b : Block) (r : Region) : Prop where
  above : r.base.toNat + 4096 * free m r ≤ b.addr.toNat
  below : b.stop ≤ r.stop
  serves : r.Serves b.domain

structure System.Inv (s : System) : Prop where
  list : FreeListOk s.world.mem s.world.alloc s.donated
  blocks : ∀ b ∈ s.blocks, ∃ r ∈ s.donated, b.Of s.world.mem r
  disjoint : s.blocks.Pairwise Block.Disjoint

theorem System.inv_init (m : Mem) : (System.init m).Inv := by
  refine ⟨⟨rfl, ?_, ?_, .nil⟩, ?_, .nil⟩ <;> intro _ h <;> exact absurd h not_mem_nil

/-- A block of one region is disjoint from the pages of another. -/
theorem Block.Of.disjoint {m : Mem} {b b' : Block} {r r' : Region} (h : b.Of m r) (h' : b'.Of m r')
    (hd : r.Disjoint r') : b.Disjoint b' := by
  have := h.above
  have := h.below
  have := h'.above
  have := h'.below
  unfold Region.Disjoint at hd
  unfold Block.Disjoint
  omega

/-- The one step of both allocation paths. -/
theorem System.Inv.alloc {s : System} (h : s.Inv) {w' : World Word} {fuel : Nat} {n addr : Word}
    (hrun : (Dram.alloc fuel domain n).run s.world = .ok addr w') :
    System.Inv ⟨w', s.donated, ⟨addr, n, domain⟩ :: s.blocks⟩ := by
  obtain ⟨r, hp⟩ := h.list.alloc hrun
  have haddr := hp.addr_eq
  have hwithin := h.list.within r hp.mem
  have hcan := hp.can
  have hold : ∀ b ∈ s.blocks, ∃ r' ∈ s.donated, b.Of s.world.mem r' ∧ b.Of w'.mem r' := by
    intro b hb
    obtain ⟨r', hr', hof⟩ := h.blocks b hb
    have := hp.free_le hr'
    have := hof.above
    exact ⟨r', hr', hof, ⟨by omega, hof.below, hof.serves⟩⟩
  have hnew : Block.Of w'.mem ⟨addr, n, domain⟩ r := by
    refine ⟨?_, ?_, hp.serves⟩
    · rw [hp.free_eq]; exact haddr.ge
    · simp only [Block.stop, Region.stop]; omega
  refine ⟨hp.list, ?_, pairwise_cons.2 ⟨?_, h.disjoint⟩⟩
  · intro b hb
    rcases mem_cons.1 hb with rfl | hb
    · exact ⟨r, hp.mem, hnew⟩
    · obtain ⟨r', hr', -, hof⟩ := hold b hb
      exact ⟨r', hr', hof⟩
  · intro b hb
    obtain ⟨r', hr', hof, hof'⟩ := hold b hb
    by_cases hne : r = r'
    · -- both from one region: the new block ends where its free pages ended
      subst hne
      have := hof.above
      left
      simp only [Block.stop]
      omega
    · exact hnew.disjoint hof' (h.list.disjoint_of_ne hp.mem hr' hne)

theorem System.Inv.donate {s : System} (h : s.Inv) {w' : World Word} {r : Region} {u : Unit}
    (hd : ∀ r' ∈ s.donated, r.Disjoint r')
    (hrun : (freePagesWithProximityDomain r.base r.numOfPages r.domain).run s.world = .ok u w') :
    System.Inv ⟨w', r :: s.donated, s.blocks⟩ := by
  obtain ⟨hlist, -, hsame⟩ := h.list.donate hd hrun
  refine ⟨hlist, ?_, h.disjoint⟩
  intro b hb
  obtain ⟨r', hr', hof⟩ := h.blocks b hb
  refine ⟨r', mem_cons_of_mem r hr', ?_, hof.below, hof.serves⟩
  have hdisj := hd r' hr'
  have := r'.base_lt_stop
  have hfree : free w'.mem r' = free s.world.mem r' := by
    unfold free
    rw [hsame _ (by unfold numOfPagesAddr; unfold Region.Disjoint at hdisj; omega)]
  rw [hfree]
  exact hof.above

variable {s : System} {a : Nat}

section

variable (h : s.Inv) (own : (∃ b ∈ s.blocks, b.addr.toNat ≤ a ∧ a < b.stop) ∨ ∀ r ∈ s.donated,
  ¬ (r.base.toNat ≤ a ∧ a < r.stop))

include h own

/-- A store of a caller misses every first page. -/
theorem System.Inv.same_of_write (v : Word) : ∀ r ∈ s.donated, ∀ x, r.base.toNat ≤ x → x < r.base.toNat + 4096 →
      (s.world.mem.store a v).load x = s.world.mem.load x := by
  have hmiss : ∀ r ∈ s.donated, ¬ (r.base.toNat ≤ a ∧ a < r.base.toNat + 4096) := by
    intro r hr ha
    have := r.base_lt_stop
    rcases own with ⟨b, hb, hba⟩ | hout
    · obtain ⟨r', hr', hof⟩ := h.blocks b hb
      have := hof.above
      have := hof.below
      have := h.list.kept r' hr'
      by_cases hne : r = r'
      · subst hne; omega
      · have hdisj := h.list.disjoint_of_ne hr hr' hne
        unfold Region.Disjoint at hdisj
        omega
    · exact hout r hr (by omega)
  intro r hr x h1 h2
  refine WriteBack.Memory.load_store_ne _ _ ?_
  rintro rfl
  exact hmiss r hr ⟨h1, h2⟩

theorem System.Inv.write {v : Word} : System.Inv { s with world := { s.world with mem := s.world.mem.store a v } } := by
  have hsame := h.same_of_write own v
  refine ⟨h.list.congr hsame, ?_, h.disjoint⟩
  intro b hb
  obtain ⟨r, hr, hof⟩ := h.blocks b hb
  refine ⟨r, hr, ?_, hof.below, hof.serves⟩
  rw [free_congr (hsame r hr)]
  exact hof.above

end

theorem Step.inv {s' : System} (h : Step s s') (hi : s.Inv) : s'.Inv := by
  cases h with
  | donate r disjoint run => exact hi.donate disjoint run
  | allocPages run => exact hi.alloc run
  | allocPagesInProximityDomain run => exact hi.alloc run
  | write own => exact hi.write own

theorem Reachable.inv {s : System} (h : Reachable s) : s.Inv := by
  obtain ⟨m, h⟩ := h
  induction h with
  | refl => exact System.inv_init m
  | tail _ hstep ih => exact hstep.inv ih

/-- Every block lies in one donated region, behind its first page, in the domain that was asked for, and
no two blocks overlap. -/
theorem blocks_within_and_disjoint {s : System} (h : Reachable s) :
    (∀ b ∈ s.blocks, ∃ r ∈ s.donated, r.base.toNat + 4096 ≤ b.addr.toNat ∧ b.stop ≤ r.stop ∧
      ∀ d, b.domain = some d → r.domain = d) ∧ s.blocks.Pairwise Block.Disjoint := by
  refine ⟨?_, h.inv.disjoint⟩
  intro b hb
  obtain ⟨r, hr, hof⟩ := h.inv.blocks b hb
  have := h.inv.list.kept r hr
  have := hof.above
  exact ⟨r, hr, by omega, hof.below, hof.serves⟩

def fourPages : Region := ⟨0x4000#64, 4#64, 1#32, by decide, by decide, by decide, by decide⟩

/-- A region of four pages gives two of them, is written to there, and gives one more. -/
theorem blocks_within_and_disjoint_fourPages :
    ∃ s, Reachable s ∧ s.blocks = [⟨0x5000#64, 1#64, none⟩, ⟨0x6000#64, 2#64, some 1#32⟩] ∧
      s.blocks.Pairwise Block.Disjoint := by
  have h0 := Relation.ReflTransGen.refl (r := Step) (a := System.init (WriteBack.Memory.ofInit fun _ => 0#64))
  have h1 := h0.tail (.donate fourPages (by intro r hr; cases hr) rfl)
  have h2 := h1.tail (.allocPagesInProximityDomain
    (show (allocPagesInProximityDomain 2 2#64 1#32).run _ = .ok 0x6000#64 _ from rfl))
  have h3 := h2.tail (.write (a := 0x6000) (v := 7#64) (.inl ⟨_, mem_cons_self, by decide, by decide⟩))
  have h4 := h3.tail (.allocPages (show (allocPages 2 1#64).run _ = .ok 0x5000#64 _ from rfl))
  exact ⟨_, ⟨_, h4⟩, rfl, (blocks_within_and_disjoint ⟨_, h4⟩).2⟩

/-! ## What callers rely on -/

/-- An allocation that may run as many rounds as there are regions is never cut off, and it fails only when no region
that serves the request has enough pages left. -/
theorem FreeListOk.alloc_total {w : World Word} {rs : List Region} (h : FreeListOk w.mem w.alloc rs) {fuel : Nat}
    (hf : rs.length < fuel) (domain : DomainReq) (n : Word) :
    (∃ addr w', (Dram.alloc fuel domain n).run w = .ok addr w') ∨
      (∃ w', (Dram.alloc fuel domain n).run w = .error (.message "Cannot allocate pages") w') ∧
        ∀ r ∈ rs, r.Serves domain → 0 < n.toNat → free w.mem r ≤ n.toNat := by
  have hout := allocLoop_outcome domain n fuel h.chain h.within
  have hrun : (Dram.alloc fuel domain n).run w = (allocLoop domain n fuel w.alloc).run w := rfl
  rw [hrun]
  generalize (allocLoop domain n fuel w.alloc).run w = res at hout ⊢
  cases hout with
  | provided => exact .inl ⟨_, _, rfl⟩
  | exhausted none_can => exact .inr ⟨⟨_, rfl⟩, none_can⟩
  | cutOff short => omega

/-- The pages that still belong to the free list. -/
def pool (rs : List Region) (w : World Word) (q : Nat) : Prop :=
  ∃ r ∈ rs, r.base.toNat ≤ q ∧ q < r.base.toNat + 4096 * free w.mem r

/-- Once regions have been donated, `AllocPages` is an allocator for `CreatePageMapping`. -/
theorem allocPages_allocOk (fuel : Nat) (rs : List Region) :
    Paging.AllocOk (allocPages fuel) ⟨fun w => FreeListOk w.mem w.alloc rs, pool rs⟩ where
  inv h hrun := by
    obtain ⟨r, hp⟩ := h.alloc hrun
    exact hp.list
  page h hrun := by
    obtain ⟨r, hp⟩ := h.alloc hrun
    have hcan := hp.can
    have haddr := hp.addr_eq
    have := r.aligned
    simp only [toNat_ofNat] at hcan haddr
    exact ⟨by omega, r, hp.mem, by omega, by omega⟩
  shrinks h hrun := by
    obtain ⟨r, hp⟩ := h.alloc hrun
    have haddr := hp.addr_eq
    have hcan := hp.can
    simp only [toNat_ofNat] at haddr hcan
    rintro q ⟨r', hr', h1, h2⟩
    have := hp.free_le hr'
    refine ⟨⟨r', hr', h1, by omega⟩, ?_⟩
    by_cases hne : r' = r
    · subst hne
      have := hp.free_eq
      simp only [toNat_ofNat] at this
      omega
    · have hdisj := h.disjoint_of_ne hr' hp.mem hne
      have := h.within r' hr'
      have := h.within r hp.mem
      unfold Region.Disjoint Region.stop at hdisj
      omega
  writes h hrun := by
    obtain ⟨r, hp⟩ := h.alloc hrun
    intro a ha
    refine hp.loads a ?_
    rintro rfl
    have := h.kept r hp.mem
    have := r.aligned
    exact ha ⟨r, hp.mem, by unfold numOfPagesAddr; omega, by unfold numOfPagesAddr; omega⟩
  frame := by
    intro w m h hm
    have hsame : ∀ r ∈ rs, ∀ a, r.base.toNat ≤ a → a < r.base.toNat + 4096 → m.load a = w.mem.load a := by
      intro r hr a h1 h2
      have := h.kept r hr
      have := r.aligned
      exact hm a ⟨r, hr, by omega, by omega⟩
    refine ⟨h.congr hsame, ?_⟩
    rintro q ⟨r, hr, h1, h2⟩
    refine ⟨r, hr, h1, ?_⟩
    rw [← free_congr (hsame r hr)]
    exact h2

end Liumos.Dram
