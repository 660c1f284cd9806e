/-
Page tables that share the upper half with the kernel's. The trees of a family have tables in common, each on the same
path in all of them and below an upper entry of the PML4. A store to a common table is then seen through every tree that
has it, and `CreatePageMapping` on one of them keeps the upper half translating alike through all, as long as its range
stays out of the upper half or in entries that lead every tree to the same table.
Source: paging.h.
-/
import Liumos.Paging.MapFrame

namespace Liumos.Paging

/-! ## The upper half through two tables -/

/-- The PML4 entry of the address is in the upper half of the table. -/
def Upper (va : Word) : Prop := kNumOfEntries / 2 ≤ addr2index 3 va

instance (va : Word) : Decidable (Upper va) := inferInstanceAs (Decidable (_ ≤ _))

theorem Upper.congr {va va' : Word} (h : Upper va) (hp : path 1 va' = path 1 va) : Upper va' := by
  rw [path_one, path_one] at hp
  unfold Upper
  rw [hp]
  exact h

/-- The PML4 entry of the address leads to no table, or to an empty one. -/
def Bare (mask : Word) (m : Mem) (root va : Word) : Prop :=
  ∀ va' t, path 1 va' = path 1 va → tableAt mask m root va' 1 = some t → isPresent (m.load (entryAddr 2 t va')) = false

/-- The PML4 entries of the address lead to one table, or nowhere in both. -/
def Alike (mask : Word) (m : Mem) (root root' va : Word) : Prop :=
  tableAt mask m root va 1 = tableAt mask m root' va 1 ∨ (Bare mask m root va ∧ Bare mask m root' va)

section

variable {mask root root' va : Word} {m : Mem}

/-- A PML4 entry maps no page, so that without a table below it there is no translation. -/
theorem v2p_of_table_none (h : tableAt mask m root va 1 = none) : v2p mask m 3 root va = kAddrCannotTranslate := by
  refine v2p_of_not_present (Nat.zero_le 3) rfl ?_
  by_contra hp
  rw [Bool.not_eq_false] at hp
  have hc : tableAt mask m root va 1 = _ := child_of hp (isPage_three _)
  rw [h] at hc
  cases hc

theorem Bare.v2p_eq (h : Bare mask m root va) : v2p mask m 3 root va = kAddrCannotTranslate := by
  cases ht : tableAt mask m root va 1 with
  | none => exact v2p_of_table_none ht
  | some t => exact v2p_of_not_present (by omega) ht (h va t rfl ht)

theorem Alike.v2p_eq (h : Alike mask m root root' va) : v2p mask m 3 root va = v2p mask m 3 root' va := by
  rcases h with h | ⟨h, h'⟩
  · cases ht : tableAt mask m root' va 1 with
    | none => rw [v2p_of_table_none (h.trans ht), v2p_of_table_none ht]
    | some t => rw [v2p_descend (by omega) (h.trans ht), v2p_descend (by omega) ht]
  · rw [h.v2p_eq, h'.v2p_eq]

theorem bare_of_none (h : tableAt mask m root va 1 = none) : Bare mask m root va := by
  intro va' t hp ht
  rw [tableAt_congr (by omega) hp, h] at ht
  cases ht

end

/-! ## Families -/

section

variable {σ : Type} {A : Pool σ} {allocPages : Word → WM σ Word} [hA : AllocOk allocPages A]
  {mask attr kernel : Word} {procs : List Word}

/-- The table of the kernel with those of the processes. -/
structure Family (A : Pool σ) (mask kernel : Word) (procs : List Word) (w : World σ) : Prop where
  tree : ∀ r ∈ kernel :: procs, TreeInv A mask r w
  common : ∀ {r r' : Word} {d d' : Nat} {va va' t : Word}, r ∈ kernel :: procs → r' ∈ kernel :: procs → r ≠ r' → d ≤ 3 →
    d' ≤ 3 → tableAt mask w.mem r va d = some t → tableAt mask w.mem r' va' d' = some t →
    d = d' ∧ path d va = path d va' ∧ 1 ≤ d ∧ Upper va
  alike : ∀ p ∈ procs, ∀ va, Upper va → Alike mask w.mem p kernel va

/-- The PML4 entries of the address lead all the trees to the same table. -/
def Joined (mask : Word) (m : Mem) (kernel : Word) (procs : List Word) (va : Word) : Prop :=
  ∀ p ∈ procs, ∃ t, tableAt mask m p va 1 = some t ∧ tableAt mask m kernel va 1 = some t

/-- Every tree of the family keeps its tables. -/
def AllExtend (mask kernel : Word) (procs : List Word) (m m' : Mem) : Prop := ∀ r ∈ kernel :: procs, Extends mask r m m'

theorem AllExtend.refl (m : Mem) : AllExtend mask kernel procs m m := fun _ _ => Extends.refl m

theorem AllExtend.trans {m1 m2 m3 : Mem} (h : AllExtend mask kernel procs m1 m2)
    (h' : AllExtend mask kernel procs m2 m3) : AllExtend mask kernel procs m1 m3 := fun r hr => (h r hr).trans (h' r hr)

variable {va r' t : Word} {w w' : World σ} {d : Nat}

theorem Joined.extend {m m' : Mem} (h : Joined mask m kernel procs va) (hext : AllExtend mask kernel procs m m') :
    Joined mask m' kernel procs va := by
  intro p hp
  obtain ⟨t, ht, ht'⟩ := h p hp
  exact ⟨t, hext p (List.mem_cons_of_mem _ hp) va 1 t (by omega) ht,
    hext kernel List.mem_cons_self va 1 t (by omega) ht'⟩

section

variable (h : Family A mask kernel procs w) (hr : r ∈ kernel :: procs) (hr' : r' ∈ kernel :: procs) (hd : d ≤ 3)

include h hr hr' hd

/-- A table of one tree is in another one at the same place, or not at all. -/
theorem Family.same_or_apart (ht : tableAt mask w.mem r va d = some t) :
    tableAt mask w.mem r' va d = some t ∨ ∀ va' k, k ≤ 3 → tableAt mask w.mem r' va' k ≠ some t := by
  by_cases heq : r = r'
  · exact .inl (heq ▸ ht)
  · by_cases hin : ∃ va' k, k ≤ 3 ∧ tableAt mask w.mem r' va' k = some t
    · obtain ⟨va', k, hk, ht'⟩ := hin
      obtain ⟨rfl, hp, -, -⟩ := h.common hr hr' heq hd hk ht ht'
      rw [tableAt_congr (by omega) hp]
      exact .inl ht'
    · exact .inr fun va' k hk ht' => hin ⟨va', k, hk, ht'⟩

/-- Two places of one table, in one tree or in two. -/
theorem Family.place {va' : Word} {d' : Nat} (hd' : d' ≤ 3) (ht : tableAt mask w.mem r va d = some t)
    (ht' : tableAt mask w.mem r' va' d' = some t) : d = d' ∧ path d va = path d va' := by
  by_cases heq : r = r'
  · subst heq
    exact (h.tree r hr).tree.inj hd hd' ht ht'
  · obtain ⟨hdd, hp, -, -⟩ := h.common hr hr' heq hd hd' ht ht'
    exact ⟨hdd, hp⟩

end

/-! ## One step -/

/-- The table `t'` has been hung, empty, into the entry of `va` in the table `t` at depth `d`. -/
structure Hung (mask kernel : Word) (procs : List Word) (m m' : Mem) (d : Nat) (va t x va' : Word) (k : Nat)
    (t' : Word) : Prop where
  table : tableAt mask m x va d = some t
  depth : k = d + 1
  onPath : path (d + 1) va' = path (d + 1) va
  fresh : ∀ y ∈ kernel :: procs, ∀ va'' k', k' ≤ 3 → tableAt mask m y va'' k' ≠ some t'
  empty : ∀ va'', isPresent (m'.load (entryAddr 2 t' va'')) = false

/-- A step that stores to the entry of `va` in the table `t` at depth `d` of one of the trees, and may hang a table
there. Below an upper PML4 entry all the trees have to lead to that table. -/
structure FamilyStep (A : Pool σ) (mask kernel : Word) (procs : List Word)
    (w w' : World σ) (d : Nat) (va t : Word) : Prop where
  depth : d ≤ 3
  table : ∃ r ∈ kernel :: procs, tableAt mask w.mem r va d = some t
  joined : 1 ≤ d → Upper va → Joined mask w.mem kernel procs va
  tree : ∀ x ∈ kernel :: procs, TreeInv A mask x w'
  ext : AllExtend mask kernel procs w.mem w'.mem
  tables : ∀ x ∈ kernel :: procs, ∀ va' k t', k ≤ 3 → tableAt mask w'.mem x va' k = some t' →
    tableAt mask w.mem x va' k = some t' ∨ Hung mask kernel procs w.mem w'.mem d va t x va' k t'
  other : ∀ x ∈ kernel :: procs, ∀ va' t', tableAt mask w.mem x va' 1 = some t' → t' ≠ t →
    w'.mem.load (entryAddr 2 t' va') = w.mem.load (entryAddr 2 t' va')

section

variable {w w' : World σ} {d : Nat} {va t : Word}

theorem FamilyStep.common (hs : FamilyStep A mask kernel procs w w' d va t) (h : Family A mask kernel procs w)
    {r r' : Word} {k k' : Nat} {va1 va2 t' : Word} (hr : r ∈ kernel :: procs) (hr' : r' ∈ kernel :: procs)
    (hne : r ≠ r') (hk : k ≤ 3) (hk' : k' ≤ 3) (h₁ : tableAt mask w'.mem r va1 k = some t')
    (h2 : tableAt mask w'.mem r' va2 k' = some t') : k = k' ∧ path k va1 = path k va2 ∧ 1 ≤ k ∧ Upper va1 := by
  rcases hs.tables r hr va1 k t' hk h₁ with hold1 | hnew1
  · rcases hs.tables r' hr' va2 k' t' hk' h2 with hold2 | hnew2
    · exact h.common hr hr' hne hk hk' hold1 hold2
    · exact absurd hold1 (hnew2.fresh r hr va1 k hk)
  · rcases hs.tables r' hr' va2 k' t' hk' h2 with hold2 | hnew2
    · exact absurd hold2 (hnew1.fresh r' hr' va2 k' hk')
    · -- both trees have `t`, which is then below an upper entry itself
      obtain ⟨-, -, hd1, hup⟩ := h.common hr hr' hne hs.depth hs.depth hnew1.table hnew2.table
      obtain rfl := hnew1.depth
      have hone : path 1 va1 = path 1 va := path_mono (by omega) (by omega) hnew1.onPath
      exact ⟨hnew2.depth.symm, hnew1.onPath.trans hnew2.onPath.symm, by omega, hup.congr hone⟩

variable {x va' : Word}

section

variable (hs : FamilyStep A mask kernel procs w w' d va t)

include hs

/-- Where two PML4 entries lead to different tables, the step is not below them. -/
theorem FamilyStep.ne_of_split (h : Family A mask kernel procs w) {p t' : Word} (hp : p ∈ procs) (hup : Upper va')
    (hx : x ∈ kernel :: procs) (hsplit : tableAt mask w.mem p va' 1 ≠ tableAt mask w.mem kernel va' 1)
    (ht' : tableAt mask w.mem x va' 1 = some t') : t' ≠ t := by
  rintro rfl
  obtain ⟨r, hr, ht⟩ := hs.table
  obtain ⟨rfl, hpath⟩ := h.place hx hr (by omega) hs.depth ht' ht
  obtain ⟨t1, h₁, h2⟩ := hs.joined (le_refl 1) (hup.congr hpath.symm) p hp
  refine hsplit ?_
  rw [tableAt_congr (by omega) hpath, tableAt_congr (by omega) hpath, h₁, h2]

theorem FamilyStep.bare (hx : x ∈ kernel :: procs) (hb : Bare mask w.mem x va')
    (hne : ∀ va'' t', path 1 va'' = path 1 va' → tableAt mask w.mem x va'' 1 = some t' → t' ≠ t) :
    Bare mask w'.mem x va' := by
  intro va'' t' hpath ht'
  rcases hs.tables x hx va'' 1 t' (by omega) ht' with hold | hnew
  · rw [hs.other x hx va'' t' hold (hne va'' t' hpath hold)]
    exact hb va'' t' hpath hold
  · exact hnew.empty va''

theorem FamilyStep.alike (h : Family A mask kernel procs w)
    {p va' : Word} (hp : p ∈ procs) (hup : Upper va') : Alike mask w'.mem p kernel va' := by
  have hpm : p ∈ kernel :: procs := List.mem_cons_of_mem _ hp
  have hkm : kernel ∈ kernel :: procs := List.mem_cons_self
  by_cases hsplit : tableAt mask w.mem p va' 1 = tableAt mask w.mem kernel va' 1
  · cases ht : tableAt mask w.mem kernel va' 1 with
    | some t' =>
      left
      rw [hs.ext p hpm va' 1 t' (by omega) (hsplit.trans ht), hs.ext kernel hkm va' 1 t' (by omega) ht]
    | none =>
      have hnone : ∀ x, tableAt mask w.mem x va' 1 = none → ∀ va'' t', path 1 va'' = path 1 va' →
          tableAt mask w.mem x va'' 1 = some t' → t' ≠ t := by
        intro x hx va'' t' hpath ht'
        rw [tableAt_congr (by omega) hpath, hx] at ht'
        cases ht'
      right
      exact ⟨hs.bare hpm (bare_of_none (hsplit.trans ht)) (hnone p (hsplit.trans ht)),
        hs.bare hkm (bare_of_none ht) (hnone kernel ht)⟩
  · have hne : ∀ x ∈ kernel :: procs, ∀ va'' t', path 1 va'' = path 1 va' → tableAt mask w.mem x va'' 1 =
        some t' → t' ≠ t := by
      intro x hx va'' t' hpath ht'
      rw [tableAt_congr (by omega) hpath] at ht'
      exact hs.ne_of_split h hp hup hx hsplit ht'
    obtain ⟨hb, hb'⟩ := (h.alike p hp va' hup).resolve_left hsplit
    exact .inr ⟨hs.bare hpm hb (hne p hpm), hs.bare hkm hb' (hne kernel hkm)⟩

/-- Such a step keeps the family. -/
theorem FamilyStep.family (h : Family A mask kernel procs w) : Family A mask kernel procs w' :=
  ⟨hs.tree, hs.common h, fun _ hp _ hup => hs.alike h hp hup⟩

end

end

/-- A step that changes no entry of the trees. -/
theorem Family.of_same (h : Family A mask kernel procs w) (hT : ∀ x ∈ kernel :: procs, TreeInv A mask x w')
    (hs : ∀ x ∈ kernel :: procs, ∀ va, SameBelow mask w.mem w'.mem x va 0) :
    Family A mask kernel procs w' ∧ AllExtend mask kernel procs w.mem w'.mem := by
  have htab : ∀ x ∈ kernel :: procs, ∀ va k, k ≤ 3 → tableAt mask w'.mem x va k = tableAt mask w.mem x va k :=
    fun x hx va k hk => (hs x hx va).tables (by omega)
  have hext : AllExtend mask kernel procs w.mem w'.mem := by
    intro x hx va k t hk ht
    rw [htab x hx va k hk]
    exact ht
  have hstep : FamilyStep A mask kernel procs w w' 0 0#64 kernel := by
    refine ⟨by omega, ⟨kernel, List.mem_cons_self, rfl⟩, fun hd => absurd hd (by omega), hT, hext, ?_, ?_⟩
    · intro x hx va k t hk ht
      rw [htab x hx va k hk] at ht
      exact .inl ht
    · intro x hx va t ht _
      exact hs x hx va 1 t (Nat.zero_le 1) (by omega) ht
  exact ⟨hstep.family h, hext⟩

include hA in
theorem Family.of_same_loads {w w' : World σ} (h : Family A mask kernel procs w)
    (hs : SameLoads w w') : Family A mask kernel procs w' ∧ AllExtend mask kernel procs w.mem w'.mem :=
  h.of_same (fun x hx => ((h.tree x hx).of_same_loads hs).inv) fun _ _ _ _ _ _ _ _ => hs.2 _

include hA in
/-- Stores apart from all the trees and from the allocator. -/
theorem Family.of_apart (h : Family A mask kernel procs w) (hs : ∀ x ∈ kernel :: procs, ApartStores A mask x w w') :
    Family A mask kernel procs w' ∧ AllExtend mask kernel procs w.mem w'.mem :=
  h.of_same (fun x hx => ((hs x hx).kept (h.tree x hx)).1.inv) fun x hx va => (hs x hx).sameBelow (h.tree x hx).tree va

/-! ## The steps of the call -/

section

variable {w : World σ} {r va t : Word} {d : Nat}

theorem Family.table_aligned (h : Family A mask kernel procs w) (hr : r ∈ kernel :: procs)
    (ht : tableAt mask w.mem r va d = some t) : t.toNat % 4096 = 0 := (h.tree r hr).tree.table_aligned ht

variable {m' : Mem} {w' : World σ} {u : Unit}

section

variable (h : Family A mask kernel procs w) (hr : r ∈ kernel :: procs) (hs : Stored mask w.mem m' r d va t)

include h hr hs

/-- A tree without the table does not see a store to it. -/
theorem Family.apartStores {x : Word} (hx : ∀ va' k, k ≤ 3 → tableAt mask w.mem x va' k ≠ some t) :
    ApartStores A mask x w { w with mem := m' } := by
  refine ⟨rfl, fun a hne => ?_⟩
  obtain rfl : a = entryAt d t va := by
    by_contra ha
    exact hne (hs.same a ha)
  have hpage : pageOf (entryAt d t va) = t.toNat := entryAddr_mem_page (h.table_aligned hr hs.table)
  refine ⟨?_, fun va' k t' hk ht' he => ?_⟩
  · rw [hpage]
    exact (h.tree r hr).apart va d t hs.depth hs.table
  · rw [hpage] at he
    exact hx va' k hk (BitVec.eq_of_toNat_eq he ▸ ht')

/-- The first tables below the PML4 other than `t` keep their entries. -/
theorem Family.load_other : ∀ x ∈ kernel :: procs, ∀ va' t', tableAt mask w.mem x va' 1 = some t' → t' ≠ t →
      m'.load (entryAddr 2 t' va') = w.mem.load (entryAddr 2 t' va') := by
  intro x hx va' t' ht' hne
  refine hs.same _ fun he => ?_
  exact hne (entryAddr_inj (h.table_aligned hx ht') (h.table_aligned hr hs.table) he).1

end

include hA in
/-- A store to an entry that keeps what the entry leads to. -/
theorem Family.of_rewritten (h : Family A mask kernel procs w) (hr : r ∈ kernel :: procs)
    (hs : Rewritten mask w.mem m' r d va t) (hj : 1 ≤ d → Upper va → Joined mask w.mem kernel procs va) :
    Family A mask kernel procs { w with mem := m' } ∧ AllExtend mask kernel procs w.mem m' := by
  have hroot : ∀ x ∈ kernel :: procs, TreeInv A mask x { w with mem := m' } ∧
      ∀ va' k, k ≤ 3 → tableAt mask m' x va' k = tableAt mask w.mem x va' k := by
    intro x hx
    have hinv := h.tree x hx
    rcases h.same_or_apart hr hx hs.depth hs.table with hsame | hapart
    · have hsx : Rewritten mask w.mem m' x d va t := { hs with table := hsame }
      exact hinv.of_rewritten hsx
    · have hstores := h.apartStores hr hs.toStored hapart
      exact ⟨(hstores.kept hinv).1.inv, fun va' k hk => (hstores.sameBelow hinv.tree va').tables (by omega)⟩
  have hext : AllExtend mask kernel procs w.mem m' := by
    intro x hx va' k t' hk ht'
    rw [(hroot x hx).2 va' k hk]
    exact ht'
  have hstep : FamilyStep A mask kernel procs w { w with mem := m' } d va t := by
    refine ⟨hs.depth, ⟨r, hr, hs.table⟩, hj, fun x hx => (hroot x hx).1, hext, fun x hx va' k t' hk ht' => .inl ?_,
      h.load_other hr hs.toStored⟩
    rw [← (hroot x hx).2 va' k hk]
    exact ht'
  exact ⟨hstep.family h, hext⟩

/-- A page out of the allocator is apart from all the trees. -/
theorem Family.of_drawn {w2 : World σ} {n : Word} (h : Family A mask kernel procs w) (hdrawn : Drawn A w w2 n)
    (hI : A.Ok w2) : Family A mask kernel procs w2 ∧ AllExtend mask kernel procs w.mem w2.mem :=
  h.of_same (fun x hx => ((h.tree x hx).of_drawn hdrawn hI).1) fun x hx => ((h.tree x hx).of_drawn hdrawn hI).2.1

include hA in
/-- Hanging a fresh table into one of the trees hangs it into all that have the table above it. -/
theorem Family.of_linked {n : Word} {m' : Mem} (h : Family A mask kernel procs w)
    (hr : r ∈ kernel :: procs) (hL : Linked mask w.mem m' r d va t n) (hout : ¬ A.has w n.toNat)
    (hfresh : ∀ x ∈ kernel :: procs, ∀ va' k, k ≤ 3 → tableAt mask w.mem x va' k ≠ some n)
    (hj : 1 ≤ d → Upper va → Joined mask w.mem kernel procs va) :
    Family A mask kernel procs { w with mem := m' } ∧ AllExtend mask kernel procs w.mem m' := by
  have hd := hL.depth
  have hempty : ∀ va', isPresent (m'.load (entryAddr 2 n va')) = false := by
    intro va'
    rw [hL.zeroed' (h.tree r hr).tree]
    rfl
  have hroot : ∀ x ∈ kernel :: procs, TreeInv A mask x { w with mem := m' } ∧ Extends mask x w.mem m' ∧
      ∀ va' k t', k ≤ 3 → tableAt mask m' x va' k = some t' → tableAt mask w.mem x va' k = some t' ∨
        Hung mask kernel procs w.mem m' d va t x va' k t' := by
    intro x hx
    have hinv := h.tree x hx
    rcases h.same_or_apart hr hx (by omega) hL.table with hsame | hapart
    · -- this tree has the table too, at the same place
      have hLx : Linked mask w.mem m' x d va t n := { hL with table := hsame, fresh := hfresh x hx }
      refine ⟨hinv.of_linked hLx hout, fun va' k t' hk ht' => (hLx.tableAt_iff hinv.tree hk).2 (.inl ht'), ?_⟩
      intro va' k t' hk ht'
      rcases (hLx.tableAt_iff hinv.tree hk).1 ht' with hold | ⟨hkd, hp, rfl⟩
      · exact .inl hold
      · exact .inr ⟨hsame, hkd, hp, hfresh, hempty⟩
    · have hstores := h.apartStores hr hL.stored hapart
      have hT : ∀ va' k, k ≤ 3 → tableAt mask m' x va' k = tableAt mask w.mem x va' k :=
        fun va' k hk => (hstores.sameBelow hinv.tree va').tables (by omega)
      refine ⟨(hstores.kept hinv).1.inv, (hstores.kept hinv).1.ext, fun va' k t' hk ht' => .inl ?_⟩
      rw [← hT va' k hk]
      exact ht'
  have hext : AllExtend mask kernel procs w.mem m' := fun x hx => (hroot x hx).2.1
  have hstep : FamilyStep A mask kernel procs w { w with mem := m' } d va t :=
    ⟨by omega, ⟨r, hr, hL.table⟩, hj, fun x hx => (hroot x hx).1, hext, fun x hx => (hroot x hx).2.2,
      h.load_other hr hL.stored⟩
  exact ⟨hstep.family h, hext⟩

end

/-! ## The call -/

variable {r : Word} {m0 : Mem}

/-- The pages of the range in the upper half have PML4 entries that lead all the trees to the same table. -/
def JoinedRange (mask kernel : Word) (procs : List Word) (v0 : Word) (N : Nat) (m : Mem) : Prop :=
  ∀ k < N, Upper (pageAddr v0 k) → Joined mask m kernel procs (pageAddr v0 k)

include hA in
theorem family_stepRule {va t : Word} {d : Nat} (hr : r ∈ kernel :: procs)
    (hj : 1 ≤ d → Upper va → Joined mask m0 kernel procs va) : StepRule A mask r d va t
      fun w => Family A mask kernel procs w ∧ AllExtend mask kernel procs m0 w.mem where
  same := by
    rintro w w' _ hs ⟨h, hext⟩
    obtain ⟨h', hext'⟩ := h.of_same_loads hs
    exact ⟨h', hext.trans hext'⟩
  linked := by
    rintro w w2 m n _ hdrawn h2 hout hL ⟨h, hext⟩
    obtain ⟨hfam, hext2⟩ := h.of_drawn hdrawn h2.alloc
    obtain ⟨hfam', hext'⟩ := hfam.of_linked hr hL hout (fun x hx => ((h.tree x hx).of_drawn hdrawn h2.alloc).2.2)
      fun h1 hup => (hj h1 hup).extend (hext.trans hext2)
    exact ⟨hfam', (hext.trans hext2).trans hext'⟩
  rewritten := by
    rintro w m _ hs ⟨h, hext⟩
    obtain ⟨h', hext'⟩ := h.of_rewritten hr hs fun h1 hup => (hj h1 hup).extend hext
    exact ⟨h', hext.trans hext'⟩

/-- `CreatePageMapping` on one table of a family keeps the family. -/
theorem Family.createPageMapping (ha : AttrOk attr) {vaddr paddr byteSize : Word}
    {shouldClflush : Bool} {w w' : World σ} (h : Family A mask kernel procs w) (hr : r ∈ kernel :: procs)
    (hj : JoinedRange mask kernel procs vaddr (pageCount byteSize) w.mem)
    (hrun : (createPageMapping allocPages mask attr shouldClflush r vaddr paddr byteSize).run w = .ok () w') :
    Family A mask kernel procs w' ∧ AllExtend mask kernel procs w.mem w'.mem := by
  -- an entry of the PML4 itself may be gone through behind the range, and gets an empty table then
  exact createPageMapping_keeps ha (h.tree r hr) (fun {_ _ k} hk => family_stepRule hr fun h1 => hj k (hk h1))
    ⟨h, AllExtend.refl _⟩ hrun

end

end Liumos.Paging
