/-
`CreatePageMapping` with attributes that lack Present. Every entry it goes through ends up not present, so
below the PML4 entries of the range nothing is left to reach. The other PML4 entries keep their trees: the
call works on tables below its own entries and on pages of the allocator, and these are no tables of theirs.
-/
import Liumos.Paging.RightsFrame

namespace Liumos.Paging

open Function BitVec

section

variable {σ : Type} {A : Pool σ} {allocPages : Word → WM σ Word} [hA : AllocOk allocPages A]
  {mask root attr v0 p0 : Word} {N : Nat} {m0 : Mem} {lv : Nat → Option Nat} {floor : Word → Nat}

variable {l d : Nat} {q t va : Word} {w : World σ}

/-! ## The tables the call works on -/

/-- `lv` is the level of each table the call may work on: tables below the PML4 entries of the range, and new
ones. The tables on the paths of the other pages are as they were, and the PML4 entries of the pages that
`floor` marks are not present. -/
structure Revoked (A : Pool σ) (mask root v0 : Word) (N : Nat) (m0 : Mem)
    (floor : Word → Nat) (lv : Nat → Option Nat) (w : World σ) : Prop where
  alloc : A.Ok w
  levelled : Levelled mask lv w.mem
  level : ∀ {p l}, lv p = some l → l ≤ 2 ∧ p ≠ root.toNat ∧ ¬ A.has w p
  away : ∀ {p l}, lv p = some l → ∀ q d t, ¬ SharesTable v0 N q 1 → d ≤ 3 → tableAt mask m0 root q d =
    some t → p ≠ t.toNat
  poolAway : ∀ {p}, A.has w p → ∀ q d t, d ≤ 3 → tableAt mask m0 root q d = some t → p ≠ t.toNat
  same : ∀ q, ¬ SharesTable v0 N q 1 → SameBelow mask m0 w.mem root q 0
  child : ∀ q t, SharesTable v0 N q 1 → child mask 3 (w.mem.load (entryAddr 3 root q)) = some t → lv t.toNat = some 2
  dead : ∀ q, 1 ≤ floor q → isPresent (w.mem.load (entryAddr 3 root q)) = false

/-- An entry the call may write to. -/
def IsTarget (root v0 : Word) (N : Nat) (lv : Nat → Option Nat) (l : Nat) (t va : Word) : Prop :=
  lv t.toNat = some l ∨ (l = 3 ∧ t = root ∧ SharesTable v0 N va 1)

/-- An entry of the PML4 is read by the pages through it only. -/
theorem sharesTable_congr {q' : Word} (h : path 1 q = path 1 q') (hs : SharesTable v0 N q 1) :
    SharesTable v0 N q' 1 := by
  obtain ⟨j, hj, hspace, hp⟩ := hs
  exact ⟨j, hj, hspace, hp.trans h⟩

theorem path_one_iff (q q' : Word) : path 1 q = path 1 q' ↔ addr2index 3 q = addr2index 3 q' := by
  rw [path_one, path_one]

section

include hA

/-- Writing to entries that are not present in the end, off the other pages' paths and the pool. -/
theorem Revoked.of_mem {w : World σ} {m : Mem}
    (h : Revoked A mask root v0 N m0 floor lv w) (hpool : ∀ a, A.has w (pageOf a) → m.load a = w.mem.load a)
    (hload : ∀ a, m.load a = w.mem.load a ∨ isPresent (m.load a) = false)
    (hsame : ∀ q, ¬ SharesTable v0 N q 1 → ∀ d t, d ≤ 3 → tableAt mask m0 root q d = some t →
      m.load (entryAt d t q) = w.mem.load (entryAt d t q)) :
    Revoked A mask root v0 N m0 floor lv { w with mem := m } := by
  obtain ⟨hI, hp⟩ := hA.frame h.alloc hpool
  have hchild : ∀ {l a c}, Paging.child mask l (m.load a) = some c → Paging.child mask l (w.mem.load a) = some c := by
    intro l a c hc
    rcases hload a with hl | hl
    · rwa [hl] at hc
    · rw [child_none_of_not_present hl] at hc
      cases hc
  refine ⟨hI, ⟨h.levelled.aligned, fun hl hc => h.levelled.child hl (hchild hc)⟩,
    fun hl => ⟨(h.level hl).1, (h.level hl).2.1, fun hq => (h.level hl).2.2 (hp _ hq)⟩, h.away,
    fun hq => h.poolAway (hp _ hq), fun q hq d t hk hd ht => (hsame q hq d t hd ht).trans (h.same q hq d t hk hd ht),
    fun q t hq hc => h.child q t hq (hchild hc), fun q hq => ?_⟩
  rcases hload (entryAddr 3 root q) with hl | hl
  · rw [hl]
    exact h.dead q hq
  · exact hl

/-- A store of an entry that is not present. -/
theorem Revoked.store (htree : TreeOk mask m0 root) {w : World σ} {l : Nat} {t va e : Word}
    (h : Revoked A mask root v0 N m0 floor lv w) (ht : IsTarget root v0 N lv l t va) (he : isPresent e = false) :
    Revoked A mask root v0 N m0 floor lv { w with mem := w.mem.store (entryAddr l t va) e } := by
  have hne : ∀ a, a ≠ entryAddr l t va → (w.mem.store (entryAddr l t va) e).load a = w.mem.load a :=
    fun a ha => WriteBack.Memory.load_store_ne _ _ ha
  have haligned : t.toNat % 4096 = 0 := by
    rcases ht with ht | ⟨-, rfl, -⟩
    · exact h.levelled.aligned ht
    · exact htree.aligned
  have hpool : ¬ A.has w t.toNat := by
    rcases ht with ht | ⟨-, rfl, -⟩
    · exact (h.level ht).2.2
    · exact fun hp => h.poolAway hp 0#64 0 t (Nat.zero_le 3) rfl rfl
  refine h.of_mem (fun a hp => hne a ?_) (fun a => ?_) fun q hq d t' hd ht' => hne _ fun heq => ?_
  · rintro rfl
    rw [pageOf, entryAddr_mem_page haligned] at hp
    exact hpool hp
  · by_cases ha : a = entryAddr l t va
    · rw [ha, WriteBack.Memory.load_store_self]
      exact .inr he
    · exact .inl (hne a ha)
  · obtain ⟨htt, -⟩ := entryAddr_inj (htree.table_aligned ht') haligned heq
    rcases ht with ht | ⟨rfl, rfl, hs⟩
    · exact h.away ht q d t' hq hd ht' (by rw [htt])
    · obtain ⟨rfl, hp⟩ := htree.entry_inj hd (Nat.zero_le 3) ht' rfl heq
      exact hq (sharesTable_congr hp.symm hs)

theorem Revoked.of_same_loads {w' : World σ} (h : Revoked A mask root v0 N m0 floor lv w)
    (hs : SameLoads w w') : Revoked A mask root v0 N m0 floor lv w' := by
  obtain ⟨_, _⟩ := w'
  obtain ⟨rfl, hm⟩ := hs
  exact h.of_mem (fun a _ => hm a) (fun a => .inl (hm a)) fun _ _ _ _ _ _ => hm _

/-- A page out of the allocator, cleared, becomes a table of any level. -/
theorem Revoked.newTable (htree : TreeOk mask m0 root) {w1 : World σ} {n : Word}
    (h : Revoked A mask root v0 N m0 floor lv w) (hl : l ≤ 2) (halloc : (allocPages 1#64).run w = .ok n w1) :
    (∀ p l', lv p = some l' → update lv n.toNat (some l) p = some l') ∧
      Revoked A mask root v0 N m0 floor (update lv n.toNat (some l)) { w1 with mem := zeroPage w1.mem n.toNat } := by
  obtain ⟨⟨hpool, hsub, hload⟩, hI, hout⟩ := drawn_of_alloc h.alloc halloc
  have hn := (hA.page h.alloc halloc).1
  have hnone : ∀ p l', lv p = some l' → p ≠ n.toNat := by
    rintro p l' hp rfl
    exact (h.level hp).2.2 hpool
  have hkeep : ∀ p l', lv p = some l' → update lv n.toNat (some l) p = some l' := by
    intro p l' hp
    rw [update_of_ne (hnone p l' hp), hp]
  have hcases : ∀ p l', update lv n.toNat (some l) p = some l' → (p = n.toNat ∧ l' = l) ∨ lv p = some l' := by
    intro p l' hp
    by_cases hpn : p = n.toNat
    · subst hpn
      rw [update_self] at hp
      exact .inl ⟨rfl, (Option.some.inj hp).symm⟩
    · rw [update_of_ne hpn] at hp
      exact .inr hp
  -- neither the allocator nor the clearing writes outside the pool
  have hentry : ∀ l' t va, t.toNat % 4096 = 0 → ¬ A.has w t.toNat →
      (zeroPage w1.mem n.toNat).load (entryAddr l' t va) = w.mem.load (entryAddr l' t va) := by
    intro l' t va hal hp
    exact hload _ (by rw [entryAddr_mem_page hal]; exact hp)
  have hroot : ¬ A.has w root.toNat := fun hp => h.poolAway hp 0#64 0 root (Nat.zero_le 3) rfl rfl
  refine ⟨hkeep, hI, ⟨?_, ?_⟩, ?_, ?_, fun hq => h.poolAway (hsub _ hq), ?_, ?_, ?_⟩
  · intro p l' hp'
    rcases hcases p l' hp' with ⟨rfl, -⟩ | hp'
    · exact hn
    · exact h.levelled.aligned hp'
  · intro l' t va c ht hc
    rcases hcases _ _ ht with ⟨htn, -⟩ | ht'
    · rw [eq_of_toNat_eq htn, load_cleared] at hc
      cases hc
    · rw [hentry _ _ _ (h.levelled.aligned ht') (h.level ht').2.2] at hc
      exact hkeep _ _ (h.levelled.child ht' hc)
  · intro p l' hp'
    rcases hcases p l' hp' with ⟨rfl, rfl⟩ | hp'
    · exact ⟨hl, fun he => hroot (by rw [← he]; exact hpool), hout⟩
    · exact ⟨(h.level hp').1, (h.level hp').2.1, fun hq => (h.level hp').2.2 (hsub _ hq)⟩
  · intro p l' hp' q d t hq hd ht
    rcases hcases p l' hp' with ⟨rfl, -⟩ | hp'
    · exact h.poolAway hpool q d t hd ht
    · exact h.away hp' q d t hq hd ht
  · intro q hq d t hk hd ht
    rw [hentry _ _ _ (htree.table_aligned ht) fun hp => h.poolAway hp q d t hd ht rfl]
    exact h.same q hq d t hk hd ht
  · intro q t hq hc
    rw [hentry _ _ _ htree.aligned hroot] at hc
    exact hkeep _ _ (h.child q t hq hc)
  · intro q hq
    rw [hentry _ _ _ htree.aligned hroot]
    exact h.dead q hq

end

/-- The table below an entry that the call may write to. -/
theorem Revoked.child_level {c : Word} (h : Revoked A mask root v0 N m0 floor lv w)
    (ht : IsTarget root v0 N lv (l + 1) t va)
    (hc : Paging.child mask (l + 1) (w.mem.load (entryAddr (l + 1) t va)) = some c) : lv c.toNat = some l := by
  rcases ht with ht | ⟨hl, rfl, hs⟩
  · exact h.levelled.child ht hc
  · obtain rfl : l = 2 := by omega
    exact h.child va c hs hc

theorem IsTarget.mono {lv' : Nat → Option Nat} (h : IsTarget root v0 N lv l t va)
    (hle : ∀ p l', lv p = some l' → lv' p = some l') : IsTarget root v0 N lv' l t va := h.imp_left (hle _ _)

/-- Going through an entry: it ends up not present, and the call goes on with a table of the level below. -/
theorem Revoked.enter (htree : TreeOk mask m0 root)
    (hwithin : attr &&& ~~~kPageAttrMask = 0#64) (habs : isPresent attr = false) {w3 : World σ}
    (h : Revoked A mask root v0 N m0 floor lv w) (hl : l ≤ 2) (ht : IsTarget root v0 N lv (l + 1) t va)
    (hthrough : Through allocPages mask attr (l + 1) (entryAddr (l + 1) t va) w w3)
    (hpage : isPage (l + 1) (w3.mem.load (entryAddr (l + 1) t va)) = false) :
    ∃ lv', (∀ p l', lv p = some l' → lv' p = some l') ∧ Revoked A mask root v0 N m0 floor lv' w3 ∧
      lv' (getTableAddr mask (l + 1) (w3.mem.load (entryAddr (l + 1) t va))).toNat = some l ∧
      isPresent (w3.mem.load (entryAddr (l + 1) t va)) = false := by
  obtain ⟨_, _, w1, _, w2, hinst, hs1, hattr, hs2⟩ := hthrough.steps
  have hl3 : l + 1 ≤ 3 := by omega
  have hlast : w3.mem.load (entryAddr (l + 1) t va) = setAttr (w1.mem.load (entryAddr (l + 1) t va)) attr := by
    rw [hs2.2, updateAttr_load hattr, hs1.2]
  -- what the entry holds once a table is installed
  obtain ⟨lv', hle, h₁, hchild⟩ : ∃ lv', (∀ p l', lv p = some l' → lv' p = some l') ∧
      Revoked A mask root v0 N m0 floor lv' w1 ∧
      lv' (getTableAddr mask (l + 1) (w1.mem.load (entryAddr (l + 1) t va))).toNat = some l := by
    unfold installTable at hinst
    replace hinst := of_run_load_bind hinst
    split at hinst
    · rename_i hp
      obtain ⟨-, rfl⟩ := run_pure_ok hinst
      rw [hlast, isPage_setAttr hl3] at hpage
      exact ⟨lv, fun _ _ hp => hp, h, h.child_level ht (child_of hp hpage)⟩
    · obtain ⟨_, _, halloc, hinst⟩ := run_bind_ok hinst
      obtain ⟨_, _, hclear, hinst⟩ := run_bind_ok hinst
      obtain ⟨hcan, hinst⟩ := of_run_assert_bind hinst
      obtain rfl := run_clearMapping_ok hclear
      obtain rfl := run_store_ok hinst
      obtain ⟨hle, hnew⟩ := h.newTable htree hl halloc
      refine ⟨_, hle, hnew.store htree (ht.mono hle) ((isPresent_setTableAddr hcan).trans habs), ?_⟩
      rw [WriteBack.Memory.load_store_self, getTableAddr_setTableAddr (by omega) hl3 hcan hwithin, update_self]
  have h2 : Revoked A mask root v0 N m0 floor lv' w2 := by
    obtain rfl := run_updateAttr_ok hattr
    exact (h₁.of_same_loads hs1).store htree (ht.mono hle) ((isPresent_setAttr _ _).trans habs)
  refine ⟨lv', hle, h2.of_same_loads hs2, ?_, ?_⟩
  · rw [hlast, getTableAddr_setAttr mask hl3]
    exact hchild
  · rw [hlast]
    exact (isPresent_setAttr _ _).trans habs

/-! ## The loops -/

/-- What a loop knows of the state it was entered in: the levels of the tables, the PML4 entries that are gone, and
where the current one ends. -/
structure RevokedGhost where
  lv : Nat → Option Nat
  floor : Word → Nat
  stop : Nat

/-- The invariant of the loop over the table `t` at depth `D`. -/
structure RevokedLoop (A : Pool σ) (mask root v0 : Word) (N : Nat) (m0 : Mem)
    (D : Nat) (t : Word) (k0 : Nat) (γ : RevokedGhost) (w : World σ) (k : Nat) : Prop where
  le : k ≤ N
  bound : pos v0 k ≤ γ.stop
  slot : InSlot v0 γ.stop k0
  level : γ.lv t.toNat = some (3 - D)
  tables : ∃ lv, (∀ p l, γ.lv p = some l → lv p = some l) ∧ Revoked A mask root v0 N m0 γ.floor lv w

theorem revokedLoop_mapRule (htree : TreeOk mask m0 root)
    (hwithin : attr &&& ~~~kPageAttrMask = 0#64) (habs : isPresent attr = false) :
    MapRule (fun _ => True) allocPages mask attr v0 p0 N (RevokedLoop A mask root v0 N m0) where
  tolerates := ⟨fun _ => trivial, fun _ => trivial⟩
  le h := h.le
  page := by
    intro D t k0 γ w w1 w2 k u hD2 hD h hsp hk hva _ hrun hs
    obtain ⟨lv, hle, hr⟩ := h.tables
    obtain ⟨-, rfl⟩ := run_mapPage_ok hrun
    exact ⟨hk, ((h.slot.of_span (by omega) hsp).fits (by omega) hva).2, h.slot, h.level, lv, hle,
      (hr.store htree (.inl (hle _ _ h.level)) ((isPresent_setPageBaseAddr (by omega)).trans habs)).of_same_loads hs⟩
  enter := by
    intro D t k0 γ w w' k hD1 hD h hk hsp hthrough hpage
    obtain ⟨lv, hle, hr⟩ := h.tables
    have hl : 3 - D = 3 - (D + 1) + 1 := by omega
    have htarget : IsTarget root v0 N lv (3 - D) t (pageAddr v0 k) := .inl (hle _ _ h.level)
    rw [entryAt, hl] at hthrough hpage
    rw [hl] at htarget
    obtain ⟨lv', hle', hr', hchild, -⟩ := hr.enter htree hwithin habs (by omega) htarget hthrough hpage
    rw [← hl] at hchild
    refine ⟨⟨lv', γ.floor, γ.stop⟩, ⟨h.le, h.bound, h.slot.of_span (by omega) hsp, hchild, lv', fun _ _ hp => hp, hr'⟩,
      ?_⟩
    rintro w'' k' ⟨hk', hb', -, -, lv'', hle'', hr''⟩
    exact ⟨hk', hb', h.slot, h.level, lv'', fun p l hp => hle'' p l (hle' p l (hle p l hp)), hr''⟩
  overwrap _ _ _ _ _ _ _ := trivial

/-- The marked pages have lost their PML4 entry. -/
theorem Revoked.raise {w : World σ} {va : Word} (h : Revoked A mask root v0 N m0 floor lv w)
    (habs : isPresent (w.mem.load (entryAddr 3 root va)) = false) :
    Revoked A mask root v0 N m0 (raise floor 0 va) lv w := by
  refine { h with dead := fun q hq => ?_ }
  unfold Paging.raise at hq
  split_ifs at hq with hp
  · rw [entryAddr, (path_one_iff q va).1 hp]
    exact habs
  · exact h.dead q hq

/-- The state of the PML4 loop with `n` entries left. -/
structure RevokedOuter (A : Pool σ) (mask root v0 : Word) (N : Nat) (m0 : Mem)
    (n : Nat) (w : World σ) (k : Nat) : Prop where
  le : k ≤ N
  tables : ∃ floor lv, Revoked A mask root v0 N m0 floor lv w ∧ Pending v0 N floor n k ∧
    ∀ j < k, ∀ q, path 1 q = path 1 (pageAddr v0 j) → 1 ≤ floor q

theorem revoked_outerRule (htree : TreeOk mask m0 root)
    (hwithin : attr &&& ~~~kPageAttrMask = 0#64) (habs : isPresent attr = false) :
    OuterRule (fun _ => True) allocPages mask root attr v0 p0 N (RevokedLoop A mask root v0 N m0)
      (RevokedOuter A mask root v0 N m0) where
  toMapRule := revokedLoop_mapRule htree hwithin habs
  round := by
    rintro n w w' k ⟨hk, floor, lv, h, hp, hslots⟩ hthrough
    have hspace := hp.inSpace
    obtain ⟨lv', -, h', hpdpt, hdead⟩ := h.enter htree hwithin habs (le_refl 2) (.inr ⟨rfl, rfl, k, hk, hspace, rfl⟩)
      hthrough (isPage_three _)
    refine ⟨⟨lv', Paging.raise floor 0 (pageAddr v0 k), (pos v0 k / 2 ^ 39 + 1) * 2 ^ 39⟩,
      ⟨hk, by dsimp only; omega, ⟨hspace, rfl⟩, hpdpt, lv', fun _ _ hp => hp, h'.raise hdead⟩, ?_⟩
    rintro w'' k' ⟨hk', hbound, -, -, lv'', -, hr''⟩ hr
    dsimp only at hbound hr''
    refine ⟨hk', _, lv'', hr'', hp.next hk' hbound hr, ?_⟩
    intro j hj q hq
    by_cases hjk : j < k
    · exact (hslots j hjk q hq).trans (le_raise _ _ _ _)
    · -- the pages of this round are below one PML4 entry
      have hsame : path 1 (pageAddr v0 j) = path 1 (pageAddr v0 k) := by
        rw [path_pageAddr, path_pageAddr]
        unfold pos at hbound ⊢
        omega
      unfold Paging.raise
      rw [if_pos (hq.trans hsame)]
      exact le_max_right _ _

/-! ## The tables before the call -/

/-- An address with the first indices of one address and the next index of another. -/
theorem exists_path (hd : d ≤ 3) (q va : Word) :
    ∃ q', path d q' = path d q ∧ addr2index (3 - d) q' = addr2index (3 - d) va := by
  have hi := addr2index_lt (3 - d) va
  refine ⟨BitVec.ofNat 64 ((path d q * 512 + addr2index (3 - d) va) * 2 ^ (39 - 9 * d)), ?_⟩
  generalize addr2index (3 - d) va = i at hi ⊢
  rw [toNat_addr2index]
  unfold path kIndexShift
  rw [toNat_ofNat]
  interval_cases d <;> norm_num <;> omega

open Classical in
/-- The levels of the tables below the PML4 entries of the range. -/
noncomputable def ownTables (mask root v0 : Word) (N : Nat) (m0 : Mem) (p : Nat) : Option Nat :=
  if h : ∃ d, 1 ≤ d ∧ d ≤ 3 ∧ ∃ q t, SharesTable v0 N q 1 ∧ tableAt mask m0 root q d = some t ∧ t.toNat = p then
    some (3 - h.choose)
  else none

theorem ownTables_some {p : Nat} (h : ownTables mask root v0 N m0 p = some l) :
    ∃ d, 1 ≤ d ∧ d ≤ 3 ∧ l = 3 - d ∧ ∃ q t, SharesTable v0 N q 1 ∧ tableAt mask m0 root q d = some t ∧ t.toNat = p := by
  unfold ownTables at h
  split at h
  · rename_i hex
    obtain ⟨h1, h3, hq⟩ := hex.choose_spec
    exact ⟨_, h1, h3, (Option.some.inj h).symm, hq⟩
  · cases h

theorem ownTables_of (htree : TreeOk mask m0 root) (h1 : 1 ≤ d) (h3 : d ≤ 3) (hq : SharesTable v0 N q 1)
    (ht : tableAt mask m0 root q d = some t) : ownTables mask root v0 N m0 t.toNat = some (3 - d) := by
  have hex : ∃ d, 1 ≤ d ∧ d ≤ 3 ∧ ∃ q t', SharesTable v0 N q 1 ∧ tableAt mask m0 root q d = some t' ∧
      t'.toNat = t.toNat :=
    ⟨d, h1, h3, q, t, hq, ht, rfl⟩
  unfold ownTables
  rw [dif_pos hex]
  obtain ⟨-, hd', _, _, -, ht', htt⟩ := hex.choose_spec
  rw [eq_of_toNat_eq htt] at ht'
  rw [(htree.inj hd' h3 ht' ht).1]

theorem revoked_init (h : TreeInv A mask root w) :
    Revoked A mask root v0 N w.mem (fun _ => 0) (ownTables mask root v0 N w.mem) w := by
  refine ⟨h.alloc, ⟨?_, ?_⟩, ?_, ?_, ?_, fun _ _ _ _ _ _ _ => rfl, ?_, fun q hq => absurd hq (by norm_num)⟩
  · intro p l hp
    obtain ⟨d, -, -, -, q, t, -, ht, rfl⟩ := ownTables_some hp
    exact h.tree.table_aligned ht
  · intro l t va c hl hc
    obtain ⟨d, h1, h3, hld, q, t', hq, ht, htt⟩ := ownTables_some hl
    obtain rfl := eq_of_toNat_eq htt
    obtain ⟨q', hp, hi⟩ := exists_path h3 q va
    have hl' : 3 - d = l + 1 := hld.symm
    have htable : tableAt mask w.mem root q' (d + 1) = some c := by
      rw [tableAt_succ ((tableAt_congr (by omega) hp).trans ht), entryAt, entryAddr_congr hi, hl']
      exact hc
    rw [ownTables_of h.tree (by omega) (by omega) (sharesTable_congr (path_mono h1 (by omega) hp).symm hq) htable]
    congr 1
    omega
  · intro p l hp
    obtain ⟨d, h1, h3, rfl, q, t, -, ht, rfl⟩ := ownTables_some hp
    refine ⟨by omega, ?_, h.apart q d t h3 ht⟩
    intro hr
    rw [eq_of_toNat_eq hr] at ht
    have := (h.tree.inj h3 (Nat.zero_le 3) ht (rfl : tableAt mask w.mem root q 0 = some root)).1
    omega
  · intro p l hp q' d' t' hq' hd' ht' hpt
    obtain ⟨d, h1, h3, -, q, t, hq, ht, rfl⟩ := ownTables_some hp
    rw [eq_of_toNat_eq hpt] at ht
    obtain ⟨rfl, hpath⟩ := h.tree.inj h3 hd' ht ht'
    exact hq' (sharesTable_congr (path_mono h1 (by omega) hpath) hq)
  · rintro p hp q d t hd ht rfl
    exact h.apart q d t hd ht hp
  · intro q t hq hc
    exact ownTables_of h.tree (le_refl 1) (by omega) hq hc

end

end Liumos.Paging
