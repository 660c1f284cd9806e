/-
The pages of a range and the entries on their paths: where the four loops over a range come to, and what an address
shares with it.
-/
import Liumos.Paging.Loop

namespace Liumos.Paging

/-! ## The range and what is shared with it -/

/-- The distance of `va` from `v0` in the 48-bit space the table indices cover. -/
def offset (v0 va : Word) : Nat := (va - v0).toNat % 2 ^ 48

/-- Page `k` of the range lies in the part of the index space that the range begins in. -/
def InSpace (v0 : Word) (k : Nat) : Prop := pos v0 k / 2 ^ 48 = v0.toNat / 2 ^ 48

/-- The pages that a call for `N` pages maps: at the end of the index space the PML4 loop is over. -/
def mappedPages (v0 : Word) (N : Nat) : Nat := min N ((2 ^ 48 - v0.toNat % 2 ^ 48) / 4096)

/-- An address outside the mapped range. -/
def Outside (v0 : Word) (N : Nat) (q : Word) : Prop := 4096 * mappedPages v0 N ≤ offset v0 q

/-- The table at depth `d` on the path of `q` hangs at an entry that the call goes through. In the PML4 that
includes the entry behind the last page. -/
def SharesTable (v0 : Word) (N : Nat) (q : Word) : Nat → Prop
  | 0 => True
  | 1 => ∃ j ≤ N, InSpace v0 j ∧ path 1 (pageAddr v0 j) = path 1 q
  | d + 2 => ∃ j < N, InSpace v0 j ∧ path (d + 2) (pageAddr v0 j) = path (d + 2) q

section

variable {v0 q : Word} {N n j k k' l s stop : Nat} {floor : Word → Nat}

theorem inSpace_iff (k : Nat) : InSpace v0 k ↔ v0.toNat % 2 ^ 48 + 4096 * k < 2 ^ 48 := by
  unfold InSpace pos
  omega

theorem sharesTable_succ {d : Nat} (hj : j < N) (hs : InSpace v0 j)
    (h : path (d + 1) (pageAddr v0 j) = path (d + 1) q) : SharesTable v0 N q (d + 1) := by
  cases d with
  | zero => exact ⟨j, hj.le, hs, h⟩
  | succ d => exact ⟨j, hj, hs, h⟩

theorem offset_pageAddr (hj : 4096 * j < 2 ^ 48) : offset v0 (pageAddr v0 j) = 4096 * j := by
  unfold offset pageAddr
  rw [BitVec.add_comm, BitVec.add_sub_cancel, BitVec.toNat_ofNat]
  omega

section

variable (hl : l ≤ 1) (hvirt : v0.toNat % 2 ^ 48 + 4096 * (k + 512 ^ l) ≤ 2 ^ 48)
  (hva : pos v0 k % 2 ^ kIndexShift l = 0)

include hl hvirt hva

/-- The addresses of the page of level `l` that begins where the cursor stands. -/
theorem path_eq_iff (va : Word) : path (4 - l) va = path (4 - l) (pageAddr v0 k) ↔
      4096 * k ≤ offset v0 va ∧ offset v0 va < 4096 * (k + 512 ^ l) := by
  rw [path_pageAddr, path, offset, BitVec.toNat_sub]
  unfold pos at hva ⊢
  unfold kIndexShift at hva
  interval_cases l <;> norm_num at hva hvirt ⊢ <;> omega

/-- The pages of one entry share its path. -/
theorem path_in_page (hkj : k ≤ j) (hj : j < k + 512 ^ l) :
    path (4 - l) (pageAddr v0 j) = path (4 - l) (pageAddr v0 k) := by
  rw [path_eq_iff hl hvirt hva, offset_pageAddr (by omega)]
  omega

end

theorem InSpace.of_le (h : InSpace v0 j) (hk : k ≤ j) : InSpace v0 k := by
  rw [inSpace_iff] at h ⊢
  omega

/-- Page `k` lies below the PML4 entry that ends at `stop`. -/
structure InSlot (v0 : Word) (stop k : Nat) : Prop where
  space : InSpace v0 k
  stop_eq : stop = (pos v0 k / 2 ^ 39 + 1) * 2 ^ 39

theorem InSlot.of_span {k0 : Nat} (h : InSlot v0 stop k0) (hl : l ≤ 2) (hs : span v0 l k = span v0 l k0) :
    InSlot v0 stop k := by
  have hpos : pos v0 k / 2 ^ 39 = pos v0 k0 / 2 ^ 39 := by
    unfold span kIndexShift at hs
    interval_cases l <;> norm_num at hs ⊢ <;> omega
  refine ⟨?_, by rw [hpos]; exact h.stop_eq⟩
  have := h.space
  unfold InSpace at *
  omega

/-- The rest of an entry of level at most 1 ends before its PML4 entry does. -/
theorem InSlot.fits (h : InSlot v0 stop k) (hl : l ≤ 1) (hva : pos v0 k % 2 ^ kIndexShift l = 0) :
    v0.toNat % 2 ^ 48 + 4096 * (k + 512 ^ l) ≤ 2 ^ 48 ∧ pos v0 (k + 512 ^ l) ≤ stop := by
  have hspace := h.space
  have hstop := h.stop_eq
  unfold InSpace pos at *
  unfold kIndexShift at hva
  interval_cases l <;> norm_num at hva hspace hstop ⊢ <;> omega

/-- The marks behind the entry at depth `d` on the path of `va`. -/
def raise (floor : Word → Nat) (d : Nat) (va q : Word) : Nat :=
  if path (d + 1) q = path (d + 1) va then max (floor q) (d + 1) else floor q

theorem le_raise (floor : Word → Nat) (d : Nat) (va q : Word) : floor q ≤ raise floor d va q := by
  unfold raise
  split_ifs
  · exact le_max_left _ _
  · exact le_refl _

/-- What the PML4 loop has still to do with `n` entries left, standing at page `k`: it comes to the end of the
index space with the last entry, or it has been through the entry behind the range. -/
structure Pending (v0 : Word) (N : Nat) (floor : Word → Nat) (n k : Nat) : Prop where
  within : v0.toNat % 2 ^ 48 + 4096 * k ≤ 2 ^ 48
  left : (v0.toNat % 2 ^ 48 + 4096 * k) / 2 ^ 39 + n ≤ 512
  todo : InSpace v0 k → (k = N ∧ ∀ q, path 1 q = path 1 (pageAddr v0 k) → 1 ≤ floor q) ∨
    512 ≤ (v0.toNat % 2 ^ 48 + 4096 * k) / 2 ^ 39 + n

theorem pending_init (floor : Word → Nat) : Pending v0 N floor (kNumOfEntries - addr2index 3 v0) 0 := by
  have hidx := toNat_addr2index 3 v0
  unfold kNumOfEntries
  unfold kIndexShift at hidx
  refine ⟨by omega, by omega, fun _ => .inr ?_⟩
  omega

theorem Pending.inSpace (h : Pending v0 N floor (n + 1) k) : InSpace v0 k := by
  have := h.left
  rw [inSpace_iff]
  omega

theorem Pending.done (h : Pending v0 N floor 0 k) (hs : InSpace v0 k) :
    k = N ∧ ∀ q, path 1 q = path 1 (pageAddr v0 k) → 1 ≤ floor q := by
  refine (h.todo hs).resolve_right ?_
  have := (inSpace_iff k).1 hs
  omega

/-- At the end, the loop has come to the end of the range or of the index space. -/
theorem Pending.eq_mappedPages (h : Pending v0 N floor 0 k) (hal : v0.toNat % 4096 = 0) (hk : k ≤ N) :
    k = mappedPages v0 N := by
  have hwithin := h.within
  have hdone := fun hs => (h.done hs).1
  rw [inSpace_iff] at hdone
  unfold mappedPages
  omega

/-- One round of the PML4 loop leaves one entry less. -/
theorem Pending.next {k1 : Nat} (h : Pending v0 N floor (n + 1) k) (hk1 : k1 ≤ N)
    (hbound : pos v0 k1 ≤ (pos v0 k / 2 ^ 39 + 1) * 2 ^ 39) (hr : Reached v0 N 3 1 k k1) :
    Pending v0 N (raise floor 0 (pageAddr v0 k)) n k1 := by
  have hn := h.left
  obtain ⟨hkk, hr⟩ := hr
  refine ⟨?_, ?_, ?_⟩
  · unfold pos at hbound
    omega
  · unfold pos at hbound
    omega
  · intro hspace1
    by_cases hend : pos v0 k1 = (pos v0 k / 2 ^ 39 + 1) * 2 ^ 39
    · right
      rcases h.todo h.inSpace with ⟨rfl, -⟩ | hleft
      · obtain rfl : k1 = k := by omega
        unfold pos at hend
        omega
      · unfold pos at hend
        omega
    · left
      have hk1N : k1 = N := hr.resolve_right hend
      refine ⟨hk1N, fun q hq => ?_⟩
      have hsame : path 1 (pageAddr v0 k1) = path 1 (pageAddr v0 k) := by
        rw [path_pageAddr, path_pageAddr]
        unfold pos at hend hbound ⊢
        omega
      unfold raise
      rw [if_pos (hq.trans hsame)]
      exact le_max_right _ _

/-- Behind the loops, all pages that share a PML4 entry are marked. -/
theorem sharesTable_one_le (hlow : ∀ j < k', path 1 (pageAddr v0 j) = path 1 q → 1 ≤ s) (hfloor : floor q ≤ s)
    (hend : InSpace v0 k' → k' = N ∧ ∀ q, path 1 q = path 1 (pageAddr v0 k') → 1 ≤ floor q)
    (h : SharesTable v0 N q 1) : 1 ≤ s := by
  obtain ⟨j, hj, hspace, hp⟩ := h
  by_cases hjk : j < k'
  · exact hlow j hjk hp
  · -- the entry behind the last page
    obtain ⟨rfl, hmark⟩ := hend (hspace.of_le (not_lt.1 hjk))
    obtain rfl : j = k' := by omega
    exact (hmark q hp.symm).trans hfloor

variable {mark : Word → Nat}

theorem Pending.mono (h : Pending v0 N floor n k) (hle : ∀ q, floor q ≤ mark q) : Pending v0 N mark n k :=
  ⟨h.within, h.left, fun hs => (h.todo hs).imp_left fun ⟨hk, hmark⟩ => ⟨hk, fun q hq => (hmark q hq).trans (hle q)⟩⟩

/-! ## The entries that an address shares with the range -/

theorem SharesTable.mono {d d' : Nat} (hd1 : 1 ≤ d) (hd : d ≤ d') (hd' : d' ≤ 3) (h : SharesTable v0 N q d') :
    SharesTable v0 N q d := by
  rcases Nat.lt_or_eq_of_le hd with hlt | rfl
  · obtain ⟨e, rfl⟩ : ∃ e, d' = e + 2 := ⟨d' - 2, by omega⟩
    obtain ⟨_, hj, hs, hp⟩ := h
    obtain ⟨d, rfl⟩ : ∃ c, d = c + 1 := ⟨d - 1, by omega⟩
    exact sharesTable_succ hj hs (path_mono (by omega) (by omega) hp)
  · exact h

/-- The entries that `q` shares with the range are the first `s` on its path. -/
structure SharesExactly (v0 : Word) (N : Nat) (q : Word) (s : Nat) : Prop where
  le : s ≤ 3
  shares : SharesTable v0 N q s
  deepest : s < 3 → ¬ SharesTable v0 N q (s + 1)

theorem exists_sharesExactly (v0 : Word) (N : Nat) (q : Word) : ∃ s, SharesExactly v0 N q s := by
  by_cases h3 : SharesTable v0 N q 3
  · exact ⟨3, le_refl 3, h3, fun h => absurd h (lt_irrefl 3)⟩
  by_cases h2 : SharesTable v0 N q 2
  · exact ⟨2, by norm_num, h2, fun _ => h3⟩
  by_cases h1 : SharesTable v0 N q 1
  · exact ⟨1, by norm_num, h1, fun _ => h2⟩
  · exact ⟨0, by norm_num, trivial, fun _ => h1⟩

theorem SharesExactly.unique {s s' : Nat} (h : SharesExactly v0 N q s) (h' : SharesExactly v0 N q s') : s = s' := by
  have hle : ∀ {s s'}, SharesExactly v0 N q s → SharesExactly v0 N q s' → s ≤ s' := by
    intro s s' h h'
    by_contra hlt
    exact h'.deepest (by have := h.le; omega) (h.shares.mono (by omega) (by omega) h.le)
  exact le_antisymm (hle h h') (hle h' h)

/-- The marks on the entries that the call has been through after `k` pages: those that an address shares with what the
call has passed, and none beyond the range. -/
structure Marks (v0 : Word) (N : Nat) (mark : Word → Nat) (k : Nat) : Prop where
  le : ∀ q, mark q ≤ 3
  shares : ∀ q, SharesTable v0 N q (mark q)
  passed : ∀ j < k, ∀ d ≤ 3, ∀ q, d ≤ 2 ∨ 4096 * k ≤ offset v0 q → path d (pageAddr v0 j) = path d q → d ≤ mark q

theorem marks_init : Marks v0 N (fun _ => 0) 0 :=
  ⟨fun _ => Nat.zero_le 3, fun _ => trivial, fun j hj => absurd hj (Nat.not_lt_zero j)⟩

/-- Going through the entry at depth `d` of page `k`. -/
theorem Marks.raise {d : Nat} (h : Marks v0 N mark k) (hd : d ≤ 2) (hk : k ≤ N) (hlt : 0 < d → k < N)
    (hspace : InSpace v0 k) : Marks v0 N (raise mark d (pageAddr v0 k)) k := by
  refine ⟨fun q => ?_, fun q => ?_, fun j hj d' hd' q hq hp => (h.passed j hj d' hd' q hq hp).trans (le_raise _ _ _ _)⟩
  · have := h.le q
    unfold Paging.raise
    split_ifs <;> omega
  · unfold Paging.raise
    split_ifs with hp
    · rcases le_total (mark q) (d + 1) with hle | hle
      · rw [max_eq_right hle]
        rcases Nat.eq_zero_or_pos d with rfl | hpos
        · exact ⟨k, hk, hspace, hp.symm⟩
        · exact sharesTable_succ (hlt hpos) hspace hp.symm
      · rw [max_eq_left hle]
        exact h.shares q
    · exact h.shares q

/-- Passing a page of the level of depth `d`, with a mark on the entries above. -/
theorem Marks.page {d : Nat} (h : Marks v0 N mark k) (hd2 : 2 ≤ d) (hd : d ≤ 3)
    (hvirt : v0.toNat % 2 ^ 48 + 4096 * (k + 512 ^ (3 - d)) ≤ 2 ^ 48) (hva : pos v0 k % 2 ^ kIndexShift (3 - d) = 0)
    (hent : ∀ q, ∀ d' ≤ d, path d' q = path d' (pageAddr v0 k) → d' ≤ mark q) :
    Marks v0 N mark (k + 512 ^ (3 - d)) := by
  refine ⟨h.le, h.shares, fun j hj d' hd' q hq hp => ?_⟩
  by_cases hjk : j < k
  · exact h.passed j hjk d' hd' q (hq.imp_right fun hq => (Nat.mul_le_mul_left 4096 (Nat.le_add_right k _)).trans hq) hp
  · have hpage := path_in_page (by omega) hvirt hva (not_lt.1 hjk) hj
    by_cases hdd : d' ≤ d
    · exact hent q d' hdd (hp.symm.trans (path_mono (by omega) (by omega) hpage))
    · -- the address would lie in the 2MB page
      have hin := (path_eq_iff (by omega) hvirt hva q).1 (by rw [← hpage, show 4 - (3 - d) = d' by omega, hp])
      omega

/-- At the end, an address outside the range is marked for all that it shares. -/
theorem Marks.exactly (h : Marks v0 N mark k) (hend : Pending v0 N mark 0 k) (hq : 4096 * k ≤ offset v0 q) :
    SharesExactly v0 N q (mark q) := by
  refine ⟨h.le q, h.shares q, fun hlt hs => ?_⟩
  have hmax : ∀ d ≤ 3, SharesTable v0 N q d → d ≤ mark q
    | 0, _, _ => Nat.zero_le _
    | 1, _, h1 => sharesTable_one_le (fun j hj hp => h.passed j hj 1 (by norm_num) q (.inr hq) hp)
        (le_refl _) hend.done h1
    | d + 2, hd, ⟨j, hj, hspace, hp⟩ => by
      refine h.passed j ?_ (d + 2) hd q (.inr hq) hp
      by_contra hge
      have := (hend.done (hspace.of_le (not_lt.1 hge))).1
      omega
  have := hmax (mark q + 1) (by omega) hs
  omega

end

end Liumos.Paging
