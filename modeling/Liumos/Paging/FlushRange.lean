/-
`FlushDirtyPages` on any memory: it goes through the entries of level 0 of the pages of its range, in order, and
what it does at each of them is to issue the flushes of the page and clear the dirty bit if the bit is set. It
panics only where a page of the range has no such entry, or where the PML4 has no entry behind the range.
Source: paging.cc.
-/
import Liumos.Paging.Flush
import Liumos.Paging.Pml4Frame

namespace Liumos.Paging

open WriteBack List Option

section

variable {σ : Type} {mask root v0 : Word} {N k : Nat} {m m' : Mem}

/-! ## The entries of the range -/

/-- Where the entry of level 0 of an address is, if its path has four tables. -/
def pteAt (mask root : Word) (m : Mem) (va : Word) : Option Nat :=
  (tableAt mask m root va 3).map fun t => entryAddr 0 t va

/-- Page `j` of the range has a dirty entry of level 0, and `p` is the page's address. -/
def DirtyPage (mask root v0 : Word) (m : Mem) (j p : Nat) : Prop :=
  ∃ x, pteAt mask root m (pageAddr v0 j) = some x ∧ isDirty (m.load x) = true ∧
    p = (getPageBaseAddr mask 0 (m.load x)).toNat

/-- The first `k` pages of the range have been gone through, from the memory `m` on. -/
structure Walked (mask root v0 : Word) (k : Nat) (m m' : Mem) : Prop where
  entries : ∀ j < k, pteAt mask root m (pageAddr v0 j) ≠ none
  cleared : ∀ j < k, ∀ x, pteAt mask root m (pageAddr v0 j) = some x → m'.load x = clearDirtyBit (m.load x)
  kept : ∀ x, (∀ j < k, pteAt mask root m (pageAddr v0 j) ≠ some x) → m'.load x = m.load x
  flushes : ∃ ops, m'.ops = ops ++ m.ops ∧
    ∀ a, .flush a ∈ ops ↔ ∃ j < k, ∃ p, DirtyPage mask root v0 m j p ∧ ∃ i < 64, a = p + 64 * i

theorem clearDirtyBit_of_clean {d : Word} (h : isDirty d = false) : clearDirtyBit d = d := by
  rw [isDirty_eq] at h
  apply BitVec.eq_of_getLsbD_eq
  intro i hi
  rw [clearDirtyBit, BitVec.getLsbD_and, BitVec.getLsbD_not, getLsbD_bit (by norm_num)]
  by_cases h6 : i = 6
  · subst h6
    rw [h]
    rfl
  · simp [h6, hi]

theorem walked_zero (m : Mem) : Walked mask root v0 0 m m where
  entries j hj := absurd hj (Nat.not_lt_zero j)
  cleared j hj := absurd hj (Nat.not_lt_zero j)
  kept x _ := rfl
  flushes := ⟨[], rfl, fun a => by simp⟩

/-- Memory changes in dirty bits only. -/
theorem Walked.clearDirtyBit_load (h : Walked mask root v0 k m m') (x : Nat) :
    clearDirtyBit (m'.load x) = clearDirtyBit (m.load x) := by
  by_cases hx : ∃ j < k, pteAt mask root m (pageAddr v0 j) = some x
  · obtain ⟨j, hj, hx⟩ := hx
    rw [h.cleared j hj x hx, clearDirtyBit_clearDirtyBit]
  · rw [h.kept x fun j hj he => hx ⟨j, hj, he⟩]

/-- Where the entries of the tables on a path are the same up to dirty bits, so is the path. -/
theorem tableAt_of_dirtyBits {va : Word} (h : ∀ d t, d ≤ 3 → tableAt mask m root va d = some t →
      clearDirtyBit (m'.load (entryAt d t va)) = clearDirtyBit (m.load (entryAt d t va))) :
    ∀ {d : Nat}, d ≤ 4 → tableAt mask m' root va d = tableAt mask m root va d
  | 0, _ => rfl
  | d + 1, hd => by
    rw [tableAt, tableAt, tableAt_of_dirtyBits h (by omega)]
    cases ht : tableAt mask m root va d with
    | none => rfl
    | some t =>
      rw [bind_some, bind_some, ← child_clearDirtyBit, h d t (by omega) ht, child_clearDirtyBit]

variable {d : Nat} {w : World σ}

theorem Walked.tableAt_eq (h : Walked mask root v0 k m m') (va : Word) (hd : d ≤ 4) :
    tableAt mask m' root va d = tableAt mask m root va d :=
  tableAt_of_dirtyBits (fun _ _ _ _ => h.clearDirtyBit_load _) hd

/-! ## One entry -/

/-- Memory after `FlushDirtyPages` came across the entry at `a`. -/
def cleanEntry (mask : Word) (m : Mem) (a : Nat) : Mem := if isDirty (m.load a) then cleaned mask m a else m

theorem run_flushPte (w : World σ) (a : Nat) :
    (flushPte mask a).run w = .ok () { w with mem := cleanEntry mask w.mem a } := by
  unfold flushPte cleanEntry
  show (if isDirty (w.mem.load a) = true then _ else _ : WM σ Unit).run w = _
  split
  · rfl
  · rfl

theorem ops_clflushRange (m : Mem) (buf size : Nat) : (clflushRange m buf size).ops =
    ((range ((size + 63) / 64)).reverse.map fun i => Op.flush (buf + 64 * i)) ++ m.ops := by
  unfold clflushRange
  generalize (size + 63) / 64 = n
  induction n with
  | zero => rfl
  | succ n ih =>
    rw [range_succ, foldl_append, foldl_cons, foldl_nil, Memory.flush, ih, reverse_append,
      reverse_singleton, singleton_append, map_cons, cons_append]

theorem load_cleanEntry (mask : Word) (m : Mem) (a x : Nat) :
    (cleanEntry mask m a).load x = if x = a then clearDirtyBit (m.load x) else m.load x := by
  unfold cleanEntry
  split
  · rw [cleaned, Memory.load_store, load_clflushRange]
    split
    · rename_i h
      rw [h]
    · rfl
  · rename_i hd
    split
    · rename_i h
      rw [h, clearDirtyBit_of_clean (Bool.eq_false_iff.2 hd)]
    · rfl

/-- Going through the entry of the next page. -/
theorem Walked.next (h : Walked mask root v0 k m m') {x : Nat} (hx : pteAt mask root m (pageAddr v0 k) = some x) :
    Walked mask root v0 (k + 1) m (cleanEntry mask m' x) := by
  refine ⟨?_, ?_, ?_, ?_⟩
  · intro j hj
    rcases Nat.lt_succ_iff_lt_or_eq.1 hj with hj | rfl
    · exact h.entries j hj
    · rw [hx]
      exact some_ne_none x
  · intro j hj y hy
    rw [load_cleanEntry, h.clearDirtyBit_load]
    split
    · rfl
    · rename_i hne
      rcases Nat.lt_succ_iff_lt_or_eq.1 hj with hj | rfl
      · exact h.cleared j hj y hy
      · exact absurd (some.inj (hy.symm.trans hx)) hne
  · intro y hy
    rw [load_cleanEntry, if_neg, h.kept y fun j hj => hy j (by omega)]
    rintro rfl
    exact hy k (Nat.lt_succ_self k) hx
  · obtain ⟨ops, hops, hmem⟩ := h.flushes
    by_cases hold : ∃ j < k, pteAt mask root m (pageAddr v0 j) = some x
    · -- the entry has been cleaned for a page before
      obtain ⟨j, hj, hjx⟩ := hold
      have hclean : cleanEntry mask m' x = m' := by
        rw [cleanEntry, if_neg]
        rw [h.cleared j hj x hjx, isDirty_clearDirtyBit]
        exact Bool.false_ne_true
      rw [hclean]
      refine ⟨ops, hops, fun a => (hmem a).trans ⟨?_, ?_⟩⟩
      · rintro ⟨i, hi, hdirty⟩
        exact ⟨i, by omega, hdirty⟩
      · rintro ⟨i, hi, p, ⟨y, hy, hdirty, hp⟩, ha⟩
        rcases Nat.lt_succ_iff_lt_or_eq.1 hi with hi | rfl
        · exact ⟨i, hi, p, ⟨y, hy, hdirty, hp⟩, ha⟩
        · obtain rfl := some.inj (hy.symm.trans hx)
          exact ⟨j, hj, p, ⟨y, hjx, hdirty, hp⟩, ha⟩
    · have hload : m'.load x = m.load x := h.kept x fun j hj he => hold ⟨j, hj, he⟩
      have hsplit : ∀ a, (∃ j < k + 1, ∃ p, DirtyPage mask root v0 m j p ∧ ∃ i < 64, a = p + 64 * i) ↔
          (isDirty (m.load x) = true ∧ ∃ i < 64, a = (getPageBaseAddr mask 0 (m.load x)).toNat + 64 * i) ∨
          .flush a ∈ ops := by
        intro a
        rw [hmem]
        constructor
        · rintro ⟨j, hj, p, ⟨y, hy, hdirty, rfl⟩, ha⟩
          rcases Nat.lt_succ_iff_lt_or_eq.1 hj with hj | rfl
          · exact .inr ⟨j, hj, _, ⟨y, hy, hdirty, rfl⟩, ha⟩
          · obtain rfl := some.inj (hy.symm.trans hx)
            exact .inl ⟨hdirty, ha⟩
        · rintro (⟨hdirty, ha⟩ | ⟨j, hj, hrest⟩)
          · exact ⟨k, Nat.lt_succ_self k, _, ⟨x, hx, hdirty, rfl⟩, ha⟩
          · exact ⟨j, by omega, hrest⟩
      unfold cleanEntry
      rw [hload]
      split
      · rename_i hdirty
        refine ⟨_, by rw [cleaned, Memory.store, ops_clflushRange, hops, ← append_assoc, ← cons_append], fun a => ?_⟩
        rw [hsplit, hload]
        simp [hdirty, eq_comm]
      · rename_i hdirty
        refine ⟨ops, hops, fun a => ?_⟩
        rw [hsplit]
        simp [hdirty]

/-! ## The loops -/

/-- A page of the range has no entry of level 0. -/
def Unwalkable (mask root v0 : Word) (N : Nat) (m : Mem) : Prop :=
  ∃ j < mappedPages v0 N, pteAt mask root m (pageAddr v0 j) = none

theorem lt_mappedPages (hal : v0.toNat % 4096 = 0) (hk : k < N) (hs : InSpace v0 k) : k < mappedPages v0 N := by
  rw [inSpace_iff] at hs
  unfold mappedPages
  omega

/-- Each page is gone through, unless it has no entry of level 0. -/
theorem walked_flushRule {m0 : Mem} (hal : v0.toNat % 4096 = 0)
    (hbehind : InSpace v0 N → isPresent (m0.load (entryAddr 3 root (pageAddr v0 N))) = true) :
    FlushRule (yielding fun _ => Unwalkable mask root v0 N m0) mask root v0 N m0
      (fun (w : World σ) k => Walked mask root v0 k m0 w.mem ∧ k ≤ N) where
  le h := h.2
  tables h va d hd := h.1.tableAt_eq va (by omega)
  page := by
    intro w k t Q h hk ht hQ
    show Yields _ _ _ _
    unfold Yields
    rw [run_flushPte]
    exact hQ _ ⟨h.1.next (by rw [pteAt, ht, map_some]), hk⟩
  stuck _ hk hs hnone := ⟨_, lt_mappedPages hal hk hs, by rw [pteAt, hnone, map_none]⟩
  behind := by
    intro α w e Q h hs hpres
    rw [← isPresent_clearDirtyBit, h.1.clearDirtyBit_load, isPresent_clearDirtyBit, hbehind hs] at hpres
    cases hpres

/-- On any memory with a PML4 entry behind the range, the call goes through the whole range or there is a page
without an entry of level 0. -/
theorem yields_flushDirtyPages {vaddr byteSize : Word} (w : World σ) (hal : vaddr.toNat % 4096 = 0)
    (hbehind : InSpace vaddr (pageCount byteSize) →
      isPresent (w.mem.load (entryAddr 3 root (pageAddr vaddr (pageCount byteSize)))) = true) :
    Yields (fun _ => Unwalkable mask root vaddr (pageCount byteSize) w.mem)
      (flushDirtyPages mask root vaddr byteSize) w fun _ w' =>
        Walked mask root vaddr (mappedPages vaddr (pageCount byteSize)) w.mem w'.mem := by
  unfold flushDirtyPages
  refine (yields_assert ((beq_kPageAddrMask_iff _).2 hal) ?_).bind
  exact Yields.bind (((walked_flushRule hal hbehind).loops hal ⟨walked_zero w.mem, Nat.zero_le _⟩).mono fun _ _ h =>
    h.1)

end

/-! ## Ranges of bytes

`CLFlush(buf, size)` of immintrin.h steps from `buf`, not from the beginning of its line. -/

section

variable {f : Nat → Word} {buf size a : Nat}

/-- Every line that meets `[buf, buf + size)` is flushed. -/
def Covers (buf size : Nat) : Prop := ∀ (f : Nat → Word) (x : Nat), buf ≤ x → x < buf + size →
  ∃ a, .flush a ∈ (clflushRange (.ofInit f) buf size).ops ∧ line a = line x

theorem flush_mem_clflushRange :
    .flush a ∈ (clflushRange (.ofInit f) buf size).ops ↔ ∃ i < (size + 63) / 64, a = buf + 64 * i := by
  rw [ops_clflushRange]
  simp [Memory.ofInit, eq_comm]

/-- The last line is missed exactly if it is reached only from the place of `buf` in the first one. -/
theorem covers_iff (buf size : Nat) : Covers buf size ↔ buf % 64 + (size - 1) % 64 < 64 := by
  simp only [Covers, flush_mem_clflushRange, line]
  constructor
  · intro h
    by_contra hlast
    obtain ⟨_, ⟨i, hi, rfl⟩, hline⟩ := h (fun _ => 0#64) (buf + size - 1) (by omega) (by omega)
    omega
  · intro h f x hle hlt
    exact ⟨_, ⟨x / 64 - buf / 64, by omega, rfl⟩, by omega⟩

theorem not_covers_last : ¬Covers 63 2 := by
  intro h
  obtain ⟨_, hmem, hline⟩ := h (fun _ => 0#64) 64 (by decide) (by decide)
  obtain ⟨i, hi, rfl⟩ := flush_mem_clflushRange.1 hmem
  simp only [line] at hline
  omega

end

end Liumos.Paging
