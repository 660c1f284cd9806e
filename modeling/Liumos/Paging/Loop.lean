/-
The loops over the four table levels that `CreatePageMapping` and `FlushDirtyPages` share: the virtual
address runs through a range page by page, and a loop over a table of level `l` goes through at most
`n` entries of it, each of `2 ^ kIndexShift l` bytes. Such a loop ends with the range or behind its last
entry, and in between it stays in its table.
-/
import Liumos.Machine.Crash
import Liumos.Paging.Tree

namespace Liumos.Paging

/-! ## Positions in the range -/

/-- The address `k` pages behind `v0`. -/
def pageAddr (v0 : Word) (k : Nat) : Word := v0 + BitVec.ofNat 64 (4096 * k)

theorem pageAddr_zero (v0 : Word) : pageAddr v0 0 = v0 := by simp [pageAddr]

/-- The same as a number that does not wrap around. -/
def pos (v0 : Word) (k : Nat) : Nat := v0.toNat + 4096 * k

section

variable {v0 : Word} {N : Nat}

theorem toNat_pageAddr (v0 : Word) (k : Nat) : (pageAddr v0 k).toNat = pos v0 k % 2 ^ 64 := by
  rw [pageAddr, pos, BitVec.toNat_add, BitVec.toNat_ofNat]
  omega

variable {l k k1 n k' : Nat}

/-- The table index of a page. -/
theorem addr2index_pageAddr (hl : l ≤ 3) (v0 : Word) (k : Nat) :
    addr2index l (pageAddr v0 k) = pos v0 k / 2 ^ kIndexShift l % 512 := by
  rw [toNat_addr2index, toNat_pageAddr]
  generalize pos v0 k = x
  unfold kIndexShift
  interval_cases l <;> norm_num <;> omega

theorem path_pageAddr (d : Nat) (v0 : Word) (k : Nat) :
    path d (pageAddr v0 k) = pos v0 k % 2 ^ 48 / 2 ^ (48 - 9 * d) := by
  rw [path, toNat_pageAddr, Nat.mod_mod_of_dvd _ (by norm_num)]

theorem index_add_rest (l : Nat) (va : Word) : addr2index l va + (kNumOfEntries - addr2index l va) ≤ 512 := by
  have := addr2index_lt l va
  unfold kNumOfEntries
  omega

/-- Where a loop over `n` entries of level `l` stands after starting at page `k`: at the end of the
range, or at the end of the last entry. -/
def Reached (v0 : Word) (N l n k k' : Nat) : Prop :=
  k ≤ k' ∧ (k' = N ∨ pos v0 k' = if n = 0 then pos v0 k else (pos v0 k / 2 ^ kIndexShift l + n) * 2 ^ kIndexShift l)

/-- The part of the index space, by number, that a table of level `l` on the path of page `k` covers. -/
def span (v0 : Word) (l k : Nat) : Nat := pos v0 k / 2 ^ kIndexShift (l + 1)

theorem path_of_span (hl : l ≤ 3) (h : span v0 l k1 = span v0 l k) :
    path (3 - l) (pageAddr v0 k1) = path (3 - l) (pageAddr v0 k) := by
  rw [path_pageAddr, path_pageAddr]
  unfold span kIndexShift at h
  interval_cases l <;> norm_num at h ⊢ <;> omega

/-- The next entry is in the same table. -/
theorem next_entry (hl : l ≤ 3) (hk1 : k1 < N) (hn : 0 < n) (hr : Reached v0 N l 1 k k1)
    (hidx : addr2index l (pageAddr v0 k) + (n + 1) ≤ 512) :
    span v0 l k1 = span v0 l k ∧ addr2index l (pageAddr v0 k1) + n ≤ 512 := by
  rw [addr2index_pageAddr hl] at hidx ⊢
  have hpos := hr.2.resolve_left (by omega)
  unfold span
  generalize pos v0 k = x at hpos hidx ⊢
  generalize pos v0 k1 = y at hpos ⊢
  unfold kIndexShift at *
  interval_cases l <;> norm_num at hpos hidx ⊢ <;> omega

/-- A loop after its first entry. -/
theorem Reached.cons (hk' : k' ≤ N) (h : Reached v0 N l 1 k k1) (h' : Reached v0 N l n k1 k') :
    Reached v0 N l (n + 1) k k' := by
  refine ⟨h.1.trans h'.1, ?_⟩
  rcases h with ⟨-, h | h⟩
  · exact .inl (le_antisymm hk' (h ▸ h'.1))
  · refine h'.2.imp_right fun h' => ?_
    rw [if_neg one_ne_zero] at h
    rw [h', if_neg n.succ_ne_zero, h, Nat.mul_div_cancel _ (Nat.two_pow_pos _)]
    split
    · rename_i hn; rw [hn]
    · ring

/-- One page of `n` pages of 4KB that begins where an entry does reaches its end. -/
theorem Reached.of_page (hs : 2 ^ kIndexShift l = 4096 * n) (hva : pos v0 k % 2 ^ kIndexShift l = 0) :
    Reached v0 N l 1 k (k + n) := by
  refine ⟨Nat.le_add_right k n, .inr ?_⟩
  rw [if_neg one_ne_zero, Nat.add_mul, Nat.div_mul_cancel (Nat.dvd_of_mod_eq_zero hva), hs, pos, pos]
  ring

/-- The loop over the table below an entry ends where the entry ends. -/
theorem Reached.below (hl : l ≤ 2)
    (h : Reached v0 N l (kNumOfEntries - addr2index l (pageAddr v0 k)) k k') : Reached v0 N (l + 1) 1 k k' := by
  have hlt := addr2index_lt l (pageAddr v0 k)
  refine ⟨h.1, h.2.imp_right fun h => ?_⟩
  rw [h, if_neg (by unfold kNumOfEntries; omega), if_neg one_ne_zero, addr2index_pageAddr (by omega), kNumOfEntries]
  generalize pos v0 k = x
  unfold kIndexShift
  interval_cases l <;> norm_num <;> omega

end

/-! ## The loop rule -/

/-- What a step may do to the tables: none moves or goes away. -/
def Extends (mask root : Word) (m m' : Mem) : Prop :=
  ∀ va d t, d ≤ 3 → tableAt mask m root va d = some t → tableAt mask m' root va d = some t

variable {mask root : Word}

theorem Extends.refl (m : Mem) : Extends mask root m m := fun _ _ _ _ h => h

theorem Extends.trans {m1 m2 m3 : Mem} (h : Extends mask root m1 m2) (h' : Extends mask root m2 m3) :
    Extends mask root m1 m3 := fun va d t hd ht => h' va d t hd (h va d t hd ht)

/-- The table of a loop is on the path of all the pages that the loop comes to. -/
theorem table_of_span {v0 : Word} {ms m : Mem} {D k0 k : Nat} {t : Word} (hD : D ≤ 3) (hext : Extends mask root ms m)
    (ht : tableAt mask ms root (pageAddr v0 k0) D = some t) (hs : span v0 (3 - D) k = span v0 (3 - D) k0) :
    tableAt mask m root (pageAddr v0 k) D = some t := by
  have hpath := path_of_span (by omega) hs
  rw [show 3 - (3 - D) = D by omega] at hpath
  rw [tableAt_congr (by omega) hpath]
  exact hext _ _ _ (by omega) ht

section

variable {σ C : Type} {v0 : Word} {N : Nat}

/-- A judgement on the runs of computations, with what holds where they return. -/
structure Judgement (σ : Type) where
  holds : ∀ {α : Type}, WM σ α → World σ → (α → World σ → Prop) → Prop
  pure : ∀ {α : Type} {a : α} {w : World σ} {Q : α → World σ → Prop}, Q a w → holds (Pure.pure a) w Q
  bind : ∀ {α β : Type} {x : WM σ α} {f : α → WM σ β} {w : World σ} {R : β → World σ → Prop},
    (holds x w fun a w' => holds (f a) w' R) → holds (x >>= f) w R
  load : ∀ {β : Type} {a : Nat} {f : Word → WM σ β} {w : World σ} {R : β → World σ → Prop},
    holds (f (w.mem.load a)) w R → holds (Liumos.load a >>= f) w R

abbrev ensuring (P : Mem → Prop) : Judgement σ := ⟨Ensures P, ensures_pure, Ensures.bind, ensures_load⟩

abbrev yielding (E : Panic → Prop) : Judgement σ := ⟨Yields E, fun h => h, Yields.bind, yields_load_bind⟩

/-- A loop over the entries of the part `sp` of the index space, in which `Inv` holds after each entry. At page `k` the
loop variables are `cur k`. -/
structure RangeLoop (J : Judgement σ) (v0 : Word) (N : Nat) (cur : Nat → C) (Inv : World σ → Nat → Prop) (l sp : Nat)
    (loop : Nat → C → WM σ C) : Prop where
  le : ∀ {w k}, Inv w k → k ≤ N
  zero : ∀ c, loop 0 c = pure c
  done : ∀ n, loop (n + 1) (cur N) = pure (cur N)
  entry : ∀ {n w k} {Q : C → World σ → Prop}, Inv w k → k < N → span v0 l k = sp →
    (∀ k1 w1, Inv w1 k1 → Reached v0 N l 1 k k1 → J.holds (loop n (cur k1)) w1 Q) → J.holds (loop (n + 1) (cur k)) w Q

variable {J : Judgement σ} {cur : Nat → C} {Inv : World σ → Nat → Prop} {l sp : Nat} {loop : Nat → C → WM σ C}

/-- Such a loop goes on until the range or the table ends. -/
theorem RangeLoop.run (hL : RangeLoop J v0 N cur Inv l sp loop) (hl : l ≤ 3) :
    ∀ (n : Nat) {w : World σ} {k : Nat} {Q : C → World σ → Prop}, Inv w k →
      (k < N → 0 < n → span v0 l k = sp ∧ addr2index l (pageAddr v0 k) + n ≤ 512) →
      (∀ k' w', Inv w' k' → Reached v0 N l n k k' → Q (cur k') w') → J.holds (loop n (cur k)) w Q
  | 0, w, k, Q, h, _, hQ => by
    rw [hL.zero]
    exact J.pure (hQ k w h ⟨le_refl k, .inr (if_pos rfl).symm⟩)
  | n + 1, w, k, Q, h, hn, hQ => by
    rcases (hL.le h).lt_or_eq with hk | rfl
    · obtain ⟨hs, hidx⟩ := hn hk n.succ_pos
      refine hL.entry h hk hs fun k1 w1 h1 hr => hL.run hl n h1 ?_ fun k' w' h' hr' =>
        hQ k' w' h' (hr.cons (hL.le h') hr')
      intro hk1 hn1
      obtain ⟨hs1, hi⟩ := next_entry hl hk1 hn1 hr hidx
      exact ⟨hs1.trans hs, hi⟩
    · rw [hL.done]
      exact J.pure (hQ k w h ⟨le_refl k, .inl rfl⟩)

/-- The loop over the table below an entry. -/
theorem RangeLoop.below {w : World σ} {k : Nat} {Q : C → World σ → Prop}
    (hL : RangeLoop J v0 N cur Inv l (span v0 l k) loop) (hl : l ≤ 2) (h : Inv w k)
    (hQ : ∀ k' w', Inv w' k' → Reached v0 N (l + 1) 1 k k' → Q (cur k') w') :
    J.holds (loop (kNumOfEntries - addr2index l (pageAddr v0 k)) (cur k)) w Q :=
  hL.run (by omega) _ h (fun _ _ => ⟨rfl, index_add_rest l _⟩) fun k' w' h' hr => hQ k' w' h' (hr.below hl)

end

end Liumos.Paging
