/-
What `CreatePageMapping` leaves alone. All its stores go to tables of the tree and to pages of the
allocator, so that what lies apart from both keeps its contents, and lies apart from both afterwards.
-/
import Liumos.Paging.Levels
import Liumos.Paging.PageRule

namespace Liumos.Paging

section

variable {σ : Type} {A : Pool σ} {allocPages : Word → WM σ Word} [hA : AllocOk allocPages A]
  {mask root attr v0 p0 : Word} {N : Nat}

/-- The address is in no table of the tree and in no page of the allocator. -/
structure Apart (A : Pool σ) (mask root : Word) (w : World σ) (a : Nat) : Prop where
  pool : ¬ A.has w (pageOf a)
  table : ∀ va d t, d ≤ 3 → tableAt mask w.mem root va d = some t → t.toNat ≠ pageOf a

variable {w w' : World σ} {d : Nat} {va t : Word}

theorem Apart.entry_ne {a l : Nat} (h : Apart A mask root w a) (htree : TreeOk mask w.mem root) (hd : d ≤ 3)
    (ht : tableAt mask w.mem root va d = some t) : a ≠ entryAddr l t va := by
  rintro rfl
  refine h.table va d t hd ht ?_
  exact (entryAddr_mem_page (htree.table_aligned ht)).symm

/-! ## Stores apart from the tree -/

/-- Stores that go to addresses apart from the tree and the allocator. -/
structure ApartStores (A : Pool σ) (mask root : Word) (w w' : World σ) : Prop where
  alloc : w'.alloc = w.alloc
  same : ∀ a, w'.mem.load a ≠ w.mem.load a → Apart A mask root w a

theorem ApartStores.sameBelow (h : ApartStores A mask root w w') (htree : TreeOk mask w.mem root) (va : Word) :
    SameBelow mask w.mem w'.mem root va 0 := by
  intro d t _ hd ht
  by_contra hne
  exact (h.same _ hne).entry_ne htree hd ht rfl

include hA

/-- They keep the tree with its translations, and what is apart. -/
theorem ApartStores.kept (h : ApartStores A mask root w w')
    (hw : TreeInv A mask root w) : Kept A mask root w w' ∧ ∀ a, Apart A mask root w a → Apart A mask root w' a := by
  obtain ⟨m', a'⟩ := w'
  obtain rfl : a' = w.alloc := h.alloc
  have hpool : ∀ a, A.has w (a / 4096 * 4096) → m'.load a = w.mem.load a := by
    intro a ha
    by_contra hne
    exact (h.same a hne).pool ha
  refine ⟨hw.of_same (h.sameBelow hw.tree) hpool, fun a ha =>
    ⟨fun hq => ha.pool ((hA.frame hw.alloc hpool).2 _ hq), ?_⟩⟩
  intro va d t hd ht
  exact ha.table va d t hd (((h.sameBelow hw.tree va).tables (by omega)).symm.trans ht)

/-! ## The call -/

/-- An address apart, with the contents `v`. -/
structure Untouched (A : Pool σ) (mask root : Word) (a : Nat) (v : Word) (w : World σ) : Prop where
  apart : Apart A mask root w a
  load : w.mem.load a = v

variable {a : Nat} {v : Word}

theorem Untouched.of_same_loads (h : Untouched A mask root a v w)
    (hw : TreeInv A mask root w) (hs : SameLoads w w') : Untouched A mask root a v w' := by
  have hstores : ApartStores A mask root w w' := ⟨hs.1, fun x hx => absurd (hs.2 x) hx⟩
  exact ⟨(hstores.kept hw).2 a h.apart, (hs.2 a).trans h.load⟩

theorem untouched_stepRule : StepRule A mask root d va t (Untouched A mask root a v) where
  same hw hs h := h.of_same_loads hw hs
  linked := by
    intro w w2 m n hw hdrawn h2 _ hL h
    have hd := hL.depth
    obtain ⟨-, hsame, -⟩ := hw.of_drawn hdrawn h2.alloc
    have ht : tableAt mask w.mem root va d = some t := ((hsame va).tables (by omega)).symm.trans hL.table
    have hpool := (hA.frame h2.alloc fun x hx => hL.same x (h2.entry_not_pool (by omega) hL.table hx)).2
    refine ⟨⟨fun hq => h.apart.pool (hdrawn.shrinks _ (hpool _ hq)), fun va' k t' hk ht' => ?_⟩, ?_⟩
    · rcases (hL.tableAt_iff h2.tree hk).1 ht' with hold | ⟨-, -, rfl⟩
      · rw [(hsame va').tables (by omega)] at hold
        exact h.apart.table va' k t' hk hold
      · intro he
        refine h.apart.pool ?_
        rw [← he]
        exact hdrawn.page
    · rw [hL.same a (h.apart.entry_ne hw.tree (by omega) ht), hdrawn.writes a h.apart.pool]
      exact h.load
  rewritten := by
    intro w m hw hs h
    have hpool := (hA.frame hw.alloc fun x hx => hs.same x (hw.entry_not_pool hs.depth hs.table hx)).2
    refine ⟨⟨fun hq => h.apart.pool (hpool _ hq), fun va' k t' hk ht' => ?_⟩, ?_⟩
    · rw [(hw.of_rewritten hs).2 va' k hk] at ht'
      exact h.apart.table va' k t' hk ht'
    · rw [hs.same a (h.apart.entry_ne hw.tree hs.depth hs.table)]
      exact h.load

/-- What lies apart from the tables and the allocator's pages is untouched by the call. -/
theorem createPageMapping_frame {vaddr paddr byteSize : Word} {shouldClflush : Bool}
    (h : TreeInv A mask root w) (ha : AttrOk attr)
    (hrun : (createPageMapping allocPages mask attr shouldClflush root vaddr paddr byteSize).run w = .ok () w')
    (hap : Apart A mask root w a) : w'.mem.load a = w.mem.load a ∧ Apart A mask root w' a := by
  have h' := createPageMapping_keeps ha h (fun _ => untouched_stepRule) (⟨hap, rfl⟩ : Untouched A mask root a _ w) hrun
  exact ⟨h'.load, h'.apart⟩

end

end Liumos.Paging
