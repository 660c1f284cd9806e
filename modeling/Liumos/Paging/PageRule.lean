/-
A rule for what holds behind a call of `CreatePageMapping`: a property of the state and of the pages passed has to be
kept by mapping a page, by going through an entry into a table, and by what the cache does.
-/
import Liumos.Paging.MapRule
import Liumos.Paging.Range

namespace Liumos.Paging

section

variable {σ : Type} {A : Pool σ} {allocPages : Word → WM σ Word} [hA : AllocOk allocPages A]
  {mask root attr v0 p0 : Word} {N : Nat} {w w' : World σ} {P : (Word → Nat) → World σ → Nat → Prop}

/-- The call stands at page `k`, in the table `t` at depth `d` on its path, and has been through the entries above. -/
structure Stands (A : Pool σ) (mask root v0 : Word) (N : Nat) (mark : Word → Nat)
    (d : Nat) (t : Word) (w : World σ) (k : Nat) : Prop where
  inv : TreeInv A mask root w
  table : tableAt mask w.mem root (pageAddr v0 k) d = some t
  space : InSpace v0 k
  marks : Marks v0 N mark k
  entered : ∀ q, ∀ d' ≤ d, path d' q = path d' (pageAddr v0 k) → d' ≤ mark q

/-- `P mark w k` holds in every state of the call, after `k` pages and with these marks: what each step has to keep. -/
structure PageRule (A : Pool σ) (allocPages : Word → WM σ Word)
    (mask root attr v0 p0 : Word) (N : Nat) (P : (Word → Nat) → World σ → Nat → Prop) : Prop where
  page : ∀ {mark d t w w' k u}, Stands A mask root v0 N mark d t w k → 2 ≤ d → d ≤ 3 → k + 512 ^ (3 - d) ≤ N →
    v0.toNat % 2 ^ 48 + 4096 * (k + 512 ^ (3 - d)) ≤ 2 ^ 48 → pos v0 k % 2 ^ kIndexShift (3 - d) = 0 →
    child mask (3 - d) (w.mem.load (entryAt d t (pageAddr v0 k))) = none →
    (mapPage mask attr (3 - d) (entryAt d t (pageAddr v0 k)) (pageAddr p0 k)).run w = .ok u w' → P mark w k →
    P mark w' (k + 512 ^ (3 - d))
  through : ∀ {mark d t w w' k}, Stands A mask root v0 N mark d t w k → (0 < d → k < N) →
    Enters allocPages mask root attr d (pageAddr v0 k) t w w' → P mark w k → P (raise mark d (pageAddr v0 k)) w' k
  same : ∀ {mark w w' k}, TreeInv A mask root w → Marks v0 N mark k → SameLoads w w' → P mark w k → P mark w' k

/-- What a loop knows of the state it was entered in: the memory, where the current PML4 entry ends, and the marks. -/
structure TreeGhost where
  start : Mem
  stop : Nat
  mark : Word → Nat

/-- The invariant of the loop over the table `t` at depth `D`. -/
structure TreeLoop (A : Pool σ) (mask root v0 : Word) (N : Nat)
    (P : (Word → Nat) → World σ → Nat → Prop) (D : Nat) (t : Word) (k0 : Nat) (γ : TreeGhost) (w : World σ) (k : Nat) :
    Prop where
  inv : TreeInv A mask root w
  le : k ≤ N
  bound : pos v0 k ≤ γ.stop
  ext : Extends mask root γ.start w.mem
  table : tableAt mask γ.start root (pageAddr v0 k0) D = some t
  slot : InSlot v0 γ.stop k0
  entered : ∀ q, ∀ d ≤ D, path d q = path d (pageAddr v0 k0) → d ≤ γ.mark q
  prop : ∃ mark, (∀ q, γ.mark q ≤ mark q) ∧ Marks v0 N mark k ∧ P mark w k

theorem TreeLoop.stands {D k0 k : Nat} {t : Word} {γ : TreeGhost} {mark : Word → Nat}
    (h : TreeLoop A mask root v0 N P D t k0 γ w k) (hD1 : 1 ≤ D) (hD : D ≤ 3)
    (hsp : span v0 (3 - D) k = span v0 (3 - D) k0) (hle : ∀ q, γ.mark q ≤ mark q) (hmarks : Marks v0 N mark k) :
    Stands A mask root v0 N mark D t w k := by
  have hpath := path_of_span (by omega) hsp
  rw [show 3 - (3 - D) = D by omega] at hpath
  refine ⟨h.inv, table_of_span hD h.ext h.table hsp, (h.slot.of_span (by omega) hsp).space, hmarks, fun q d hd hq => ?_⟩
  exact (h.entered q d hd (hq.trans (path_mono hd (by omega) hpath))).trans (hle q)

/-- Behind an entry, the addresses below it are marked for it too. -/
theorem Stands.raised {mark : Word → Nat} {d k : Nat} {t : Word} (h : Stands A mask root v0 N mark d t w k) (q : Word)
    (d' : Nat) (hd' : d' ≤ d + 1) (hp : path d' q = path d' (pageAddr v0 k)) : d' ≤ raise mark d (pageAddr v0 k) q := by
  rcases Nat.lt_or_eq_of_le hd' with hlt | rfl
  · exact (h.entered q d' (by omega) hp).trans (le_raise _ _ _ _)
  · rw [raise, if_pos hp]
    exact le_max_right _ _

section

variable {E : Panic → Prop}

theorem PageRule.mapRule (hP : PageRule A allocPages mask root attr v0 p0 N P) (ha : AttrOk attr)
    (hE : Tolerates E allocPages) (hover : ∀ {mark d t w w' k}, Stands A mask root v0 N mark d t w k → d ≤ 2 → k < N →
      Through allocPages mask attr (3 - d) (entryAt d t (pageAddr v0 k)) w w' →
      isPage (3 - d) (w'.mem.load (entryAt d t (pageAddr v0 k))) = true → P mark w k → ∀ e, E e) :
    MapRule E allocPages mask attr v0 p0 N (TreeLoop A mask root v0 N P) where
  tolerates := hE
  le h := h.le
  page := by
    intro D t k0 γ w w1 w2 k u hD2 hD h hsp hk hva hnone hrun hs
    obtain ⟨mark, hle, hmarks, hprop⟩ := h.prop
    have hst := h.stands (by omega) hD hsp hle hmarks
    obtain ⟨hinv, hT, -⟩ := mapPage_frame ha h.inv (by omega) hD hst.table hnone hrun
    have hkept := hinv.of_same_loads hs
    obtain ⟨hvirt, hbound⟩ := (h.slot.of_span (by omega) hsp).fits (by omega) hva
    have hmarks' := hmarks.page hD2 hD hvirt hva hst.entered
    have hprop' := hP.page hst hD2 hD hk hvirt hva hnone hrun hprop
    refine ⟨hkept.inv, hk, hbound, ?_, h.table, h.slot, h.entered, mark, hle, hmarks', hP.same hinv hmarks' hs hprop'⟩
    exact fun va d t' hd ht' => hkept.ext va d t' hd ((hT va d hd).trans (h.ext va d t' hd ht'))
  enter := by
    intro D t k0 γ w w' k hD1 hD h hk hsp hthrough hpage
    obtain ⟨mark, hle, hmarks, hprop⟩ := h.prop
    have hst := h.stands hD1 (by omega) hsp hle hmarks
    have he := Enters.mk hD hst.table hthrough hpage
    obtain ⟨hkept, htable⟩ := enter_table ha h.inv he
    refine ⟨⟨w'.mem, γ.stop, raise mark D (pageAddr v0 k)⟩, ⟨hkept.inv, h.le, h.bound, .refl _, htable,
      h.slot.of_span (by omega) hsp, hst.raised, _, fun _ => le_refl _, hmarks.raise hD h.le (fun _ => hk) hst.space,
      hP.through hst (fun _ => hk) he hprop⟩, ?_⟩
    intro w'' k' h''
    obtain ⟨mark', hle', hrest⟩ := h''.prop
    exact { h'' with
      ext := (h.ext.trans hkept.ext).trans h''.ext
      table := h.table
      slot := h.slot
      entered := h.entered
      prop := ⟨mark', fun q => ((hle q).trans (le_raise mark D _ q)).trans (hle' q), hrest⟩ }
  overwrap := by
    intro D t k0 γ w w' k hD1 hD h hk hsp hthrough hpage
    obtain ⟨mark, hle, hmarks, hprop⟩ := h.prop
    exact hover (h.stands hD1 (by omega) hsp hle hmarks) hD hk hthrough hpage hprop _

/-- The state of the PML4 loop with `n` entries left. -/
structure TreeOuter (A : Pool σ) (mask root v0 : Word) (N : Nat)
    (P : (Word → Nat) → World σ → Nat → Prop) (mark : Word → Nat) (n : Nat) (w : World σ) (k : Nat) : Prop where
  inv : TreeInv A mask root w
  le : k ≤ N
  pending : Pending v0 N mark n k
  marks : Marks v0 N mark k
  prop : P mark w k

theorem PageRule.outerRule (hP : PageRule A allocPages mask root attr v0 p0 N P)
    (ha : AttrOk attr) (hR : MapRule E allocPages mask attr v0 p0 N (TreeLoop A mask root v0 N P)) :
    OuterRule E allocPages mask root attr v0 p0 N (TreeLoop A mask root v0 N P)
      (fun n w k => ∃ mark, TreeOuter A mask root v0 N P mark n w k) where
  toMapRule := hR
  round := by
    rintro n w w' k ⟨mark, h⟩ hthrough
    have hspace := h.pending.inSpace
    have hst : Stands A mask root v0 N mark 0 root w k :=
      ⟨h.inv, rfl, hspace, h.marks, fun q d hd _ => hd.trans (Nat.zero_le _)⟩
    have he : Enters allocPages mask root attr 0 (pageAddr v0 k) root w w' :=
      ⟨Nat.zero_le 2, rfl, hthrough, isPage_three _⟩
    obtain ⟨hkept, htable⟩ := enter_table ha h.inv he
    refine ⟨⟨w'.mem, (pos v0 k / 2 ^ 39 + 1) * 2 ^ 39, raise mark 0 (pageAddr v0 k)⟩,
      ⟨hkept.inv, h.le, by dsimp only; omega, .refl _, htable, ⟨hspace, rfl⟩, hst.raised, _, fun _ => le_refl _,
      h.marks.raise (Nat.zero_le 2) h.le (fun h0 => absurd h0 (lt_irrefl 0)) hspace,
      hP.through hst (fun h0 => absurd h0 (lt_irrefl 0)) he h.prop⟩, ?_⟩
    intro w'' k' h'' hr
    obtain ⟨mark', hle, hmarks, hprop⟩ := h''.prop
    exact ⟨mark', h''.inv, h''.le, (h.pending.next h''.le h''.bound hr).mono hle, hmarks, hprop⟩

variable {shouldClflush : Bool} {byteSize : Word}

/-- What holds behind the call. -/
abbrev PageRule.Behind (A : Pool σ) (mask root v0 : Word) (N : Nat) (P : (Word → Nat) → World σ → Nat → Prop)
    (w : World σ) : Prop :=
  TreeInv A mask root w ∧ ∃ mark, P mark w (mappedPages v0 N) ∧ (∀ q, 1 ≤ mark q ↔ SharesTable v0 N q 1) ∧
    ∀ q, Outside v0 N q → SharesExactly v0 N q (mark q)

theorem PageRule.yields (hP : PageRule A allocPages mask root attr v0 p0 (pageCount byteSize) P)
    (ha : AttrOk attr) (hR : MapRule E allocPages mask attr v0 p0 (pageCount byteSize)
      (TreeLoop A mask root v0 (pageCount byteSize) P)) (h : TreeInv A mask root w) (h₀ : P (fun _ => 0) w 0) :
    Yields E (Paging.createPageMapping allocPages mask attr shouldClflush root v0 p0 byteSize) w fun _ w' =>
      Behind A mask root v0 (pageCount byteSize) P w' := by
  refine ((hP.outerRule ha hR).createPageMapping ⟨_, h, Nat.zero_le _, pending_init _, marks_init, h₀⟩).mono ?_
  rintro _ w' ⟨k', hal, mark, hout⟩
  obtain rfl := hout.pending.eq_mappedPages hal hout.le
  refine ⟨hout.inv, mark, hout.prop, fun q => ⟨fun h1 => ?_, ?_⟩, fun q hq => hout.marks.exactly hout.pending hq⟩
  · exact (hout.marks.shares q).mono (le_refl 1) h1 (hout.marks.le q)
  · exact sharesTable_one_le (fun j hj => hout.marks.passed j hj 1 (by norm_num) q (.inl (by norm_num))) (le_refl _)
      hout.pending.done

end

theorem PageRule.createPageMapping (hP : PageRule A allocPages mask root attr v0 p0 (pageCount byteSize) P)
    (ha : AttrOk attr) (h : TreeInv A mask root w) (h₀ : P (fun _ => 0) w 0)
    (hrun : (Paging.createPageMapping allocPages mask attr shouldClflush root v0 p0 byteSize).run w = .ok () w') :
    Behind A mask root v0 (pageCount byteSize) P w' := by
  have hR := hP.mapRule ha (E := fun _ => True) ⟨fun _ => trivial, fun _ => trivial⟩ fun _ _ _ _ _ _ _ => trivial
  exact (hP.yields ha hR h h₀).of_ok hrun

/-- What all the steps keep is kept by the call. -/
theorem createPageMapping_keeps {K : World σ → Prop} (ha : AttrOk attr) (h : TreeInv A mask root w)
    (hK : ∀ {d t k}, (0 < d → k < pageCount byteSize) →
      StepRule A mask root d (pageAddr v0 k) t K) (h₀ : K w)
    (hrun : (Paging.createPageMapping allocPages mask attr shouldClflush root v0 p0 byteSize).run w = .ok () w') :
    K w' := by
  have hR : PageRule A allocPages mask root attr v0 p0 (pageCount byteSize) fun _ w _ => K w :=
    { page {_ d _ _ _ _ _} hst hd2 hd hk _ _ hnone hrun := by
        have : 0 < 512 ^ (3 - d) := by positivity
        exact (hK fun _ => by omega).mapPage ha hst.inv (by omega) hd hst.table hnone hrun
      through hst hk he := (hK hk).through ha hst.inv he
      same hw _ hs := (hK (k := 0) fun h => absurd h (lt_irrefl 0)).same (t := root) hw hs }
  obtain ⟨-, _, hK', -⟩ := hR.createPageMapping ha h h₀ hrun
  exact hK'

theorem vaddr_aligned {u : Unit} {vaddr paddr byteSize : Word}
    (hrun : (createPageMapping allocPages mask attr shouldClflush root vaddr paddr byteSize).run w = .ok u w') :
    vaddr.toNat % 4096 = 0 := by
  unfold createPageMapping at hrun
  obtain ⟨hv, -⟩ := of_run_assert_bind hrun
  exact (beq_kPageAddrMask_iff _).1 hv

end

end Liumos.Paging
