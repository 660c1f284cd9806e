/-
What `PersistentProcessInfo::SwitchContext` does: it flushes the working context, makes it the valid one,
and makes the other context a copy of it. The property of memory one wants to follow through the call is
a parameter: `SwitchLogic` lists what has to be shown of it at each stage.
Source: execution_context.cc.
-/
import Liumos.Process.Layout

namespace Liumos.Process

open Layout (owns_ctx owns_word owns_idx)
open Paging WriteBack PersistentProcessInfo ExecutionContext

variable {σ : Type} {L : Layout} {u v : Fin 2} {m m' : Mem}

/-! ## The copy -/

/-- The words `CopyContextFrom` writes when it is called on context `v`. -/
def Target (L : Layout) (v : Fin 2) (x : Nat) : Prop :=
  (∃ k < 85, x = L.ctx v + 8 * k) ∨ (∃ j, 8 * j < (L.data v).mapSize.toNat ∧ x = (L.data v).word j) ∨
    ∃ j, 8 * j < (L.stack v).mapSize.toNat ∧ x = (L.stack v).word j

/-- Context `v` is a copy of what context `u` was before. -/
structure CopiedTo (L : Layout) (u v : Fin 2) (m m' : Mem) : Prop where
  data_size : (L.data v).mapSize = (L.data u).mapSize
  stack_size : (L.stack v).mapSize = (L.stack u).mapSize
  cr3 : m'.load (L.ctx v) = m.load (L.ctx v)
  cpu : ∀ k, 0 < k → k < 85 → m'.load (L.ctx v + 8 * k) = m.load (L.ctx u + 8 * k)
  data : ∀ j, 8 * j < (L.data v).mapSize.toNat → m'.load ((L.data v).word j) = m.load ((L.data u).word j)
  stack : ∀ j, 8 * j < (L.stack v).mapSize.toNat → m'.load ((L.stack v).word j) = m.load ((L.stack u).word j)
  other : ∀ x, ¬ Target L v x → m'.load x = m.load x

variable {x k : Nat} {w : World σ} {P : Mem → Prop} {Q : Unit → World σ → Prop} {word : Word}

theorem Target.owns (h : Target L v x) : L.Owns .info x ∨ L.Owns (.data v) x ∨ L.Owns (.stack v) x := by
  rcases h with ⟨k, hk, rfl⟩ | ⟨j, hj, rfl⟩ | ⟨j, hj, rfl⟩
  · exact .inl (owns_ctx v (by omega))
  · exact .inr (.inl (owns_word (L.data_placed v) hj))
  · exact .inr (.inr (owns_word (L.stack_placed v) hj))

theorem Target.not_table (h : Target L v x) : L.lv (pageOf x) = none := by
  rcases h.owns with h | h | h <;> exact h.lv fun _ => Owner.noConfusion

/-- The contexts do not overlap. -/
theorem ctx_ne (h : u ≠ v) {k' : Nat} (hk : k < 99) (hk' : k' < 99) : L.ctx u + 8 * k ≠ L.ctx v + 8 * k' := by
  unfold Layout.ctx ctxAddr size
  omega

/-- Of the words that the layout fixes, the copy writes `cr3` of its own context only. -/
theorem IsFixedWord.not_target {i : Fin 2} (hk : IsFixedWord k) (hi : ¬ (i = v ∧ k = 0)) :
    ¬ Target L v (L.ctx i + 8 * k) := by
  rintro (⟨k', hk', he⟩ | ⟨j, hj, he⟩ | ⟨j, hj, he⟩)
  · by_cases hiv : i = v
    · subst hiv
      rcases hk with rfl | hk
      · exact hi ⟨rfl, rfl⟩
      · omega
    · exact ctx_ne hiv hk.lt (by omega) he
  · exact (owns_ctx i hk.lt).ne (owns_word (L.data_placed v) hj) Owner.noConfusion he
  · exact (owns_ctx i hk.lt).ne (owns_word (L.stack_placed v) hj) Owner.noConfusion he

/-- A copied segment, word by word. -/
theorem load_copied {s : SegmentMapping} {f : Nat → Word} (h8 : s.mapSize.toNat % 8 = 0)
    (hm : m' = storeWords m s.paddr.toNat f (s.mapSize.toNat / 8)) :
    (∀ j, 8 * j < s.mapSize.toNat → m'.load (s.word j) = f j) ∧
      ∀ x, (∀ j, 8 * j < s.mapSize.toNat → x ≠ s.word j) → m'.load x = m.load x := by
  subst hm
  constructor
  · intro j hj
    exact load_storeWords m _ f (by omega)
  · intro x hx
    exact load_storeWords_ne m _ f fun j hj => hx j (by omega)

/-- Memory after `CopyContextFrom` copied the CPU context, with `cr3` put back. -/
def cpuCopied (L : Layout) (u v : Fin 2) (m : Mem) : Mem :=
  (storeWords m (L.ctx v) (fun k => m.load (L.ctx u + 8 * k)) cpuContextWords).store (L.ctx v)
    (m.load (L.ctx v))

theorem load_cpuCopied_of_ne (hx : ∀ k < 85, x ≠ L.ctx v + 8 * k) : (cpuCopied L u v m).load x = m.load x := by
  have h0 : x ≠ L.ctx v := hx 0 (by omega)
  rw [cpuCopied, Memory.load_store_ne _ _ h0]
  exact load_storeWords_ne m _ _ hx

theorem load_cpuCopied (h0 : 0 < k) (hk : k < 85) :
    (cpuCopied L u v m).load (L.ctx v + 8 * k) = m.load (L.ctx u + 8 * k) := by
  rw [cpuCopied, Memory.load_store_ne _ _ (by omega)]
  exact load_storeWords m _ _ hk

theorem fixed_cpuCopied (h : Fixed L m) : Fixed L (cpuCopied L u v m) := by
  refine h.of_same (.of_load fun x l hx => load_cpuCopied_of_ne fun k hk => ?_) fun i k hk => ?_
  · rintro rfl
    rw [(owns_ctx v (by omega)).lv fun _ => Owner.noConfusion] at hx
    cases hx
  · by_cases hi : i = v ∧ k = 0
    · obtain ⟨rfl, rfl⟩ := hi
      exact Memory.load_store_self ..
    · exact load_cpuCopied_of_ne fun k' hk' he => hk.not_target hi (.inl ⟨k', hk', he⟩)

/-- The part of `CopyContextFrom` before the segments, followed by `x`. -/
theorem ensures_copyCpuContext (huv : u ≠ v) (hP : ∀ c x y, Target L v x → P c → P (c.store x y)) (h : P w.mem)
    {x : WM σ Unit} (hQ : ∀ w', w'.mem = cpuCopied L u v w.mem → P w'.mem → Ensures P x w' Q) : Ensures P (do
      copyWords (L.ctx v) (L.ctx u) cpuContextWords 0
      store (L.ctx v) (w.mem.load (L.ctx v))
      x) w Q := by
  have hcw : cpuContextWords = 85 := rfl
  have hstore : ∀ c j y, j < cpuContextWords → P c → P (c.store (L.ctx v + 8 * j) y) :=
    fun c j y hj => hP c _ y (.inl ⟨j, hj, rfl⟩)
  refine .bind (ensures_copyWords hstore (fun i hi j hj => ctx_ne huv (by omega) (by omega)) _ 0 w
    (Nat.zero_add _) rfl h fun w1 h1 p1 => ?_)
  have p2 := hstore _ 0 (w.mem.load (L.ctx v)) (by omega) p1
  refine .bind (ensures_store p2 (hQ _ ?_ p2))
  rw [h1, cpuCopied]

theorem ensures_copyContextFrom (huv : u ≠ v) (hfix : Fixed L w.mem)
    (hP : ∀ c x y, Target L v x → P c → P (c.store x y)) (h : P w.mem)
    (hQ : ∀ w', CopiedTo L u v w.mem w'.mem → P w'.mem → Q () w') :
    Ensures P (copyContextFrom (L.ctx v) (L.ctx u)) w Q := by
  have hd8 : (L.data v).mapSize.toNat % 8 = 0 := by have := (L.data_placed v).whole; omega
  have hs8 : (L.stack v).mapSize.toNat % 8 = 0 := by have := (L.stack_placed v).whole; omega
  have hd : ∀ i j, 8 * j < (L.data i).mapSize.toNat → L.Owns (.data i) ((L.data i).word j) :=
    fun i j => owns_word (L.data_placed i)
  have hs : ∀ i j, 8 * j < (L.stack i).mapSize.toNat → L.Owns (.stack i) ((L.stack i).word j) :=
    fun i j => owns_word (L.stack_placed i)
  refine ensures_load (ensures_copyCpuContext huv hP h fun w1 h1 p1 => ?_)
  have hfix1 : Fixed L w1.mem := h1 ▸ fixed_cpuCopied hfix
  refine .bind (ensures_copyDataFrom (hfix1.data v) (hfix1.data u) hd8
    (fun heq i j hi hj => (hd u i (heq ▸ hi)).ne (hd v j hj) (by simpa using huv))
    (fun c j y hj => hP c _ y (.inr (.inl ⟨j, hj, rfl⟩))) p1 fun hdsize w2 h2 p2 => ?_)
  obtain ⟨hdata, hdother⟩ := load_copied hd8 h2
  have hinfo2 : ∀ {x}, L.Owns .info x → w2.mem.load x = w1.mem.load x :=
    fun hx => hdother _ fun j hj => hx.ne (hd v j hj) Owner.noConfusion
  have hstack2 : ∀ i, SegmentIs w2.mem (stackAddr (L.ctx i)) (L.stack i) := by
    refine fun i => (hfix1.stack i).congr fun k hk => hinfo2 ?_
    rw [stackAddr, show L.ctx i + 728 + 8 * k = L.ctx i + 8 * (91 + k) by omega]
    exact owns_ctx i (by omega)
  refine ensures_copyDataFrom (hstack2 v) (hstack2 u) hs8
    (fun heq i j hi hj => (hs u i (heq ▸ hi)).ne (hs v j hj) (by simpa using huv))
    (fun c j y hj => hP c _ y (.inr (.inr ⟨j, hj, rfl⟩))) p2 fun hssize w3 h3 p3 => hQ w3 ?_ p3
  obtain ⟨hstack, hsother⟩ := load_copied hs8 h3
  have hinfo3 : ∀ {x}, L.Owns .info x → w3.mem.load x = w1.mem.load x :=
    fun hx => (hsother _ fun j hj => hx.ne (hs v j hj) Owner.noConfusion).trans (hinfo2 hx)
  -- the CPU context was copied first, and it lies in no segment
  have hseg1 : ∀ {o x}, o ≠ .info → L.Owns o x → w1.mem.load x = w.mem.load x := by
    intro o x ho hx
    rw [h1]
    exact load_cpuCopied_of_ne fun k hk => hx.ne (owns_ctx v (by omega)) ho
  refine ⟨hdsize, hssize, ?_, ?_, ?_, ?_, ?_⟩
  · show w3.mem.load (L.ctx v + 8 * 0) = _
    rw [hinfo3 (owns_ctx v (by omega)), h1, cpuCopied]
    exact Memory.load_store_self ..
  · intro k h0 hk
    rw [hinfo3 (owns_ctx v (by omega)), h1, load_cpuCopied h0 hk]
  · intro j hj
    rw [hsother _ fun i hi => (hd v j hj).ne (hs v i hi) Owner.noConfusion, hdata j hj]
    exact hseg1 Owner.noConfusion (hd u j (hdsize ▸ hj))
  · intro j hj
    have hju : 8 * j < (L.stack u).mapSize.toNat := hssize ▸ hj
    rw [hstack j hj, hdother _ fun i hi => (hs u j hju).ne (hd v i hi) Owner.noConfusion]
    exact hseg1 Owner.noConfusion (hs u j hju)
  · intro x hx
    rw [hsother x fun j hj he => hx (.inr (.inr ⟨j, hj, he⟩)), hdother x fun j hj he =>
      hx (.inr (.inl ⟨j, hj, he⟩)), h1]
    exact load_cpuCopied_of_ne fun k hk he => hx (.inl ⟨k, hk, he⟩)

/-! ## The call -/

/-- Memory after `SetValidContextIndex`, with `word` the word that holds the new index. -/
def committed (L : Layout) (m : Mem) (word : Word) : Mem := (m.store L.idx word).flush L.idx

theorem load_committed (hx : x ≠ L.idx) : (committed L m word).load x = m.load x := by
  rw [committed, Memory.load_flush, Memory.load_store_ne _ _ hx]

theorem idxIs_committed (hword : low32 word = BitVec.ofNat 32 v) : IdxIs (committed L m word) L v := by
  rw [IdxIs, committed, Memory.load_flush, Memory.load_store_self, hword]

theorem ne_idx_of_table {l : Nat} (hx : L.lv (pageOf x) = some l) : x ≠ L.idx := by
  rintro rfl
  rw [owns_idx.lv fun _ => Owner.noConfusion] at hx
  cases hx

theorem ctx_ne_idx (i : Fin 2) (hk : k < 99) : L.ctx i + 8 * k ≠ L.idx := by
  have := Layout.ctx_bounds (L := L) i
  omega

theorem fixed_committed (h : Fixed L m) (word : Word) : Fixed L (committed L m word) :=
  h.of_same (.of_load fun _ _ hx => load_committed (ne_idx_of_table hx)) fun i _ hk =>
    load_committed (ctx_ne_idx i hk.lt)

/-- What is shown of a property `P` of memory to follow it through `SwitchContext`: `B1` while the code and
the data segment are flushed, `B2` while the rest of the context is, `B3` once the new index is flushed. -/
structure SwitchLogic (L : Layout) (v : Fin 2) (m0 : Mem) (P B1 B2 B3 : Mem → Prop) : Prop where
  start : B1 m0
  flush₁ : FlushKeeps L.mask L.lv B1
  flush₂ : FlushKeeps L.mask L.lv B2
  kept₁ : ∀ m, B1 m → Kept L m0 m
  kept₂ : ∀ m, B2 m → Kept L m0 m
  clean : ∀ m, B1 m → (∀ k, 4096 * k < (L.data (1 - v)).mapSize.toNat →
    CleanAt L.mask (L.cr3 (1 - v)) (L.data (1 - v)).vaddr m k) → B2 m
  commit : ∀ m word, B2 m → low32 word = BitVec.ofNat 32 (1 - v : Fin 2) →
    P ((clflushRange m (L.ctx (1 - v)) 792).store L.idx word) ∧
      B3 (committed L (clflushRange m (L.ctx (1 - v)) 792) word)
  copy : ∀ c x y, Target L v x → B3 c → B3 (c.store x y)
  safe₁ : ∀ m, B1 m → P m
  safe₂ : ∀ m, B2 m → P m
  safe₃ : ∀ m, B3 m → P m

/-- What a call that returns has done, with `v` the valid index before it. -/
structure Switched (L : Layout) (v : Fin 2) (m m' : Mem) : Prop where
  tables : SameTables L.lv m m'
  idx : IdxIs m' L (1 - v)
  data_size : (L.data v).mapSize = (L.data (1 - v)).mapSize
  stack_size : (L.stack v).mapSize = (L.stack (1 - v)).mapSize
  cr3 : m'.load (L.ctx v) = m.load (L.ctx v)
  cpu : ∀ k, 0 < k → k < 85 → m'.load (L.ctx v + 8 * k) = m.load (L.ctx (1 - v) + 8 * k)
  data : ∀ j, 8 * j < (L.data v).mapSize.toNat → m'.load ((L.data v).word j) = m.load ((L.data (1 - v)).word j)
  stack : ∀ j, 8 * j < (L.stack v).mapSize.toNat → m'.load ((L.stack v).word j) = m.load ((L.stack (1 - v)).word j)
  other : ∀ x, L.lv (pageOf x) = none → x ≠ L.idx → ¬ Target L v x → m'.load x = m.load x

theorem idx_not_target : ¬ Target L v L.idx := by
  rintro (⟨k, hk, he⟩ | ⟨j, hj, he⟩ | ⟨j, hj, he⟩)
  · exact ctx_ne_idx v (by omega) he.symm
  · exact owns_idx.ne (owns_word (L.data_placed v) hj) Owner.noConfusion he
  · exact owns_idx.ne (owns_word (L.stack_placed v) hj) Owner.noConfusion he

/-- The layout survives the call. -/
theorem Switched.fixed (h : Switched L v m m') (hfix : Fixed L m) : Fixed L m' := by
  refine hfix.of_same h.tables fun i k hk => ?_
  by_cases hi : i = v ∧ k = 0
  · obtain ⟨rfl, rfl⟩ := hi
    exact h.cr3
  · exact h.other _ ((owns_ctx i hk.lt).lv fun _ => Owner.noConfusion) (ctx_ne_idx i hk.lt) (hk.not_target hi)

/-- The flush, the commit and the copy together. -/
theorem CopiedTo.switched {m1 : Mem} (hc : CopiedTo L (1 - v) v (committed L m1 word) m') (hk : Kept L m m1)
    (hword : low32 word = BitVec.ofNat 32 (1 - v : Fin 2)) : Switched L v m m' := by
  have hload : ∀ {o x}, L.Owns o x → (∀ l, o ≠ .table l) → x ≠ L.idx → (committed L m1 word).load x = m.load x :=
    fun hx ho hne => (load_committed hne).trans (hk.load _ (hx.lv ho))
  refine ⟨?_, ?_, hc.data_size, hc.stack_size, ?_, ?_, ?_, ?_, ?_⟩
  · refine hk.tables.trans (.of_load fun x l hx => ?_)
    rw [hc.other x fun ht => ?_, load_committed (ne_idx_of_table hx)]
    rw [ht.not_table] at hx
    cases hx
  · rw [IdxIs, hc.other _ idx_not_target]
    exact idxIs_committed hword
  · rw [hc.cr3]
    show (committed L m1 word).load (L.ctx v + 8 * 0) = m.load (L.ctx v + 8 * 0)
    exact hload (owns_ctx v (by omega)) (fun _ => Owner.noConfusion) (ctx_ne_idx v (by omega))
  · intro k h0 hk'
    rw [hc.cpu k h0 hk']
    exact hload (owns_ctx _ (by omega)) (fun _ => Owner.noConfusion) (ctx_ne_idx _ (by omega))
  · intro j hj
    have hown := owns_word (L.data_placed (1 - v)) (hc.data_size ▸ hj)
    rw [hc.data j hj, hload hown (fun _ => Owner.noConfusion) (hown.ne owns_idx Owner.noConfusion)]
  · intro j hj
    have hown := owns_word (L.stack_placed (1 - v)) (hc.stack_size ▸ hj)
    rw [hc.stack j hj, hload hown (fun _ => Owner.noConfusion) (hown.ne owns_idx Owner.noConfusion)]
  · intro x hx hne ht
    rw [hc.other x ht, load_committed hne, hk.load x hx]

section

variable {P : Mem → Prop} {w : World σ} {β : Type} {R : β → World σ → Prop}

theorem other_ne (v : Fin 2) : (1 - v : Fin 2) ≠ v := by
  fin_cases v <;> decide

theorem ensures_validCtxIdx (hidx : IdxIs w.mem L v) {f : Int → WM σ β} (h : Ensures P (f v) w R) :
    Ensures P (validCtxIdx L.info >>= f) w R := by
  have hv : (low32 (w.mem.load (validCtxIdxAddr L.info))).toInt = v := by
    rw [show low32 (w.mem.load (validCtxIdxAddr L.info)) = _ from hidx]
    fin_cases v <;> rfl
  refine .bind (ensures_load (ensures_pure ?_))
  rw [hv]
  exact h

variable {f : Nat → WM σ β}

theorem ensures_getValidContext (hidx : IdxIs w.mem L v) (h : Ensures P (f (L.ctx v)) w R) :
    Ensures P (getValidContext L.info >>= f) w R := by
  refine .bind (ensures_validCtxIdx hidx (ensures_assert fun _ => ensures_pure ?_))
  rw [Int.toNat_natCast]
  exact h

theorem ensures_getWorkingContext (hidx : IdxIs w.mem L v)
    (h : Ensures P (f (L.ctx (1 - v))) w R) : Ensures P (getWorkingContext L.info >>= f) w R := by
  have hv : (1 - (v : Int)).toNat = (1 - v : Fin 2) := by fin_cases v <;> rfl
  refine .bind (ensures_validCtxIdx hidx (ensures_assert fun _ => ensures_pure ?_))
  rw [hv]
  exact h

theorem ensures_segmentFlush {Base : Mem → Prop} (hB : FlushKeeps L.mask L.lv Base) (i : Fin 2) (h : Base w.mem)
    {a : Nat} {s : SegmentMapping} (hs : SegmentIs w.mem a s) :
    Ensures Base (SegmentMapping.flush L.mask a (L.cr3 i)) w fun _ w' => Base w'.mem ∧
      (s.vaddr.toNat % 2 ^ 48 + 4096 * pageCount s.mapSize ≤ 2 ^ 48 →
        ∀ k < pageCount s.mapSize, CleanAt L.mask (L.cr3 i) s.vaddr w'.mem k) :=
  ensures_getSegment hs (flushDirtyPages_ensures hB (lv_cr3 L i) h)

/-- The number of pages of the data segment. -/
theorem pages_data (L : Layout) (i : Fin 2) : 4096 * pageCount (L.data i).mapSize = (L.data i).mapSize.toNat := by
  have hw := (L.data_placed i).whole
  rw [pageCount_eq (by omega)]
  omega

variable {B1 B2 B3 : Mem → Prop}

/-- `ExecutionContext::Flush` on the working context. -/
theorem SwitchLogic.ensures_flush (h : SwitchLogic L v w.mem P B1 B2 B3) (hfix : Fixed L w.mem) :
    Ensures P (flush L.mask (L.ctx (1 - v)) (L.cr3 (1 - v))) w fun _ w' =>
      ∃ m, B2 m ∧ w'.mem = clflushRange m (L.ctx (1 - v)) 792 := by
  -- nothing is assumed of the code and the heap segment
  have hseg : ∀ m a, SegmentIs m a ⟨m.load a, m.load (a + 8), m.load (a + 16)⟩ := fun m a => ⟨rfl, rfl, rfl⟩
  unfold flush
  refine .bind ((ensures_segmentFlush h.flush₁ (1 - v) h.start (hseg _ _)).mono h.safe₁ fun _ w1 h1 => ?_)
  have hdata := (hfix.of_kept (h.kept₁ _ h1.1)).data (1 - v)
  refine .bind ((ensures_segmentFlush h.flush₁ (1 - v) h1.1 hdata).mono h.safe₁ fun _ w2 h2 => ?_)
  have hpages := pages_data L (1 - v)
  have hB2 : B2 w2.mem := by
    refine h.clean _ h2.1 fun k hk => h2.2 ?_ k (by omega)
    rw [hpages]
    exact L.data_virt (1 - v)
  refine .bind ((ensures_segmentFlush h.flush₂ (1 - v) hB2 (hseg _ _)).mono h.safe₂ fun _ w3 h3 => ?_)
  exact (ensures_clflushSize h.flush₂.flush h3.1 ⟨w3.mem, h3.1, rfl⟩).mono h.safe₂ fun _ _ hQ => hQ

/-- A call of `SwitchContext`. -/
theorem SwitchLogic.ensures (h : SwitchLogic L v w.mem P B1 B2 B3) (hfix : Fixed L w.mem) (hidx : IdxIs w.mem L v) :
    Ensures P (switchContext L.mask L.info) w fun _ w' => B3 w'.mem ∧ Switched L v w.mem w'.mem := by
  unfold switchContext
  refine ensures_getWorkingContext hidx (ensures_getWorkingContext hidx (ensures_load ?_))
  rw [show w.mem.load (cr3Addr (L.ctx (1 - v))) = L.cr3 (1 - v) from hfix.cr3 (1 - v)]
  refine .bind ((h.ensures_flush hfix).mono (fun _ hP => hP) ?_)
  rintro _ w1 ⟨m1, hB2, hw1⟩
  have hk : Kept L w.mem w1.mem := (h.kept₂ m1 hB2).trans (.of_load fun x => by rw [hw1, load_clflushRange])
  have hidx1 : IdxIs w1.mem L v := by rw [IdxIs, hk.load_info owns_idx]; exact hidx
  -- the commit: the new index, in the lower half of its word
  refine ensures_validCtxIdx hidx1 (.bind (ensures_load (.bind ?_)))
  have hword : low32 (setLow32 (w1.mem.load L.idx) (BitVec.ofInt 32 (1 - (v : Int)))) = BitVec.ofNat 32
      (1 - v : Fin 2) := by
    rw [low32_setLow32]
    fin_cases v <;> rfl
  obtain ⟨hP, hB3⟩ := h.commit m1 _ hB2 hword
  rw [← hw1] at hP hB3
  refine ensures_store hP (ensures_clflush (h.safe₃ _ hB3) ?_)
  show Ensures P _
    { w1 with mem := committed L w1.mem (setLow32 (w1.mem.load L.idx) (BitVec.ofInt 32 (1 - (v : Int)))) } _
  generalize setLow32 (w1.mem.load L.idx) (BitVec.ofInt 32 (1 - (v : Int))) = word at hword hB3 ⊢
  generalize hw2 : ({ w1 with mem := committed L w1.mem word } : World σ) = w2
  have hm2 : committed L w1.mem word = w2.mem := by rw [← hw2]
  have hidx2 : IdxIs w2.mem L (1 - v) := hm2 ▸ idxIs_committed hword
  have hfix2 : Fixed L w2.mem := hm2 ▸ fixed_committed (hfix.of_kept hk) word
  refine ensures_getWorkingContext hidx2 (ensures_getValidContext hidx2 ?_)
  rw [show (1 - (1 - v) : Fin 2) = v by fin_cases v <;> rfl]
  rw [hm2] at hB3
  refine (ensures_copyContextFrom (other_ne v) hfix2 h.copy hB3 ?_).mono h.safe₃ fun _ _ hQ => hQ
  intro w' hc hB
  rw [← hm2] at hc
  exact ⟨hB, hc.switched hk hword⟩

/-- What is known of every call that returns. -/
theorem switched_of_ok {w' : World σ} {a : Unit} (hfix : Fixed L w.mem) (hidx : IdxIs w.mem L v)
    (hrun : (switchContext L.mask L.info).run w = .ok a w') : Switched L v w.mem w'.mem := by
  have hlogic : SwitchLogic L v w.mem (fun _ => True) (Kept L w.mem) (Kept L w.mem) (fun _ => True) :=
    { start := .refl L w.mem
      flush₁ := flushKeeps_kept hfix
      flush₂ := flushKeeps_kept hfix
      kept₁ := fun _ h => h
      kept₂ := fun _ h => h
      clean := fun _ h _ => h
      commit := fun _ _ _ _ => ⟨trivial, trivial⟩
      copy := fun _ _ _ _ _ => trivial
      safe₁ := fun _ _ => trivial
      safe₂ := fun _ _ => trivial
      safe₃ := fun _ _ => trivial }
  exact ((hlogic.ensures hfix hidx).of_ok hrun).2

end

end Liumos.Process
