/-
A switch gives every process back what it had: `SwitchContext` saves the frame and the CR3 of the process that leaves
the processor in its context, a persistent process then exchanges its contexts, and the frame and the CR3 of the other
process come from its own context. Over whole runs, with anything else that happens in between, a process is resumed
with the registers of its last preemption on its own table.
Sources: kernel.cc (`SwitchContext`, `SleepHandler`), process.{h,cc}, execution_context.{h,cc}.
-/
import Liumos.Switching.Handler

namespace Liumos.Switching

open Process Paging
open ExecutionContext (intCtxAddr gregAddr)
open Layout (owns_ctx owns_idx owns_word)

/-! ## Processes in memory -/

/-- A process with its place in memory: the context and the page table of an ephemeral one, or the layout of a
persistent one. -/
inductive Place where
  | ephemeral (ctx : Nat) (cr3 : Word)
  | persistent (L : Layout)

/-- What a process is to find again: its registers, and the words of its data and its stack segment if it is
persistent. -/
structure Snapshot where
  greg : Fin 15 → Word
  intCtx : Fin 5 → Word
  data : Nat → Option Word
  stack : Nat → Option Word

def segmentWords (m : Mem) (s : SegmentMapping) (j : Nat) : Option Word :=
  if 8 * j < s.mapSize.toNat then some (m.load (s.word j)) else none

theorem segmentWords_congr {m m' : Mem} {s s' : SegmentMapping} (hsize : s.mapSize = s'.mapSize)
    (h : ∀ j, 8 * j < s.mapSize.toNat → m.load (s.word j) = m'.load (s'.word j)) :
    segmentWords m s = segmentWords m' s' := by
  funext j
  unfold segmentWords
  rw [← hsize]
  split
  · rename_i hj
    rw [h j hj]
  · rfl

namespace Place

def kind : Place → Kind
  | ephemeral ctx _ => .ephemeral ctx
  | persistent L => .persistent L.info

/-- The context the process runs on. -/
def ctx (m : Mem) : Place → Nat
  | ephemeral ctx _ => ctx
  | persistent L => L.ctx (L.working m)

/-- The page table of that context. -/
def table (m : Mem) : Place → Word
  | ephemeral _ cr3 => cr3
  | persistent L => L.cr3 (L.working m)

def data (m : Mem) : Place → Nat → Option Word
  | ephemeral _ _ => fun _ => none
  | persistent L => segmentWords m (L.data (L.working m))

def stack (m : Mem) : Place → Nat → Option Word
  | ephemeral _ _ => fun _ => none
  | persistent L => segmentWords m (L.stack (L.working m))

/-- The levels of the tables of a persistent process. -/
def lv : Place → Nat → Option Nat
  | ephemeral _ _ => fun _ => none
  | persistent L => L.lv

/-- The word is one of the context, or one of the pages of a persistent process other than its tables. -/
def Holds (a : Nat) : Place → Prop
  | ephemeral ctx _ => ctx ≤ a ∧ a < ctx + ExecutionContext.size
  | persistent L => ∃ o, L.Owns o a ∧ ∀ l, o ≠ .table l

/-- Memory holds the process. -/
def Ready (m : Mem) : Place → Prop
  | ephemeral _ _ => True
  | persistent L => Fixed L m ∧ ∃ v, IdxIs m L v

/-- The process as its context has it. -/
def saved (m : Mem) (pl : Place) : Snapshot where
  greg i := m.load (gregAddr (pl.ctx m) + 8 * i)
  intCtx i := m.load (intCtxAddr (pl.ctx m) + 8 * i)
  data := pl.data m
  stack := pl.stack m

/-- The process as the processor runs it. -/
def live {α σ : Type} (s : Machine α σ) (pl : Place) : Snapshot where
  greg := s.greg
  intCtx := s.intCtx
  data := pl.data s.world.mem
  stack := pl.stack s.world.mem

/-- Processes share no words but those of tables. -/
structure Apart (pl pl' : Place) : Prop where
  words : ∀ a, pl.Holds a → ¬ pl'.Holds a
  tables : ∀ a, pl.Holds a → pl'.lv (pageOf a) = none
  tables' : ∀ a, pl'.Holds a → pl.lv (pageOf a) = none

/-- What is the process's has stayed, up to the dirty bits of its tables. -/
structure Unchanged (pl : Place) (m m' : Mem) : Prop where
  words : ∀ a, pl.Holds a → m'.load a = m.load a
  tables : SameTables pl.lv m m'

/-- The process waits in memory to be resumed with `snap`. -/
structure Waiting (pl : Place) (m : Mem) (snap : Snapshot) : Prop where
  ready : pl.Ready m
  cr3 : m.load (ExecutionContext.cr3Addr (pl.ctx m)) = pl.table m
  saved : pl.saved m = snap

end Place

section

variable {pl pl' : Place} {L : Layout} {m m' : Mem}

/-! ## A process that is left alone -/

theorem holds_of_owns {o : Owner} {a : Nat} (h : L.Owns o a) (ho : ∀ l, o ≠ .table l) : (Place.persistent L).Holds a :=
  ⟨o, h, ho⟩

theorem holds_ctx (hr : pl.Ready m) {k : Nat} (hk : k < 99) : pl.Holds (pl.ctx m + 8 * k) := by
  cases pl with
  | ephemeral ctx cr3 =>
    show ctx ≤ ctx + 8 * k ∧ ctx + 8 * k < ctx + ExecutionContext.size
    unfold ExecutionContext.size
    omega
  | persistent L => exact holds_of_owns (owns_ctx _ hk) fun _ => Owner.noConfusion

theorem gregAddr_word (ctx i : Nat) : gregAddr ctx + 8 * i = ctx + 8 * (1 + i) := by
  unfold gregAddr
  omega

theorem intCtxAddr_word (ctx i : Nat) : intCtxAddr ctx + 8 * i = ctx + 8 * (16 + i) := by
  unfold intCtxAddr
  omega

theorem Place.Unchanged.working (h : (Place.persistent L).Unchanged m m') : L.working m' = L.working m := by
  unfold Layout.working
  rw [h.words _ (holds_of_owns owns_idx fun _ => Owner.noConfusion)]

theorem Place.Unchanged.ctx (h : pl.Unchanged m m') : pl.ctx m' = pl.ctx m := by
  cases pl with
  | ephemeral ctx cr3 => rfl
  | persistent L => exact congrArg L.ctx h.working

theorem Place.Unchanged.table (h : pl.Unchanged m m') : pl.table m' = pl.table m := by
  cases pl with
  | ephemeral ctx cr3 => rfl
  | persistent L => exact congrArg L.cr3 h.working

theorem Place.Unchanged.segment (h : (Place.persistent L).Unchanged m m') {o : Owner} {seg : SegmentMapping}
    (hs : Placed L.owner o seg) (ho : ∀ l, o ≠ .table l) : segmentWords m' seg = segmentWords m seg :=
  segmentWords_congr rfl fun _ hj => h.words _ (holds_of_owns (owns_word hs hj) ho)

section

variable (h : pl.Unchanged m m')

include h

theorem Place.Unchanged.data : pl.data m' = pl.data m := by
  cases pl with
  | ephemeral ctx cr3 => rfl
  | persistent L =>
    show segmentWords m' (L.data (L.working m')) = segmentWords m (L.data (L.working m))
    rw [h.working, h.segment (L.data_placed _) fun _ => Owner.noConfusion]

theorem Place.Unchanged.stack : pl.stack m' = pl.stack m := by
  cases pl with
  | ephemeral ctx cr3 => rfl
  | persistent L =>
    show segmentWords m' (L.stack (L.working m')) = segmentWords m (L.stack (L.working m))
    rw [h.working, h.segment (L.stack_placed _) fun _ => Owner.noConfusion]

theorem Place.Unchanged.ready (hr : pl.Ready m) : pl.Ready m' := by
  cases pl with
  | ephemeral ctx cr3 => trivial
  | persistent L =>
    obtain ⟨hfix, v, hidx⟩ := hr
    refine ⟨hfix.of_same h.tables fun i k hk => ?_, v, ?_⟩
    · exact h.words _ (holds_of_owns (owns_ctx i hk.lt) fun _ => Owner.noConfusion)
    · unfold IdxIs
      rw [h.words _ (holds_of_owns owns_idx fun _ => Owner.noConfusion)]
      exact hidx

theorem Place.Unchanged.waiting {snap : Snapshot} (hw : pl.Waiting m snap) : pl.Waiting m' snap := by
  have hword : ∀ k < 99, m'.load (pl.ctx m + 8 * k) = m.load (pl.ctx m + 8 * k) :=
    fun k hk => h.words _ (holds_ctx hw.ready hk)
  refine ⟨h.ready hw.ready, ?_, ?_⟩
  · rw [h.ctx, h.table, ← hw.cr3]
    exact hword 0 (by omega)
  · rw [← hw.saved]
    unfold Place.saved
    rw [h.ctx, h.data, h.stack]
    congr 1
    · funext i
      rw [gregAddr_word]
      exact hword _ (by omega)
    · funext i
      rw [intCtxAddr_word]
      exact hword _ (by omega)

end

end

/-! ## The process that leaves the processor -/

section

variable {m : Mem} {ctx : Nat} {cr3 : Word} {greg : Fin 15 → Word} {intCtx : Fin 5 → Word}

theorem load_saveMem_ne {a : Nat} (h : ∀ k < 21, a ≠ ctx + 8 * k) :
    (saveMem m ctx cr3 greg intCtx).load a = m.load a := by
  unfold saveMem
  rw [load_storeWords_ne, load_storeWords_ne, WriteBack.Memory.load_store_ne]
  · exact h 0 (by omega)
  · intro i hi
    rw [gregAddr_word]
    exact h _ (by omega)
  · intro i hi
    rw [intCtxAddr_word]
    exact h _ (by omega)

theorem load_saveMem_cr3 : (saveMem m ctx cr3 greg intCtx).load ctx = cr3 := by
  unfold saveMem ExecutionContext.cr3Addr gregAddr intCtxAddr
  rw [load_storeWords_ne, load_storeWords_ne, WriteBack.Memory.load_store_self]
  · intro i hi
    omega
  · intro i hi
    omega

theorem load_saveMem_greg (i : Fin 15) : (saveMem m ctx cr3 greg intCtx).load (gregAddr ctx + 8 * i) = greg i := by
  have hi := i.isLt
  unfold saveMem
  rw [load_storeWords_ne, load_storeWords _ _ _ hi, dif_pos hi]
  intro j hj
  unfold gregAddr intCtxAddr
  omega

theorem load_saveMem_intCtx (i : Fin 5) : (saveMem m ctx cr3 greg intCtx).load (intCtxAddr ctx + 8 * i) = intCtx i := by
  have hi := i.isLt
  unfold saveMem
  rw [load_storeWords _ _ _ hi, dif_pos hi]

end

/-- What a switch away from a process leaves in memory, where its context was at `src`. -/
structure Preempted {α σ : Type} (pl : Place) (s : Machine α σ) (src : Nat) (w : World σ) : Prop where
  waiting : pl.Waiting w.mem (pl.live s)
  src : w.mem.load src = s.cr3
  others : ∀ pl' : Place, pl.Apart pl' → pl'.Unchanged s.world.mem w.mem

section

variable {α σ : Type} {s : Machine α σ} {pl : Place} {L : Layout} {mask : Word} {w w' : World σ} {a : Nat} {u : Unit}

theorem getExecutionContext_eq (hr : pl.Ready w.mem) (h : (getExecutionContext pl.kind).run w = .ok a w') :
    a = pl.ctx w.mem := by
  cases pl with
  | ephemeral ctx cr3 =>
    cases h
    rfl
  | persistent L =>
    obtain ⟨-, v, hidx⟩ := hr
    have hrun : Ensures (fun _ => True) (PersistentProcessInfo.getWorkingContext L.info >>= pure) w
        fun a (_ : World σ) => a = L.ctx (L.working w.mem) := by
      refine ensures_getWorkingContext hidx (ensures_pure ?_)
      rw [hidx.working]
    rw [bind_pure] at hrun
    exact ensures_true_iff.1 hrun a w' h

theorem preempted_ephemeral {ctx : Nat} {cr3 : Word} (hcr3 : s.cr3 = cr3)
    (hnotify : (notifyContextSaving mask (.ephemeral ctx)).run
      { s.world with mem := saveMem s.world.mem ctx s.cr3 s.greg s.intCtx } = .ok u w) :
    Preempted (.ephemeral ctx cr3) s ctx w := by
  obtain ⟨-, rfl⟩ := run_pure_ok hnotify
  refine ⟨⟨trivial, ?_, ?_⟩, load_saveMem_cr3, fun pl' hap => ?_⟩
  · exact load_saveMem_cr3.trans hcr3
  · show Snapshot.mk _ _ _ _ = _
    unfold Place.live
    congr 1
    · funext i
      exact load_saveMem_greg i
    · funext i
      exact load_saveMem_intCtx i
  · have hready : (Place.ephemeral ctx cr3).Ready s.world.mem := trivial
    have hheld : ∀ k < 21, (Place.ephemeral ctx cr3).Holds (ctx + 8 * k) := fun k hk => holds_ctx hready (by omega)
    refine ⟨fun a ha => load_saveMem_ne ?_, .of_load fun a l ha => load_saveMem_ne ?_⟩
    · rintro k hk rfl
      exact hap.words _ (hheld k hk) ha
    · rintro k hk rfl
      rw [hap.tables _ (hheld k hk)] at ha
      cases ha

/-- Saving the registers in a context keeps the layout, if the table saved is that of the context. -/
theorem fixed_saveMem {m : Mem} {u : Fin 2} {greg : Fin 15 → Word} {intCtx : Fin 5 → Word} (h : Fixed L m) :
    Fixed L (saveMem m (L.ctx u) (L.cr3 u) greg intCtx) := by
  refine h.of_same (.of_load fun x l hx => load_saveMem_ne fun k hk => ?_) fun i k hk => ?_
  · rintro rfl
    rw [(owns_ctx u (by omega)).lv fun _ => Owner.noConfusion] at hx
    cases hx
  · by_cases hi : i = u ∧ k = 0
    · obtain ⟨rfl, rfl⟩ := hi
      exact load_saveMem_cr3.trans (h.cr3 i).symm
    · refine load_saveMem_ne fun k' hk' => ?_
      by_cases hiu : i = u
      · subst hiu
        rcases hk with rfl | hk
        · exact absurd ⟨rfl, rfl⟩ hi
        · omega
      · exact ctx_ne hiu hk.lt (by omega)

theorem preempted_persistent {v : Fin 2} (hfix : Fixed L s.world.mem) (hidx : IdxIs s.world.mem L v)
    (hcr3 : s.cr3 = L.cr3 (1 - v)) (hnotify : (notifyContextSaving L.mask (.persistent L.info)).run
      { s.world with mem := saveMem s.world.mem (L.ctx (1 - v)) s.cr3 s.greg s.intCtx } = .ok u w) :
    Preempted (.persistent L) s (L.ctx (1 - v)) w := by
  generalize hm1 : saveMem s.world.mem (L.ctx (1 - v)) s.cr3 s.greg s.intCtx = m1 at hnotify
  have hother : ∀ a, (∀ k < 21, a ≠ L.ctx (1 - v) + 8 * k) → m1.load a = s.world.mem.load a := by
    intro a ha
    rw [← hm1]
    exact load_saveMem_ne ha
  have hfix1 : Fixed L m1 := by
    rw [← hm1, hcr3]
    exact fixed_saveMem hfix
  have hidx1 : IdxIs m1 L v := by
    unfold IdxIs
    rw [hother _ fun k hk => (ctx_ne_idx _ (by omega)).symm]
    exact hidx
  have hsw : Switched L v m1 w.mem := switched_of_ok (w := { s.world with mem := m1 }) hfix1 hidx1 hnotify
  have hworking : L.working w.mem = v := by
    rw [hsw.idx.working]
    fin_cases v <;> rfl
  have hfix2 := hsw.fixed hfix1
  -- words of the segments are no words of a context
  have hseg : ∀ {o a}, L.Owns o a → o ≠ .info → m1.load a = s.world.mem.load a :=
    fun ha ho => hother _ fun k hk => ha.ne (owns_ctx _ (by omega)) ho
  refine ⟨⟨⟨hfix2, _, hsw.idx⟩, ?_, ?_⟩, ?_, fun pl' hap => ?_⟩
  · exact hfix2.cr3 _
  · show Snapshot.mk _ _ _ _ = Snapshot.mk _ _ _ _
    congr 1
    · funext i
      show w.mem.load (gregAddr (L.ctx (L.working w.mem)) + 8 * i) = s.greg i
      rw [hworking, gregAddr_word, hsw.cpu _ (by omega) (by omega), ← hm1, ← gregAddr_word]
      exact load_saveMem_greg i
    · funext i
      show w.mem.load (intCtxAddr (L.ctx (L.working w.mem)) + 8 * i) = s.intCtx i
      rw [hworking, intCtxAddr_word, hsw.cpu _ (by omega) (by omega), ← hm1, ← intCtxAddr_word]
      exact load_saveMem_intCtx i
    · show segmentWords w.mem (L.data (L.working w.mem)) = segmentWords s.world.mem (L.data (L.working s.world.mem))
      rw [hworking, hidx.working]
      refine segmentWords_congr hsw.data_size fun j hj => ?_
      rw [hsw.data j hj]
      exact hseg (owns_word (L.data_placed _) (hsw.data_size ▸ hj)) Owner.noConfusion
    · show segmentWords w.mem (L.stack (L.working w.mem)) = segmentWords s.world.mem (L.stack (L.working s.world.mem))
      rw [hworking, hidx.working]
      refine segmentWords_congr hsw.stack_size fun j hj => ?_
      rw [hsw.stack j hj]
      exact hseg (owns_word (L.stack_placed _) (hsw.stack_size ▸ hj)) Owner.noConfusion
  · rw [hfix2.cr3, hcr3]
  · have hfirst : ∀ a, ¬ (Place.persistent L).Holds a → m1.load a = s.world.mem.load a := by
      refine fun a ha => hother a fun k hk => ?_
      rintro rfl
      exact ha (holds_of_owns (owns_ctx _ (by omega)) fun _ => Owner.noConfusion)
    have haway : ∀ a, ¬ (Place.persistent L).Holds a → L.lv (pageOf a) = none → w.mem.load a = s.world.mem.load a := by
      intro a ha hlv
      rw [hsw.other a hlv ?_ ?_, hfirst a ha]
      · rintro rfl
        exact ha (holds_of_owns owns_idx fun _ => Owner.noConfusion)
      · intro ht
        rcases ht.owns with ho | ho | ho <;> exact ha (holds_of_owns ho fun _ => Owner.noConfusion)
    refine ⟨fun a ha => haway a (fun hown => hap.words a hown ha) (hap.tables' a ha), fun a l ha => ?_⟩
    have hout : ¬ (Place.persistent L).Holds a := by
      intro hown
      rw [hap.tables a hown] at ha
      cases ha
    cases hlv : L.lv (pageOf a) with
    | none => rw [haway a hout hlv]
    | some l' => rw [hsw.tables a l' hlv, hfirst a hout]

/-- The switch away from any process. -/
theorem preempted_of_ok (hr : pl.Ready s.world.mem) (hcr3 : s.cr3 = pl.table s.world.mem)
    (hmask : ∀ L, pl = .persistent L → L.mask = mask) (hnotify : (notifyContextSaving mask pl.kind).run
      { s.world with mem := saveMem s.world.mem (pl.ctx s.world.mem) s.cr3 s.greg s.intCtx } = .ok u w) :
    Preempted pl s (pl.ctx s.world.mem) w := by
  cases pl with
  | ephemeral ctx cr3 => exact preempted_ephemeral hcr3 hnotify
  | persistent L =>
    obtain ⟨hfix, v, hidx⟩ := hr
    obtain rfl := hmask L rfl
    simp only [Place.ctx, Place.table, hidx.working] at hcr3 hnotify ⊢
    exact preempted_persistent hfix hidx hcr3 hnotify

end

/-! ## Runs -/

/-- The processes of a kernel, apart from each other in memory. -/
structure Processes (α : Type) where
  place : α → Place
  mask : Word
  timeSliceCount : Word
  mask_eq : ∀ x L, place x = .persistent L → L.mask = mask
  apart : ∀ x y, x ≠ y → (place x).Apart (place y)

def Processes.config {α : Type} (P : Processes α) : Config α where
  kind x := (P.place x).kind
  mask := P.mask
  timeSliceCount := P.timeSliceCount

/-- `HPET` reads a count with which the check of the time slice, whose start is always 0, does not end the call. -/
def Event.Timely (e : Event) (timeSliceCount : Word) : Prop :=
  0 < e.nowCount.toNat ∧ e.nowCount.toNat ≤ 2 ^ 64 - timeSliceCount.toNat

theorem Event.Timely.not_early {e : Event} {c : Word} (h : e.Timely c) : ¬ 0#64 - e.nowCount < c := by
  obtain ⟨h0, hle⟩ := h
  rw [BitVec.lt_def, BitVec.toNat_sub, BitVec.toNat_ofNat]
  omega

section

variable {α σ : Type} [DecidableEq α]

/-- What the kernel does, with the snapshot of each process that waits: that of its last preemption, or what its
context was set up with. -/
inductive Run (P : Processes α) : Machine α σ → (α → Snapshot) → Prop
  | init {s last} : Sched.Inv s.sched → (P.place s.sched.current).Ready s.world.mem →
      s.cr3 = (P.place s.sched.current).table s.world.mem →
      (∀ x ∈ s.sched.table, x ≠ s.sched.current → (P.place x).Waiting s.world.mem (last x)) → Run P s last
  -- the current process runs, in user mode or in the kernel, and leaves the others alone
  | run {s s' last} : Run P s last → s'.sched = s.sched → s'.cr3 = s.cr3 →
      (∀ x ∈ s.sched.table, x ≠ s.sched.current → (P.place x).Unchanged s.world.mem s'.world.mem) →
      (P.place s.sched.current).Ready s'.world.mem →
      (P.place s.sched.current).table s'.world.mem = (P.place s.sched.current).table s.world.mem → Run P s' last
  -- processes are registered and killed
  | op {s last op r t last'} : Run P s last → Sched.Effect s.sched op r t → t.current = s.sched.current →
      (∀ x ∈ s.sched.table, last' x = last x) →
      (∀ x ∈ t.table, x ∉ s.sched.table → (P.place x).Waiting s.world.mem (last' x)) → Run P { s with sched := t } last'
  -- the timer, or a call of `Sleep`
  | event {s last e s' u} : Run P s last → e.Timely P.timeSliceCount → (interrupt P.config e).run s = .ok u s' →
      Run P s' (if s'.sched.current = s.sched.current then last
        else Function.update last s.sched.current ((P.place s.sched.current).live s))

structure RunInv (P : Processes α) (s : Machine α σ) (last : α → Snapshot) : Prop where
  sched : Sched.Inv s.sched
  ready : (P.place s.sched.current).Ready s.world.mem
  cr3 : s.cr3 = (P.place s.sched.current).table s.world.mem
  waiting : ∀ x ∈ s.sched.table, x ≠ s.sched.current → (P.place x).Waiting s.world.mem (last x)

/-- What an event leaves on the processor. If the same process goes on, nothing has changed; if another one is resumed,
it has the registers of its snapshot. -/
structure Restored (P : Processes α) (last : α → Snapshot) (s s' : Machine α σ) : Prop where
  cr3 : s'.cr3 = (P.place s'.sched.current).table s'.world.mem
  same : s'.sched.current = s.sched.current → s' = s
  resumed : s'.sched.current ≠ s.sched.current → (P.place s'.sched.current).live s' = last s'.sched.current

variable {P : Processes α} {s s' : Machine α σ} {last : α → Snapshot} {e : Event}

section

variable (h : RunInv P s last) (he : e.Timely P.timeSliceCount) (hrun : (interrupt P.config e).run s = .ok u s')

include h he hrun

/-- An event either leaves the machine as it is, or goes from the current process to one that waits. -/
theorem RunInv.event_cases : s' = s ∨ ∃ q, s.sched.next = some q ∧ q ≠ s.sched.current ∧ s'.sched = s.sched.resume q ∧
      Preempted (P.place s.sched.current) s ((P.place s.sched.current).ctx s.world.mem) s'.world ∧
      (P.place q).Waiting s'.world.mem (last q) ∧ s'.cr3 = (P.place q).table s'.world.mem ∧
      (P.place q).live s' = last q := by
  cases interrupt_ok h.sched hrun with
  | stayed hn => exact .inl rfl
  | early hn hearly => exact absurd hearly he.not_early
  | @switched q src dst w hn _ _ hsrc hnotify hdst =>
    obtain ⟨hq, hst⟩ := Sched.nextSleeping_some hn
    have hne : q ≠ s.sched.current := by
      rintro rfl
      exact h.sched.not_sleeping hst
    obtain rfl := getExecutionContext_eq h.ready hsrc
    have hpre := preempted_of_ok h.ready h.cr3 (P.mask_eq _) hnotify
    have hwait := (hpre.others _ (P.apart _ q hne.symm)).waiting (h.waiting q hq hne)
    obtain rfl := getExecutionContext_eq hwait.ready hdst
    refine .inr ⟨q, hn, hne, rfl, hpre, hwait, ?_, ?_⟩
    · rw [hpre.src, show w.mem.load ((P.place q).ctx w.mem) = _ from hwait.cr3]
      split
      · assumption
      · rfl
    · exact hwait.saved

theorem RunInv.restored : Restored P last s s' := by
  rcases h.event_cases he hrun with rfl | ⟨q, -, hne, hsched, -, -, hcr3, hlive⟩
  · exact ⟨h.cr3, fun _ => rfl, fun hne => absurd rfl hne⟩
  · have hq : s'.sched.current = q := by rw [hsched]; rfl
    refine ⟨by rw [hq]; exact hcr3, fun heq => absurd (hq.symm.trans heq) hne, fun _ => ?_⟩
    rw [hq]
    exact hlive

theorem RunInv.event : RunInv P s' (if s'.sched.current = s.sched.current then last
      else Function.update last s.sched.current ((P.place s.sched.current).live s)) := by
  rcases h.event_cases he hrun with rfl | ⟨q, hn, hne, hsched, hpre, hwait, hcr3, -⟩
  · rw [if_pos rfl]
    exact h
  · have hcur : s'.sched.current = q := by rw [hsched]; rfl
    have htable : s'.sched.table = s.sched.table := by rw [hsched]; exact Sched.suspendCurrent_table
    have hq := (Sched.nextSleeping_some hn).1
    rw [if_neg (hcur ▸ hne)]
    refine ⟨by rw [hsched]; exact h.sched.resume hq, by rw [hcur]; exact hwait.ready, by rw [hcur]; exact hcr3, ?_⟩
    intro x hx hxq
    rw [htable] at hx
    by_cases hxp : x = s.sched.current
    · subst hxp
      rw [Function.update_self]
      exact hpre.waiting
    · rw [Function.update_of_ne hxp]
      exact (hpre.others _ (P.apart _ x (Ne.symm hxp))).waiting (h.waiting x hx hxp)

end

theorem Run.runInv (h : Run P s last) : RunInv P s last := by
  induction h with
  | init hs hr hc hw => exact ⟨hs, hr, hc, hw⟩
  | run _ hs hc hu hr ht ih =>
    refine ⟨hs ▸ ih.sched, by rw [hs]; exact hr, by rw [hs, hc, ht]; exact ih.cr3, fun x hx hne => ?_⟩
    rw [hs] at hx hne
    exact (hu x hx hne).waiting (ih.waiting x hx hne)
  | @op s last op r t last' _ heff hcur hlast hnew ih =>
    refine ⟨ih.sched.effect heff, by rw [hcur]; exact ih.ready, by rw [hcur]; exact ih.cr3, fun x hx hne => ?_⟩
    by_cases hold : x ∈ s.sched.table
    · rw [hlast x hold]
      exact ih.waiting x hold (hcur ▸ hne)
    · exact hnew x hx hold
  | event _ he hrun ih => exact ih.event he hrun

/-- In every run the processor is on the table of the current process, and every event either leaves the current process
its registers or resumes another one with those of its last preemption. -/
theorem run_restores (h : Run P s last) : s.cr3 = (P.place s.sched.current).table s.world.mem ∧
    ∀ e s', e.Timely P.timeSliceCount → (interrupt P.config e).run s = .ok () s' → Restored P last s s' :=
  ⟨h.runInv.cr3, fun _ _ he hrun => h.runInv.restored he hrun⟩

end

/-- The root process, and the persistent process `onePage`. -/
def rootAndOnePage : Processes Bool where
  place x := if x then .persistent onePage else .ephemeral 0x1000 0x9000#64
  mask := lowMask 36
  timeSliceCount := 0x1000#64
  mask_eq x L h := by
    cases x
    · cases h
    · cases h
      rfl
  apart := by
    have hroot : ∀ a, (Place.ephemeral 0x1000 0x9000#64).Holds a → onePageOwner (pageOf a) = none := by
      rintro a ⟨h1, h2⟩
      have hpage : pageOf a = 0x1000 := by
        unfold pageOf
        unfold ExecutionContext.size at h2
        omega
      rw [hpage]
      rfl
    have hap : (Place.ephemeral 0x1000 0x9000#64).Apart (.persistent onePage) := by
      refine ⟨fun a ha hb => ?_, fun a ha => ?_, fun a _ => rfl⟩
      · obtain ⟨o, ho, -⟩ := hb
        cases (hroot a ha).symm.trans ho
      · show (match onePageOwner (pageOf a) with | some (.table l) => some l | _ => none) = none
        rw [hroot a ha]
    rintro (_ | _) (_ | _) hne
    · exact absurd rfl hne
    · exact hap
    · exact ⟨fun a ha hb => hap.words a hb ha, hap.tables', hap.tables⟩
    · exact absurd rfl hne

def rootRunning : Machine Bool Unit where
  sched := ((Sched.twoProcesses.register false).setStatus false .running).register true
  world := ⟨WriteBack.Memory.ofInit onePageInit, ()⟩
  cr3 := 0x9000#64
  fpu _ := 0#64
  greg _ := 1#64
  intCtx _ := 2#64

theorem run_rootRunning :
    Run rootAndOnePage rootRunning fun _ => (Place.persistent onePage).saved (WriteBack.Memory.ofInit onePageInit) := by
  have hsched : Sched.Inv ((Sched.twoProcesses.register false).setStatus false .running) :=
    .construct (show (Sched.construct true false).run Sched.twoProcesses = .ok () _ from rfl)
  refine .init (hsched.register (by decide) rfl) trivial rfl fun x _ hne => ?_
  cases x with
  | false => exact absurd rfl hne
  | true => exact ⟨⟨onePage_fixed, 0, by unfold IdxIs; decide⟩, onePage_fixed.cr3 _, rfl⟩

/-- A timer interrupt gives the processor to the persistent process. -/
theorem outcome_rootRunning :
    ∃ s', Outcome rootAndOnePage.config ⟨true, 1#64, 0⟩ rootRunning s' ∧ s'.sched.current = true := by
  obtain ⟨dst, w, hdst⟩ := exists_of_returned (r := (getExecutionContext (.persistent onePage.info)).run
    { rootRunning.world with
      mem := saveMem rootRunning.world.mem 0x1000 rootRunning.cr3 rootRunning.greg rootRunning.intCtx })
      (by decide +kernel)
  obtain rfl := getExecutionContext_ok hdst
  have hlate : ¬ 0#64 - 1#64 < rootAndOnePage.timeSliceCount := by decide
  exact ⟨_, .switched (q := true) rfl hlate rfl rfl rfl hdst, rfl⟩

theorem run_restores_onePage : ∃ s', (interrupt rootAndOnePage.config ⟨true, 1#64, 0⟩).run rootRunning = .ok () s' ∧
    s'.sched.current = true ∧
    Restored rootAndOnePage (fun _ => (Place.persistent onePage).saved (WriteBack.Memory.ofInit onePageInit))
      rootRunning s' := by
  obtain ⟨s', hout, hcur⟩ := outcome_rootRunning
  have hrun := hout.run run_rootRunning.runInv.sched
  exact ⟨s', hrun, hcur, (run_restores run_rootRunning).2 _ _ ⟨by decide, by decide⟩ hrun⟩

end Liumos.Switching
