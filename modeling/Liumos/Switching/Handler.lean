/-
The interrupts that switch processes. The entry code saves the registers in an `InterruptInfo`, `SleepHandler`
asks the scheduler for another process and exchanges what is in that frame, and the exit code loads the registers
from it. Sources: kernel.cc (`SwitchContext`, `SleepHandler`, `TimerHandler`), process.h (`GetExecutionContext`),
process.cc (`NotifyContextSaving`), inthandler.S, sleep_handler.S, asm.h.

The frame is apart from memory. Of what is done for statistics nothing is kept; so `HPET` is read once, and
`proc_last_time_count` is always 0, as nothing writes it.
-/
import Liumos.Process.Checkpoint
import Liumos.Sched.Invariant

namespace Liumos.Switching

open Process ExecutionContext

/-! ## The processor -/

/-- `InterruptInfo` at `addr`, without the error code. -/
structure InterruptInfo where
  addr : Nat
  fpuContext : Fin 64 → Word
  greg : Fin 15 → Word
  intCtx : Fin 5 → Word

/-- The scheduler, memory and the registers of the processor. -/
structure Machine (α σ : Type) where
  sched : Sched.Scheduler α
  world : World σ
  cr3 : Word
  fpu : Fin 64 → Word
  greg : Fin 15 → Word
  intCtx : Fin 5 → Word

/-- `ctx_` or `pp_info_` of a `Process`, of which one is null. -/
inductive Kind where
  | ephemeral (ctx : Nat)
  | persistent (ppInfo : Nat)

section

variable {α σ β : Type}

def onWorld (x : WM σ β) : KM (Machine α σ) β := fun s =>
  match x.run s.world with
  | .ok a w => .ok a { s with world := w }
  | .error e w => .error e { s with world := w }

def onSched (x : KM (Sched.Scheduler α) β) : KM (Machine α σ) β := fun s =>
  match x.run s.sched with
  | .ok a t => .ok a { s with sched := t }
  | .error e t => .error e { s with sched := t }

variable {x : WM σ β} {s : Machine α σ} {a : β}

theorem run_onWorld {w : World σ} (h : x.run s.world = .ok a w) : (onWorld x).run s = .ok a { s with world := w } := by
  show (match x.run s.world with | .ok a w => _ | .error e w => _ : EStateM.Result Panic (Machine α σ) β) = _
  rw [h]

theorem of_run_onWorld {s' : Machine α σ} (h : (onWorld x).run s = .ok a s') :
    ∃ w, x.run s.world = .ok a w ∧ s' = { s with world := w } := by
  change (match x.run s.world with | .ok a w => _ | .error e w => _ : EStateM.Result Panic (Machine α σ) β) = _ at h
  cases hx : x.run s.world with
  | ok b w =>
    rw [hx] at h
    cases h
    exact ⟨w, rfl, rfl⟩
  | error e w =>
    rw [hx] at h
    cases h

theorem run_onSched {x : KM (Sched.Scheduler α) β} {t : Sched.Scheduler α}
    (h : x.run s.sched = .ok a t) : (onSched x).run s = .ok a { s with sched := t } := by
  show (match x.run s.sched with | .ok a t => _ | .error e t => _ : EStateM.Result Panic (Machine α σ) β) = _
  rw [h]

/-! ## Contexts -/

def storeFin (a : Nat) {n : Nat} (f : Fin n → Word) : WM σ Unit :=
  modify fun w => { w with mem := storeWords w.mem a (fun i => if h : i < n then f ⟨i, h⟩ else 0#64) n }

def loadFin (a n : Nat) : WM σ (Fin n → Word) := do
  let w ← get
  return fun i => w.mem.load (a + 8 * i)

/-- `from.cr3 = ReadCR3()`, `from.greg = int_info.greg` and `from.int_ctx = int_info.int_ctx`. -/
def saveRegisters (ctx : Nat) (cr3 : Word) (greg : Fin 15 → Word) (intCtx : Fin 5 → Word) : WM σ Unit := do
  store (cr3Addr ctx) cr3
  storeFin (gregAddr ctx) greg
  storeFin (intCtxAddr ctx) intCtx

/-- Memory once the registers are saved in the context at `ctx`. -/
@[irreducible] def saveMem (m : Mem) (ctx : Nat) (cr3 : Word) (greg : Fin 15 → Word) (intCtx : Fin 5 → Word) : Mem :=
  storeWords (storeWords (m.store (cr3Addr ctx) cr3) (gregAddr ctx)
    (fun i => if h : i < 15 then greg ⟨i, h⟩ else 0#64) 15) (intCtxAddr ctx)
    (fun i => if h : i < 5 then intCtx ⟨i, h⟩ else 0#64) 5

theorem run_saveRegisters (w : World σ) (ctx : Nat) (cr3 : Word) (greg : Fin 15 → Word) (intCtx : Fin 5 → Word) :
    (saveRegisters ctx cr3 greg intCtx).run w = .ok () { w with mem := saveMem w.mem ctx cr3 greg intCtx } := by
  unfold saveMem
  rfl

def getExecutionContext : Kind → WM σ Nat
  | .ephemeral ctx => return ctx
  | .persistent ppInfo => PersistentProcessInfo.getWorkingContext ppInfo

def notifyContextSaving (mask : Word) : Kind → WM σ Unit
  | .ephemeral _ => return ()
  | .persistent ppInfo => PersistentProcessInfo.switchContext mask ppInfo

end

/-! ## The handlers -/

/-- What the kernel knows of its processes and of the machine. -/
structure Config (α : Type) where
  kind : α → Kind
  mask : Word
  timeSliceCount : Word

/-- A call of the handler: whether `is_multi_task_enabled`, what `HPET` reads, and where the frame is. -/
structure Event where
  multi : Bool
  nowCount : Word
  frame : Nat

section

variable {α σ : Type} [DecidableEq α] (cfg : Config α)

omit [DecidableEq α] in
def switchContext (e : Event) (intInfo : InterruptInfo) (fromProc toProc : α) : KM (Machine α σ) InterruptInfo := do
  if 0#64 - e.nowCount < cfg.timeSliceCount then return intInfo
  else
    let src ← onWorld (getExecutionContext (cfg.kind fromProc))
    if intInfo.addr % 16 ≠ 0 then throw (.message "Not 16-byte aligned\n")
    else
      let s ← get
      onWorld (saveRegisters src s.cr3 intInfo.greg intInfo.intCtx)
      onWorld (notifyContextSaving cfg.mask (cfg.kind fromProc))
      let dst ← onWorld (getExecutionContext (cfg.kind toProc))
      let greg ← onWorld (loadFin (gregAddr dst) 15)
      let intCtx ← onWorld (loadFin (intCtxAddr dst) 5)
      let fromCr3 ← onWorld (load (cr3Addr src))
      let toCr3 ← onWorld (load (cr3Addr dst))
      if fromCr3 = toCr3 then return { intInfo with greg := greg, intCtx := intCtx }
      else
        modify fun s => { s with cr3 := toCr3 }
        return { intInfo with greg := greg, intCtx := intCtx }

/-- `SleepHandler`, which `TimerHandler` calls too. -/
def sleepHandler (e : Event) (info : InterruptInfo) : KM (Machine α σ) InterruptInfo := do
  let proc := (← get).sched.current
  match ← onSched (Sched.switchProcess e.multi) with
  | none => return info  -- no need to switching context.
  | some nextProc => switchContext cfg e info proc nextProc

/-- An interrupt or a call of `Sleep`, from the entry code to `RestoreRegistersAndIRETQ`. -/
def interrupt (e : Event) : KM (Machine α σ) Unit := do
  let s ← get
  let info ← sleepHandler cfg e ⟨e.frame, s.fpu, s.greg, s.intCtx⟩
  modify fun s => { s with fpu := info.fpuContext, greg := info.greg, intCtx := info.intCtx }

/-! ## What a call does -/

/-- How a call that returns ends: the scheduler stays with its process; or it goes to another one, and the time slice
keeps the registers; or the registers are exchanged. -/
inductive Outcome (e : Event) (s : Machine α σ) : Machine α σ → Prop
  | stayed : s.sched.next = none → Outcome e s s
  | early {q : α} : s.sched.next = some q → 0#64 - e.nowCount < cfg.timeSliceCount →
      Outcome e s { s with sched := s.sched.resume q }
  | switched {q : α} {src dst : Nat} {w : World σ} : s.sched.next = some q → ¬ 0#64 - e.nowCount < cfg.timeSliceCount →
      e.frame % 16 = 0 → (getExecutionContext (cfg.kind s.sched.current)).run s.world = .ok src s.world →
      (notifyContextSaving cfg.mask (cfg.kind s.sched.current)).run
        { s.world with mem := saveMem s.world.mem src s.cr3 s.greg s.intCtx } = .ok () w →
      (getExecutionContext (cfg.kind q)).run w = .ok dst w →
      Outcome e s { s with
        sched := s.sched.resume q
        world := w
        cr3 := if w.mem.load src = w.mem.load dst then s.cr3 else w.mem.load dst
        greg := fun i => w.mem.load (gregAddr dst + 8 * i)
        intCtx := fun i => w.mem.load (intCtxAddr dst + 8 * i) }

omit [DecidableEq α] in
theorem getExecutionContext_ok {k : Kind} {w w' : World σ} {a : Nat}
    (h : (getExecutionContext k).run w = .ok a w') : w' = w := by
  cases k with
  | ephemeral ctx =>
    cases h
    rfl
  | persistent ppInfo =>
    unfold getExecutionContext PersistentProcessInfo.getWorkingContext PersistentProcessInfo.validCtxIdx
      PersistentProcessInfo.assertIdx at h
    obtain ⟨_, _, hidx, h⟩ := run_bind_ok h
    cases hidx
    obtain ⟨-, h⟩ := of_run_assert_bind h
    exact (run_pure_ok h).2.symm

variable {cfg}

omit [DecidableEq α] in
/-- A call of `SwitchContext` past the time slice. -/
theorem switchContext_ok {e : Event} {info info' : InterruptInfo} {p q : α} {s s' : Machine α σ}
    (h : (switchContext cfg e info p q).run s = .ok info' s') (hearly : ¬ 0#64 - e.nowCount < cfg.timeSliceCount) :
    info.addr % 16 = 0 ∧ ∃ src dst w, (getExecutionContext (cfg.kind p)).run s.world = .ok src s.world ∧
      (notifyContextSaving cfg.mask (cfg.kind p)).run
        { s.world with mem := saveMem s.world.mem src s.cr3 info.greg info.intCtx } = .ok () w ∧
      (getExecutionContext (cfg.kind q)).run w = .ok dst w ∧
      s' = { s with world := w, cr3 := if w.mem.load src = w.mem.load dst then s.cr3 else w.mem.load dst } ∧
      info' = { info with
        greg := fun i => w.mem.load (gregAddr dst + 8 * i)
        intCtx := fun i => w.mem.load (intCtxAddr dst + 8 * i) } := by
  rw [switchContext, if_neg hearly] at h
  obtain ⟨src, _, hsrc, h⟩ := run_bind_ok h
  obtain ⟨_, hsrc', rfl⟩ := of_run_onWorld hsrc
  obtain rfl := getExecutionContext_ok hsrc'
  split_ifs at h with halign
  · cases h
  · refine ⟨not_not.1 halign, ?_⟩
    obtain ⟨_, _, hget, h⟩ := run_bind_ok h
    cases hget
    rw [run_bind_eq (run_onWorld (run_saveRegisters ..))] at h
    obtain ⟨_, _, hnotify, h⟩ := run_bind_ok h
    obtain ⟨_, hnotify', rfl⟩ := of_run_onWorld hnotify
    obtain ⟨dst, _, hdst, h⟩ := run_bind_ok h
    obtain ⟨w2, hdst', rfl⟩ := of_run_onWorld hdst
    obtain rfl := getExecutionContext_ok hdst'
    refine ⟨src, dst, w2, hsrc', hnotify', hdst', ?_⟩
    -- the loads
    obtain ⟨_, _, hload, h⟩ := run_bind_ok h
    cases hload
    obtain ⟨_, _, hload, h⟩ := run_bind_ok h
    cases hload
    obtain ⟨_, _, hload, h⟩ := run_bind_ok h
    cases hload
    obtain ⟨_, _, hload, h⟩ := run_bind_ok h
    cases hload
    split_ifs at h with hcr3
    · cases h
      exact ⟨congrArg (fun c => { s with world := w2, cr3 := c }) (if_pos hcr3).symm, rfl⟩
    · cases h
      exact ⟨congrArg (fun c => { s with world := w2, cr3 := c }) (if_neg hcr3).symm, rfl⟩

variable {e : Event} {s s' : Machine α σ}

theorem interrupt_ok {u : Unit} (hs : Sched.Inv s.sched) (h : (interrupt cfg e).run s = .ok u s') :
    Outcome cfg e s s' := by
  unfold interrupt at h
  obtain ⟨s0, _, hget, h⟩ := run_bind_ok h
  cases hget
  obtain ⟨_, _, hsleep, h⟩ := run_bind_ok h
  cases h
  unfold sleepHandler at hsleep
  obtain ⟨_, _, hget, hsleep⟩ := run_bind_ok hsleep
  cases hget
  rw [run_bind_eq (run_onSched (Sched.run_switchProcess e.multi hs.unlocked))] at hsleep
  cases hn : s.sched.next with
  | none =>
    rw [hn] at hsleep
    cases hsleep
    exact .stayed hn
  | some q =>
    rw [hn] at hsleep
    change (switchContext cfg e _ _ q).run _ = _ at hsleep
    by_cases hearly : 0#64 - e.nowCount < cfg.timeSliceCount
    · rw [switchContext, if_pos hearly] at hsleep
      cases hsleep
      exact .early hn hearly
    · obtain ⟨halign, _, _, _, hsrc, hnotify, hdst, rfl, rfl⟩ := switchContext_ok hsleep hearly
      exact .switched hn hearly halign hsrc hnotify hdst

omit [DecidableEq α] in
theorem run_switchContext {e : Event} {info : InterruptInfo} {p q : α} {s : Machine α σ} {src dst : Nat} {w : World σ}
    (hearly : ¬ 0#64 - e.nowCount < cfg.timeSliceCount) (halign : info.addr % 16 = 0)
    (hsrc : (getExecutionContext (cfg.kind p)).run s.world = .ok src s.world)
    (hnotify : (notifyContextSaving cfg.mask (cfg.kind p)).run
      { s.world with mem := saveMem s.world.mem src s.cr3 info.greg info.intCtx } = .ok () w)
    (hdst : (getExecutionContext (cfg.kind q)).run w = .ok dst w) :
    (switchContext cfg e info p q).run s = .ok
      { info with
        greg := fun i => w.mem.load (gregAddr dst + 8 * i)
        intCtx := fun i => w.mem.load (intCtxAddr dst + 8 * i) }
      { s with world := w, cr3 := if w.mem.load src = w.mem.load dst then s.cr3 else w.mem.load dst } := by
  rw [switchContext, if_neg hearly, run_bind_eq (run_onWorld hsrc), if_neg (not_not.2 halign)]
  refine (run_bind_eq rfl).trans ((run_bind_eq (run_onWorld (run_saveRegisters ..))).trans ?_)
  refine (run_bind_eq (run_onWorld
    (s := { s with world := { s.world with mem := saveMem s.world.mem src s.cr3 info.greg info.intCtx } })
    hnotify)).trans ?_
  refine (run_bind_eq (run_onWorld hdst)).trans ?_
  show (if w.mem.load src = w.mem.load dst then _ else _ : KM (Machine α σ) InterruptInfo).run { s with world := w } = _
  by_cases hcr3 : w.mem.load src = w.mem.load dst
  · simp only [if_pos hcr3]
    rfl
  · simp only [if_neg hcr3]
    rfl

theorem run_interrupt {info : InterruptInfo}
    (h : (sleepHandler cfg e ⟨e.frame, s.fpu, s.greg, s.intCtx⟩).run s = .ok info s') :
    (interrupt cfg e).run s = .ok () { s' with fpu := info.fpuContext, greg := info.greg, intCtx := info.intCtx } :=
  run_bind_eq h

/-- And every such end is that of a call. -/
theorem Outcome.run {e : Event} {s s' : Machine α σ} (hs : Sched.Inv s.sched) (h : Outcome cfg e s s') :
    (interrupt cfg e).run s = .ok () s' := by
  have hsched : (onSched (Sched.switchProcess e.multi)).run s =
      .ok s.sched.next { s with sched := s.sched.next.elim s.sched s.sched.resume } :=
    run_onSched (Sched.run_switchProcess e.multi hs.unlocked)
  have hsleep : ∀ info, (sleepHandler cfg e info).run s = (match s.sched.next with
      | none => pure info
      | some nextProc => switchContext cfg e info s.sched.current nextProc).run
        { s with sched := s.sched.next.elim s.sched s.sched.resume } := by
    intro info
    exact run_bind_eq hsched
  cases h with
  | stayed hn =>
    rw [hn] at hsleep
    exact run_interrupt (hsleep _)
  | early hn hearly =>
    rw [hn] at hsleep
    have hswitch : ∀ info p q t, (switchContext cfg e info p q).run t = .ok info (t : Machine α σ) := by
      intro info p q t
      rw [switchContext, if_pos hearly]
      rfl
    exact run_interrupt ((hsleep _).trans (hswitch _ _ _ _))
  | switched hn hearly halign hsrc hnotify hdst =>
    rw [hn] at hsleep
    exact run_interrupt ((hsleep ⟨e.frame, s.fpu, s.greg, s.intCtx⟩).trans
      (run_switchContext hearly halign hsrc hnotify hdst))

end

end Liumos.Switching
