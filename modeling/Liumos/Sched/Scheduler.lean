/-
The scheduler: a table of at most 256 processes, one of them current. Processes are known by pointers, of
a type `α`; the table holds the used slots of `process_`.
Sources: scheduler.h, scheduler.cc, process.h, process.cc (`Kill`), process_lock.cc. The flag
`liumos->is_multi_task_enabled` is the parameter `multi`; the texts printed to the console are left out.
-/
import Liumos.Machine.Basic

namespace Liumos.Sched

/-- `Process::Status`. -/
inductive Status where
  | notInitialized
  | notScheduled
  | sleeping
  | running
  | stopping
  | stopped
  deriving DecidableEq, Repr

/-- The fields of `Process` that the scheduler works with. -/
structure Process where
  id : Word
  status : Status
  schedulerIndex : Nat
  deriving DecidableEq, Repr

/-- The scheduler, its lock, and the processes it points to. -/
structure Scheduler (α : Type) where
  procs : α → Process
  table : List α
  current : α
  lockedByPid : Word

def kNumberOfProcess : Nat := 256

/-- The lock held by `pid`, or free. -/
def Scheduler.withLock {α : Type} (s : Scheduler α) (pid : Word) : Scheduler α := { s with lockedByPid := pid }

section

variable {α : Type} [DecidableEq α]

/-! ## The lock -/

/-- `lock_.Lock()` in a run of whole calls, in which the lock is free. While it is held, the source sleeps between its
attempts, so that other processes run before it panics: `Sched.Lock` has that, statement by statement. -/
def lock (multi : Bool) : KM (Scheduler α) Unit := do
  if !multi then pure ()
  else
    let s ← get
    if s.lockedByPid = 0#64 then set (s.withLock (s.procs s.current).id)
    else throw (.message "ProcessLock::Lock() taking too long (deadlock?)")

def unlock (multi : Bool) : KM (Scheduler α) Unit := if !multi then pure () else modify fun s => s.withLock 0#64

/-! ## Processes -/

def Scheduler.setStatus (s : Scheduler α) (p : α) (status : Status) : Scheduler α :=
  { s with procs := Function.update s.procs p { s.procs p with status := status } }

def Scheduler.setSchedulerIndex (s : Scheduler α) (p : α) (i : Nat) : Scheduler α :=
  { s with procs := Function.update s.procs p { s.procs p with schedulerIndex := i } }

/-- `proc.Kill()`. -/
def Scheduler.killProcess (s : Scheduler α) (p : α) : Scheduler α :=
  match (s.procs p).status with
  | .notInitialized => s
  | .notScheduled => s
  | .sleeping => s.setStatus p .stopped
  | .running => s.setStatus p .stopping
  | .stopping => s
  | .stopped => s

/-! ## The scheduler -/

/-- The loop of `RegisterProcess` and what follows it: the first slot of a stopped process, or a new one. -/
def Scheduler.register (s : Scheduler α) (proc : α) : Scheduler α :=
  match s.table.findIdx? (fun q => (s.procs q).status == .stopped) with
  | some i => ({ s with table := s.table.set i proc }.setSchedulerIndex proc i).setStatus proc .sleeping
  | none => ({ s with table := s.table ++ [proc] }.setSchedulerIndex proc s.table.length).setStatus proc .sleeping

def registerProcess (multi : Bool) (proc : α) : KM (Scheduler α) Unit := do
  lock multi
  let s ← get
  assert (decide (s.table.length < kNumberOfProcess)) "number_of_process_ < kNumberOfProcess"
  assert ((s.procs proc).status == .notScheduled) "proc.GetStatus() == Process::Status::kNotScheduled"
  set (s.register proc)
  unlock multi

/-- `Scheduler(root_process)`. -/
def construct (multi : Bool) (rootProcess : α) : KM (Scheduler α) Unit := do
  modify fun s => { s with table := [], current := rootProcess, lockedByPid := 0#64 }
  registerProcess multi rootProcess
  modify fun s => s.setStatus rootProcess .running

/-- The loop of `SwitchProcess`, `n` rounds from round `i` on: the first process that sleeps. -/
def Scheduler.nextSleeping (s : Scheduler α) (baseIndex : Nat) : Nat → Nat → Option α
  | 0, _ => none
  | n + 1, i =>
    match s.table[(baseIndex + i) % s.table.length]? with
    | none => s.nextSleeping baseIndex n (i + 1)
    | some proc => if (s.procs proc).status = .sleeping then some proc else s.nextSleeping baseIndex n (i + 1)

/-- `current_` leaves the processor. -/
def Scheduler.suspendCurrent (s : Scheduler α) : Scheduler α :=
  if (s.procs s.current).status = .running then s.setStatus s.current .sleeping
  else if (s.procs s.current).status = .stopping then s.setStatus s.current .stopped
  else s

/-- The process that `SwitchProcess` returns. -/
def Scheduler.next (s : Scheduler α) : Option α :=
  s.nextSleeping (s.procs s.current).schedulerIndex (s.table.length - 1) 1

/-- `SwitchProcess` makes `proc` current. -/
def Scheduler.resume (s : Scheduler α) (proc : α) : Scheduler α :=
  { s.suspendCurrent.setStatus proc .running with current := proc }

def switchProcess (multi : Bool) : KM (Scheduler α) (Option α) := do
  lock multi
  let s ← get
  match s.next with
  | some proc =>
    set (s.resume proc)
    unlock multi
    return some proc
  | none =>
    unlock multi
    return none

def killCurrentProcess : KM (Scheduler α) Unit := modify fun s => s.killProcess s.current

/-- The loop of `Kill`: the first process with that id. -/
def Scheduler.killPid (s : Scheduler α) (pid : Word) : Scheduler α :=
  match s.table.find? (fun q => (s.procs q).id == pid) with
  | some proc => s.killProcess proc
  | none => s

def kill (multi : Bool) (pid : Word) : KM (Scheduler α) Unit := do
  lock multi
  modify fun s => s.killPid pid
  unlock multi

/-! ## Runs -/

inductive Op (α : Type) where
  | register (proc : α)
  | switchProcess
  | kill (pid : Word)
  | killCurrentProcess

/-- An operation; the result is what `SwitchProcess` returns. -/
def Op.exec (multi : Bool) : Op α → KM (Scheduler α) (Option α)
  | .register proc => do
    registerProcess multi proc
    return none
  | .switchProcess => Sched.switchProcess multi
  | .kill pid => do
    Sched.kill multi pid
    return none
  | .killCurrentProcess => do
    Sched.killCurrentProcess
    return none

/-- `s'` is reached from `s` by operations that return. -/
inductive Steps (s : Scheduler α) : Scheduler α → Prop
  | refl : Steps s s
  | step {s' s'' : Scheduler α} {r : Option α} (multi : Bool) (op : Op α) : Steps s s' →
      (op.exec multi).run s' = .ok r s'' → Steps s s''

/-! ## What one operation does -/

section

variable {s s' : Scheduler α} {p q : α}

@[simp] theorem setStatus_table (st : Status) : (s.setStatus p st).table = s.table := rfl

@[simp] theorem setStatus_schedulerIndex (st : Status) :
    ((s.setStatus p st).procs q).schedulerIndex = (s.procs q).schedulerIndex :=
  field_update Process.schedulerIndex (by rfl) q

theorem setStatus_status (st : Status) :
    ((s.setStatus p st).procs q).status = if q = p then st else (s.procs q).status := by
  unfold Scheduler.setStatus
  by_cases h : q = p
  · subst h; simp
  · simp [h]

/-- The status of a process that is killed. -/
def Status.killed : Status → Status
  | .sleeping => .stopped
  | .running => .stopping
  | st => st

/-- The status of a process that leaves the processor. -/
def Status.suspended : Status → Status
  | .running => .sleeping
  | .stopping => .stopped
  | st => st

theorem setStatus_self : s.setStatus p (s.procs p).status = s := by
  simp [Scheduler.setStatus]

theorem killProcess_eq : s.killProcess p = s.setStatus p (s.procs p).status.killed := by
  have hself := setStatus_self (s := s) (p := p)
  unfold Scheduler.killProcess
  cases hst : (s.procs p).status <;> rw [hst] at hself <;> first | rfl | exact hself.symm

theorem suspendCurrent_eq : s.suspendCurrent = s.setStatus s.current (s.procs s.current).status.suspended := by
  have hself := setStatus_self (s := s) (p := s.current)
  unfold Scheduler.suspendCurrent
  cases hst : (s.procs s.current).status <;> rw [hst] at hself <;> first | rfl | exact hself.symm

section

variable (x : Word)

include x

section

omit [DecidableEq α]

@[simp] theorem withLock_procs : (s.withLock x).procs = s.procs := rfl
@[simp] theorem withLock_table : (s.withLock x).table = s.table := rfl
@[simp] theorem withLock_current : (s.withLock x).current = s.current := rfl

end

theorem withLock_register : (s.withLock x).register p = (s.register p).withLock x := by
  unfold Scheduler.register
  simp only [withLock_procs, withLock_table]
  cases s.table.findIdx? (fun q => (s.procs q).status == .stopped) <;> rfl

omit [DecidableEq α] in
theorem withLock_nextSleeping (b n i : Nat) : (s.withLock x).nextSleeping b n i = s.nextSleeping b n i := by
  induction n generalizing i with
  | zero => rfl
  | succ n ih => simp only [Scheduler.nextSleeping, ih, withLock_procs, withLock_table]

theorem withLock_suspendCurrent : (s.withLock x).suspendCurrent = s.suspendCurrent.withLock x := by
  rw [suspendCurrent_eq, suspendCurrent_eq]
  rfl

theorem withLock_resume : (s.withLock x).resume p = (s.resume p).withLock x := by
  rw [Scheduler.resume, withLock_suspendCurrent]
  rfl

theorem withLock_killProcess : (s.withLock x).killProcess p = (s.killProcess p).withLock x := by
  rw [killProcess_eq, killProcess_eq]
  rfl

end

theorem withLock_killPid (x pid : Word) : (s.withLock x).killPid pid = (s.killPid pid).withLock x := by
  unfold Scheduler.killPid
  simp only [withLock_procs, withLock_table]
  cases s.table.find? (fun q => (s.procs q).id == pid)
  · rfl
  · exact withLock_killProcess x

/-- What one operation does, apart from the lock, which it leaves free. -/
inductive Effect (s : Scheduler α) : Op α → Option α → Scheduler α → Prop
  | register {proc : α} : s.table.length < kNumberOfProcess → (s.procs proc).status = .notScheduled →
      Effect s (.register proc) none (s.register proc)
  | switched {proc : α} : s.next = some proc → Effect s .switchProcess (some proc) (s.resume proc)
  | stayed : s.next = none → Effect s .switchProcess none s
  | kill (pid : Word) : Effect s (.kill pid) none (s.killPid pid)
  | killCurrent : Effect s .killCurrentProcess none (s.killProcess s.current)

omit [DecidableEq α] in
/-- With the lock free, an operation takes it and gives it back. -/
theorem run_lock (multi : Bool) (h : s.lockedByPid = 0#64) : ∃ x, (lock multi).run s = .ok () (s.withLock x) ∧
    ∀ s1 : Scheduler α, s1.lockedByPid = 0#64 → (unlock multi).run (s1.withLock x) = .ok () s1 := by
  cases multi with
  | false =>
    refine ⟨0#64, ?_, fun s1 h1 => ?_⟩
    · rw [← h]; rfl
    · rw [← h1]; rfl
  | true =>
    refine ⟨(s.procs s.current).id, ?_, fun s1 h1 => ?_⟩
    · show (if s.lockedByPid = 0#64 then _ else _ : KM (Scheduler α) Unit).run s = _
      rw [if_pos h]; rfl
    · show EStateM.Result.ok () (s1.withLock 0#64) = _
      rw [← h1]; rfl

theorem register_lockedByPid : (s.register p).lockedByPid = s.lockedByPid := by
  unfold Scheduler.register
  cases s.table.findIdx? (fun q => (s.procs q).status == .stopped) <;> rfl

theorem suspendCurrent_lockedByPid : s.suspendCurrent.lockedByPid = s.lockedByPid := by
  rw [suspendCurrent_eq]
  rfl

theorem killProcess_lockedByPid : (s.killProcess p).lockedByPid = s.lockedByPid := by
  rw [killProcess_eq]
  rfl

theorem killPid_lockedByPid (pid : Word) : (s.killPid pid).lockedByPid = s.lockedByPid := by
  unfold Scheduler.killPid
  cases s.table.find? (fun q => (s.procs q).id == pid)
  · rfl
  · exact killProcess_lockedByPid

section

variable (multi : Bool) (h : s.lockedByPid = 0#64)

include h in
theorem run_registerProcess (hlen : s.table.length < kNumberOfProcess) (hst : (s.procs p).status = .notScheduled) :
    (registerProcess multi p).run s = .ok () (s.register p) := by
  obtain ⟨x, hlock, hunlock⟩ := run_lock multi h
  rw [registerProcess, run_bind_eq hlock]
  refine (run_bind_eq (run_assert_true (decide_eq_true hlen) _ _)).trans ?_
  refine (run_bind_eq (run_assert_true (beq_iff_eq.2 hst) _ _)).trans ?_
  show (unlock multi).run ((s.withLock x).register p) = _
  rw [withLock_register, hunlock _ (register_lockedByPid.trans h)]

include h in
/-- What `RegisterProcess` asserts. -/
theorem asserts_of_registerProcess {u : Unit} (hrun : (registerProcess multi p).run s = .ok u s') :
    s.table.length < kNumberOfProcess ∧ (s.procs p).status = .notScheduled := by
  obtain ⟨x, hlock, -⟩ := run_lock multi h
  rw [registerProcess, run_bind_eq hlock] at hrun
  obtain ⟨hlen, hrun⟩ := of_run_assert_bind (show (assert _ _ >>= _).run (s.withLock x) = _ from hrun)
  obtain ⟨hst, -⟩ := of_run_assert_bind hrun
  exact ⟨of_decide_eq_true hlen, eq_of_beq hst⟩

include h in
theorem run_switchProcess : (switchProcess multi).run s = .ok s.next (s.next.elim s s.resume) := by
  obtain ⟨x, hlock, hunlock⟩ := run_lock multi h
  rw [switchProcess, run_bind_eq hlock]
  show (match (s.withLock x).next with
    | some proc => do
      set ((s.withLock x).resume proc)
      unlock multi
      return some proc
    | none => do
      unlock multi
      return none : KM (Scheduler α) (Option α)).run (s.withLock x) = _
  rw [show (s.withLock x).next = s.next from withLock_nextSleeping x _ _ _]
  cases s.next with
  | some proc =>
    show (unlock multi >>= fun _ => pure (some proc)).run ((s.withLock x).resume proc) = _
    rw [withLock_resume]
    exact run_bind_eq (hunlock (s.resume proc) (suspendCurrent_lockedByPid.trans h))
  | none => exact run_bind_eq (hunlock s h)

include h in
theorem run_kill (pid : Word) : (kill multi pid).run s = .ok () (s.killPid pid) := by
  obtain ⟨x, hlock, hunlock⟩ := run_lock multi h
  rw [kill, run_bind_eq hlock]
  show (unlock multi).run ((s.withLock x).killPid pid) = _
  rw [withLock_killPid, hunlock _ ((killPid_lockedByPid pid).trans h)]

include h in
/-- From a scheduler whose lock is free, an operation returns exactly with its effect: the lock is never in
the way. -/
theorem exec_iff {op : Op α} {r : Option α} : (op.exec multi).run s = .ok r s' ↔ Effect s op r s' := by
  constructor
  · intro hrun
    cases op with
    | register proc =>
      obtain ⟨_, _, hreg, hret⟩ := run_bind_ok hrun
      obtain ⟨hlen, hst⟩ := asserts_of_registerProcess multi h hreg
      rw [run_registerProcess multi h hlen hst] at hreg
      cases hreg
      cases hret
      exact .register hlen hst
    | switchProcess =>
      rw [Op.exec, run_switchProcess multi h] at hrun
      cases hn : s.next with
      | some proc => rw [hn] at hrun; cases hrun; exact .switched hn
      | none => rw [hn] at hrun; cases hrun; exact .stayed hn
    | kill pid =>
      rw [Op.exec, run_bind_eq (run_kill multi h pid)] at hrun
      cases hrun
      exact .kill pid
    | killCurrentProcess =>
      cases hrun
      exact .killCurrent
  · rintro (⟨hlen, hst⟩ | hn | hn | _ | _)
    · exact run_bind_eq (run_registerProcess multi h hlen hst)
    · rw [Op.exec, run_switchProcess multi h, hn]; rfl
    · rw [Op.exec, run_switchProcess multi h, hn]; rfl
    · exact run_bind_eq (run_kill multi h _)
    · rfl

end

end

end

end Liumos.Sched
