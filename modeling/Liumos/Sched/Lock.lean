/-
The lock of the scheduler, statement by statement. `RegisterProcess` and `Kill` run with interrupts enabled, and a
timer interrupt can come between any two of their statements: it runs `SwitchProcess`, which takes the same lock, on
behalf of the same process. With multitasking enabled.
Sources: scheduler.cc, process_lock.cc, sleep_handler.S (`CompareAndExchange64`, `Sleep`), interrupt.cc (interrupt
gates), kernel.cc (`SleepHandler`, `TimerHandler`).
-/
import Liumos.Sched.Invariant

namespace Liumos.Sched

open List Function Option

/-! ## Statements -/

/-- What is left of a call: it ends, it asks for the lock so many times, it frees the lock, it looks at the scheduler,
changes it and goes on, or it panics. -/
inductive Code (α : Type) where
  | done
  | lock (attempts : Nat) (next : Code α)
  | unlock (next : Code α)
  | step (f : Scheduler α → Scheduler α) (next : Scheduler α → Code α)
  | panic (p : Panic)

/-- Three calls of `CompareAndExchange64`, each with 255 attempts. -/
def kLockAttempts : Nat := 3 * 0xFF

section

variable {α : Type} [DecidableEq α]

/-- The loop of `RegisterProcess` from slot `i` on. The array has room for `n` slots more. -/
def registerLoop (proc : α) : Nat → Nat → Code α
  | 0, _ => .panic .diverges
  | n + 1, i => .step id fun s =>
    match s.table[i]? with
    | none =>
      .step (fun s => s.setSchedulerIndex proc s.table.length) fun _ =>
      .step (fun s => { s with table := s.table ++ [proc] }) fun _ =>
      .step (fun s => s.setStatus proc .sleeping) fun _ =>
      .unlock .done
    | some q =>
      if (s.procs q).status ≠ .stopped then registerLoop proc n (i + 1)
      else
        .step (fun s => { s with table := s.table.set i proc }) fun _ =>
        .step (fun s => s.setSchedulerIndex proc i) fun _ =>
        .step (fun s => s.setStatus proc .sleeping) fun _ =>
        .unlock .done

def registerCode (proc : α) : Code α :=
  .lock kLockAttempts <|
  .step id fun s =>
  if s.table.length < kNumberOfProcess then
    .step id fun s =>
    if (s.procs proc).status = .notScheduled then registerLoop proc (kNumberOfProcess + 1) 0
    else .panic (.assertFailed "proc.GetStatus() == Process::Status::kNotScheduled")
  else .panic (.assertFailed "number_of_process_ < kNumberOfProcess")

def killLoop (pid : Word) : Nat → Nat → Code α
  | 0, _ => .panic .diverges
  | n + 1, i => .step id fun s =>
    match s.table[i]? with
    | none => .unlock .done
    | some proc =>
      if (s.procs proc).id = pid then .step (fun s => s.killProcess proc) fun _ => .unlock .done
      else killLoop pid n (i + 1)

def killCode (pid : Word) : Code α := .lock kLockAttempts (killLoop pid (kNumberOfProcess + 1) 0)

def switchLoop (baseIndex : Nat) : Nat → Nat → Code α
  | 0, _ => .panic .diverges
  | n + 1, i => .step id fun s =>
    if i < s.table.length then
      match s.table[(baseIndex + i) % s.table.length]? with
      | none => switchLoop baseIndex n (i + 1)
      | some proc =>
        if (s.procs proc).status = .sleeping then
          .step Scheduler.suspendCurrent fun _ =>
          .step (fun s => s.setStatus proc .running) fun _ =>
          .step (fun s => { s with current := proc }) fun _ =>
          .unlock .done
        else switchLoop baseIndex n (i + 1)
    else .unlock .done

def switchCode : Code α :=
  .lock kLockAttempts <|
  .step id fun s => switchLoop (s.procs s.current).schedulerIndex kNumberOfProcess 1

/-! ## With interrupts -/

inductive Call (α : Type) where
  | registerProcess (proc : α)
  | kill (pid : Word)
  | switchProcess
  deriving DecidableEq

def Call.code : Call α → Code α
  | .registerProcess proc => registerCode proc
  | .kill pid => killCode pid
  | .switchProcess => switchCode

/-- A call that is under way, and whether interrupts are enabled in it. -/
structure Activation (α : Type) where
  code : Code α
  intFlag : Bool

/-- The calls that each process is in, the innermost first. The processor runs on the stack of `running`, which is
`current_` but for the end of a `SwitchProcess`. -/
structure Cpu (α : Type) where
  sched : Scheduler α
  running : α
  calls : α → List (Activation α)

/-- `SwitchProcess` is called by `SleepHandler` only, behind an interrupt gate or a `cli`. -/
def Call.activation (c : Call α) (intFlag : Bool) : Activation α :=
  ⟨c.code, match c with
    | .switchProcess => false
    | _ => intFlag⟩

def Cpu.setCalls (t : Cpu α) (calls : List (Activation α)) : Cpu α :=
  { t with calls := Function.update t.calls t.running calls }

/-- What happens next: the process that runs makes a call, a timer interrupt comes, or the call goes on. -/
inductive Label (α : Type) where
  | call (c : Call α) (intFlag : Bool)
  | timer
  | statement
  deriving DecidableEq

/-- The innermost call goes on by one statement. -/
def Cpu.statement (t : Cpu α) (a : Activation α) (rest : List (Activation α)) : Option (Cpu α) :=
  match a.code with
  | .done => some { t.setCalls rest with running := t.sched.current }
  | .lock 0 _ => none
  | .lock (n + 1) next =>
    if t.sched.lockedByPid = 0#64 then
      some { t.setCalls ({ a with code := next } :: rest) with
        sched := t.sched.withLock (t.sched.procs t.sched.current).id }
    else
      -- `CompareAndExchange64` calls `Sleep` before it tries again
      some (t.setCalls (Call.switchProcess.activation false :: { a with code := .lock n next } :: rest))
  | .unlock next => some { t.setCalls ({ a with code := next } :: rest) with sched := t.sched.withLock 0#64 }
  | .step f next => some { t.setCalls ({ a with code := next t.sched } :: rest) with sched := f t.sched }
  | .panic _ => none

def Cpu.step (t : Cpu α) : Label α → Option (Cpu α)
  | .call c intFlag => if t.calls t.running = [] then some (t.setCalls [c.activation intFlag]) else none
  | .timer =>
    if (t.calls t.running).head?.all (·.intFlag) then
      some (t.setCalls (Call.switchProcess.activation false :: t.calls t.running))
    else none
  | .statement =>
    match t.calls t.running with
    | [] => none
    | a :: rest => t.statement a rest

def Cpu.run (t : Cpu α) : List (Label α) → Option (Cpu α)
  | [] => some t
  | l :: ls => (t.step l).bind (·.run ls)

theorem Cpu.run_append {t : Cpu α} : ∀ ls ls', t.run (ls ++ ls') = (t.run ls).bind (·.run ls')
  | [], _ => rfl
  | l :: ls, ls' => by
    show (t.step l).bind _ = ((t.step l).bind _).bind _
    rw [bind_assoc]
    congr
    funext t'
    exact run_append ls ls'

theorem Cpu.run_concat {t t' : Cpu α} {ls : List (Label α)} {l : Label α} :
    t.run (ls ++ [l]) = some t' ↔ ∃ t1, t.run ls = some t1 ∧ t1.step l = some t' := by
  rw [run_append, bind_eq_some_iff]
  refine exists_congr fun t1 => and_congr_right fun _ => ?_
  show (t1.step l).bind some = some t' ↔ _
  rw [bind_fun_some]

/-- The lock is held by `current_`. -/
def Scheduler.Held (s : Scheduler α) : Prop := s.lockedByPid ≠ 0#64 ∧ s.lockedByPid = (s.procs s.current).id

/-- `Lock` is requested while the lock is held by the same process. -/
def Cpu.SelfDeadlock (t : Cpu α) : Prop :=
  t.sched.Held ∧ ∃ a ∈ (t.calls t.running).head?, ∃ n next, a.code = .lock n next

/-- No call is under way, and the lock is free. -/
structure Cpu.Idle (t : Cpu α) : Prop where
  free : t.sched.lockedByPid = 0#64
  calls : ∀ p, t.calls p = []

/-! ## Calls that nothing interrupts -/

/-- The statements from `code` on to `code'`. The lock is free where it is asked for. -/
inductive Code.Leads : Code α → Scheduler α → Code α → Scheduler α → Prop
  | refl {c : Code α} {s : Scheduler α} : Leads c s c s
  | lock {n : Nat} {next c' : Code α} {s s' : Scheduler α} : s.lockedByPid = 0#64 →
      Leads next (s.withLock (s.procs s.current).id) c' s' → Leads (.lock (n + 1) next) s c' s'
  | unlock {next c' : Code α} {s s' : Scheduler α} : Leads next (s.withLock 0#64) c' s' → Leads (.unlock next) s c' s'
  | step {f : Scheduler α → Scheduler α} {next : Scheduler α → Code α} {c' : Code α} {s s' : Scheduler α} :
      Leads (next s) (f s) c' s' → Leads (.step f next) s c' s'

/-- The processor in one call, which is at `code`. -/
def Cpu.inCall (t : Cpu α) (intFlag : Bool) (code : Code α) (s : Scheduler α) : Cpu α :=
  { t.setCalls [⟨code, intFlag⟩] with sched := s }

theorem Cpu.run_inCall {t : Cpu α} {intFlag : Bool} {c c' : Code α} {s s' : Scheduler α}
    (h : (t.inCall intFlag c s).statement ⟨c, intFlag⟩ [] =
      some { (t.inCall intFlag c s).setCalls [⟨c', intFlag⟩] with sched := s' }) (ls : List (Label α)) :
    (t.inCall intFlag c s).run (.statement :: ls) = (t.inCall intFlag c' s').run ls := by
  have hcalls : (t.inCall intFlag c s).calls (t.inCall intFlag c s).running = [⟨c, intFlag⟩] := update_self ..
  have hnext : { (t.inCall intFlag c s).setCalls [⟨c', intFlag⟩] with sched := s' } = t.inCall intFlag c' s' := by
    simp only [Cpu.inCall, Cpu.setCalls, update_idem]
  rw [Cpu.run, Cpu.step, hcalls]
  show (Cpu.statement _ _ _).bind _ = _
  rw [h, hnext]
  rfl

theorem Cpu.run_of_leads {code code' : Code α} {s s' : Scheduler α} (h : code.Leads s code' s') (t : Cpu α)
    (intFlag : Bool) :
    ∃ k, (t.inCall intFlag code s).run (replicate k .statement) = some (t.inCall intFlag code' s') := by
  induction h with
  | refl => exact ⟨0, rfl⟩
  | lock hfree _ ih =>
    obtain ⟨k, hk⟩ := ih
    refine ⟨k + 1, (Cpu.run_inCall ?_ _).trans hk⟩
    exact if_pos hfree
  | unlock _ ih =>
    obtain ⟨k, hk⟩ := ih
    exact ⟨k + 1, (Cpu.run_inCall rfl _).trans hk⟩
  | step _ ih =>
    obtain ⟨k, hk⟩ := ih
    exact ⟨k + 1, (Cpu.run_inCall rfl _).trans hk⟩

section

variable {s : Scheduler α}

/-- From a slot on, behind which no process has stopped. -/
theorem leads_registerLoop (proc : α) : ∀ {n i : Nat}, 0 < n → s.table.length < i + n →
    (∀ q ∈ s.table.take i, (s.procs q).status ≠ .stopped) →
    (registerLoop proc n i).Leads s .done ((s.register proc).withLock 0#64)
  | 0, _, h0, _, _ => absurd h0 (Nat.lt_irrefl 0)
  | n + 1, i, _, hn, hbefore => by
    rw [registerLoop]
    refine .step ?_
    cases hslot : s.table[i]? with
    | none =>
      -- behind the last slot, with no stopped process in the table
      have hlen : s.table.length ≤ i := getElem?_eq_none_iff.1 hslot
      have hnone : s.table.findIdx? (fun q => (s.procs q).status == .stopped) = none := by
        rw [findIdx?_eq_none_iff]
        rw [take_of_length_le hlen] at hbefore
        exact fun q hq => beq_eq_false_iff_ne.2 (hbefore q hq)
      rw [Scheduler.register, hnone]
      exact .step (.step (.step (.unlock .refl)))
    | some q =>
      by_cases hst : (s.procs q).status = .stopped
      · -- the first slot to be used again
        have hsome : s.table.findIdx? (fun q => (s.procs q).status == .stopped) = some i := by
          obtain ⟨hlt, hget⟩ := List.getElem?_eq_some_iff.1 hslot
          refine findIdx?_eq_some_iff_getElem.2 ⟨hlt, ?_, fun j hj => ?_⟩
          · rw [hget]
            exact beq_iff_eq.2 hst
          · have := hbefore _ (mem_take_iff_getElem.2 ⟨j, by omega, rfl⟩)
            rwa [Bool.not_eq_true, beq_eq_false_iff_ne]
        rw [Scheduler.register, hsome]
        simp only [hst, ne_eq, not_true_eq_false, if_false]
        exact .step (.step (.step (.unlock .refl)))
      · have hlt := (List.getElem?_eq_some_iff.1 hslot).1
        simp only [id, hst, ne_eq, not_false_eq_true, if_true]
        refine leads_registerLoop proc (by omega) (by omega) ?_
        rw [take_add_one, hslot]
        exact forall_mem_append.2 ⟨hbefore, forall_mem_singleton.2 hst⟩

theorem leads_killLoop (pid : Word) : ∀ {n i : Nat}, 0 < n → s.table.length < i + n →
    (∀ q ∈ s.table.take i, (s.procs q).id ≠ pid) → (killLoop pid n i).Leads s .done ((s.killPid pid).withLock 0#64)
  | 0, _, h0, _, _ => absurd h0 (Nat.lt_irrefl 0)
  | n + 1, i, _, hn, hbefore => by
    rw [killLoop]
    refine .step ?_
    cases hslot : s.table[i]? with
    | none =>
      -- behind the last slot, with no process of that id in the table
      have hlen : s.table.length ≤ i := getElem?_eq_none_iff.1 hslot
      have hnone : s.table.find? (fun q => (s.procs q).id == pid) = none := by
        rw [find?_eq_none]
        rw [take_of_length_le hlen] at hbefore
        exact fun q hq => mt beq_iff_eq.1 (hbefore q hq)
      rw [Scheduler.killPid, hnone]
      exact .unlock .refl
    | some q =>
      obtain ⟨hlt, hget⟩ := List.getElem?_eq_some_iff.1 hslot
      by_cases hid : (s.procs q).id = pid
      · have hsome : s.table.find? (fun q => (s.procs q).id == pid) = some q := by
          refine find?_eq_some_iff_getElem.2 ⟨beq_iff_eq.2 hid, i, hlt, hget, fun j hj => ?_⟩
          have := hbefore _ (mem_take_iff_getElem.2 ⟨j, by omega, rfl⟩)
          rwa [Bool.not_eq_true', beq_eq_false_iff_ne]
        rw [Scheduler.killPid, hsome]
        simp only [hid, if_true]
        exact .step (.unlock .refl)
      · simp only [id, hid, if_false]
        refine leads_killLoop pid (by omega) (by omega) ?_
        rw [take_add_one, hslot]
        exact forall_mem_append.2 ⟨hbefore, forall_mem_singleton.2 hid⟩

theorem leads_switchLoop (b : Nat) : ∀ {n i : Nat}, 0 < n → s.table.length < i + n →
    (switchLoop b n i).Leads s .done (((s.nextSleeping b (s.table.length - i) i).elim s s.resume).withLock 0#64)
  | 0, _, h0, _ => absurd h0 (Nat.lt_irrefl 0)
  | n + 1, i, _, hn => by
    rw [switchLoop]
    refine .step ?_
    by_cases hi : i < s.table.length
    · rw [show s.table.length - i = (s.table.length - (i + 1)) + 1 by omega, Scheduler.nextSleeping]
      simp only [hi, if_true]
      cases hslot : s.table[(b + i) % s.table.length]? with
      | none => exact leads_switchLoop b (by omega) (by omega)
      | some proc =>
        by_cases hst : (s.procs proc).status = .sleeping
        · simp only [hst, if_true]
          exact .step (.step (.step (.unlock .refl)))
        · simp only [hst, if_false]
          exact leads_switchLoop b (by omega) (by omega)
    · rw [Nat.sub_eq_zero_of_le (by omega)]
      simp only [hi, if_false]
      exact .unlock .refl

def Call.op : Call α → Op α
  | .registerProcess proc => .register proc
  | .kill pid => .kill pid
  | .switchProcess => .switchProcess

/-- Where the statements of a call lead if the operation ends with `result`. -/
def Code.Ends (c : Code α) (s : Scheduler α) : EStateM.Result Panic (Scheduler α) (Option α) → Prop
  | .ok _ s' => c.Leads s .done s'
  | .error e s' => c.Leads s (.panic e) s'

omit [DecidableEq α] in
theorem withLock_free (h : s.lockedByPid = 0#64) (x : Word) : (s.withLock x).withLock 0#64 = s := by
  rw [← h]
  rfl

variable (hfree : s.lockedByPid = 0#64)

include hfree

omit [DecidableEq α] in
theorem run_lock_free : (lock true).run s = .ok () (s.withLock (s.procs s.current).id) := by
  show (if s.lockedByPid = 0#64 then _ else _ : KM (Scheduler α) Unit).run s = _
  rw [if_pos hfree]
  rfl

theorem ends_registerCode (proc : α) : (registerCode proc).Ends s ((Op.exec true (.register proc)).run s) := by
  -- with the lock, the first assert
  have hcode : ∀ {c : Code α} {s' : Scheduler α}, (if s.table.length < kNumberOfProcess then
      .step id fun s =>
      if (s.procs proc).status = .notScheduled then registerLoop proc (kNumberOfProcess + 1) 0
      else .panic (.assertFailed "proc.GetStatus() == Process::Status::kNotScheduled")
    else .panic (.assertFailed "number_of_process_ < kNumberOfProcess") : Code α).Leads
      (s.withLock (s.procs s.current).id) c s' → (registerCode proc).Leads s c s' := fun h => .lock hfree (.step h)
  by_cases hlt : s.table.length < kNumberOfProcess
  · rw [if_pos hlt] at hcode
    by_cases hst : (s.procs proc).status = .notScheduled
    · rw [Op.exec, run_bind_eq (run_registerProcess true hfree hlt hst)]
      refine hcode (.step ?_)
      simp only [withLock_procs, hst, if_true]
      have hloop := leads_registerLoop (s := s.withLock (s.procs s.current).id) proc (n := kNumberOfProcess + 1)
        (i := 0) (by decide) (by rw [withLock_table]; omega) (forall_mem_nil _)
      rwa [withLock_register, withLock_free (register_lockedByPid.trans hfree)] at hloop
    · have hassert : (registerProcess true proc).run s = .error
          (.assertFailed "proc.GetStatus() == Process::Status::kNotScheduled") (s.withLock (s.procs s.current).id) := by
        rw [registerProcess, run_bind_eq (run_lock_free hfree), run_get_bind]
        refine (run_bind_eq (run_assert_true (decide_eq_true hlt) _ _)).trans ?_
        exact run_bind_error (run_assert_false (beq_eq_false_iff_ne.2 hst) _ _)
      rw [Op.exec, run_bind_error hassert]
      refine hcode (.step ?_)
      simp only [withLock_procs, hst, if_false]
      exact .refl
  · rw [if_neg hlt] at hcode
    have hassert : (registerProcess true proc).run s =
        .error (.assertFailed "number_of_process_ < kNumberOfProcess") (s.withLock (s.procs s.current).id) := by
      rw [registerProcess, run_bind_eq (run_lock_free hfree), run_get_bind]
      exact run_bind_error (run_assert_false (decide_eq_false hlt) _ _)
    rw [Op.exec, run_bind_error hassert]
    exact hcode .refl

theorem ends_code (hlen : s.table.length ≤ kNumberOfProcess) (c : Call α) : c.code.Ends s ((c.op.exec true).run s) := by
  cases c with
  | registerProcess proc => exact ends_registerCode hfree proc
  | kill pid =>
    rw [Call.op, Op.exec, run_bind_eq (run_kill true hfree pid)]
    have hloop := leads_killLoop (s := s.withLock (s.procs s.current).id) pid (n := kNumberOfProcess + 1) (i := 0)
      (by decide) (by rw [withLock_table]; omega) (forall_mem_nil _)
    rw [withLock_killPid, withLock_free ((killPid_lockedByPid pid).trans hfree)] at hloop
    exact .lock hfree hloop
  | switchProcess =>
    rw [Call.op, Op.exec, run_switchProcess true hfree]
    have hloop := leads_switchLoop (s := s.withLock (s.procs s.current).id) (s.procs s.current).schedulerIndex
      (n := kNumberOfProcess) (i := 1) (by decide) (by rw [withLock_table]; omega)
    rw [withLock_nextSleeping, withLock_table, ← Scheduler.next] at hloop
    refine .lock hfree (.step ?_)
    cases hnext : s.next with
    | none =>
      rw [hnext, Option.elim, withLock_free hfree] at hloop
      exact hloop
    | some p =>
      have hresume : (s.resume p).lockedByPid = 0#64 := suspendCurrent_lockedByPid.trans hfree
      rw [hnext, Option.elim, withLock_resume, withLock_free hresume] at hloop
      exact hloop

end

/-- On an idle processor, each of the three calls does, statement by statement and if no timer interrupt comes, what the
operation does: it returns with the same scheduler, or stops at the same failed assert. -/
theorem call_uninterrupted {t : Cpu α} (hfree : t.sched.lockedByPid = 0#64) (hcalls : t.calls t.running = [])
    (hlen : t.sched.table.length ≤ kNumberOfProcess) (c : Call α) (intFlag : Bool) :
    (∀ r s', (c.op.exec true).run t.sched = .ok r s' → ∃ k, t.run (.call c intFlag :: replicate k .statement) =
      some { t with sched := s', running := s'.current }) ∧
    ∀ e s', (c.op.exec true).run t.sched = .error e s' → ∃ k t', t.run (.call c intFlag :: replicate k .statement) =
      some t' ∧ t'.sched = s' ∧ ∃ a ∈ (t'.calls t'.running).head?, a.code = .panic e := by
  have hcall : ∀ ls, t.run (.call c intFlag :: ls) =
      (t.inCall (c.activation intFlag).intFlag c.code t.sched).run ls := by
    intro ls
    rw [Cpu.run, Cpu.step, if_pos hcalls]
    rfl
  have hends := ends_code hfree hlen c
  constructor
  · intro r s' hexec
    rw [hexec] at hends
    obtain ⟨k, hk⟩ := Cpu.run_of_leads hends t (c.activation intFlag).intFlag
    refine ⟨k + 1, ?_⟩
    rw [hcall, replicate_succ']
    refine Cpu.run_concat.2 ⟨_, hk, ?_⟩
    -- the call returns to the process that is current
    have hback : update (update t.calls t.running [⟨.done, (c.activation intFlag).intFlag⟩]) t.running [] =
        t.calls := by
      rw [update_idem, ← hcalls, update_eq_self]
    simp only [Cpu.step, Cpu.inCall, Cpu.setCalls, update_self, Cpu.statement, hback]
  · intro e s' hexec
    rw [hexec] at hends
    obtain ⟨k, hk⟩ := Cpu.run_of_leads hends t (c.activation intFlag).intFlag
    refine ⟨k, _, (hcall _).trans hk, rfl, ⟨.panic e, (c.activation intFlag).intFlag⟩, ?_, rfl⟩
    show (update t.calls t.running _ t.running).head? = _
    rw [update_self]
    rfl

/-- The root process alone, in no call. -/
def rootOnly : Cpu Bool := ⟨(twoProcesses.register false).setStatus false .running, false, fun _ => []⟩

/-- It registers another process and switches to it. -/
theorem call_uninterrupted_switch : ∃ t1 t2 k1 k2,
    rootOnly.run (.call (.registerProcess true) true :: replicate k1 .statement) = some t1 ∧
    t1.sched.table = [false, true] ∧
    t1.run (.call .switchProcess false :: replicate k2 .statement) = some t2 ∧ t2.running = true := by
  obtain ⟨k1, hk1⟩ := (call_uninterrupted (t := rootOnly) rfl rfl (by decide) (.registerProcess true) true).1 none _ rfl
  obtain ⟨k2, hk2⟩ := (call_uninterrupted (t := { rootOnly with sched := rootOnly.sched.register true }) rfl rfl
    (by decide) .switchProcess false).1 (some true) _ rfl
  exact ⟨_, _, k1, k2, hk1, rfl, hk2, rfl⟩

/-! ## Critical sections -/

/-- Code that has the lock and frees it. With `b`, it keeps `current_` as well. -/
inductive Code.Inside (b : Bool) : Code α → Prop
  | unlock : Code.Inside b (.unlock .done)
  | step {f : Scheduler α → Scheduler α} {next : Scheduler α → Code α} : (∀ s, (f s).lockedByPid = s.lockedByPid) →
      (b = true → ∀ s, ((f s).procs (f s).current).id = (s.procs s.current).id) → (∀ s, Code.Inside b (next s)) →
      Code.Inside b (.step f next)
  | panic {p : Panic} : Code.Inside b (.panic p)

/-- Code that takes the lock first, if it does anything. -/
inductive Code.Outside (b : Bool) : Code α → Prop
  | done : Code.Outside b .done
  | lock {n : Nat} {next : Code α} : next.Inside b → Code.Outside b (.lock n next)

section

variable {b : Bool}

omit [DecidableEq α] in
/-- A statement that changes neither the lock nor who holds it. -/
theorem Code.Inside.same {f : Scheduler α → Scheduler α} {next : Scheduler α → Code α}
    (h1 : ∀ s, (f s).lockedByPid = s.lockedByPid) (h2 : ∀ s, (f s).current = s.current)
    (h3 : ∀ s q, ((f s).procs q).id = (s.procs q).id) (h : ∀ s, (next s).Inside b) :
    (Code.step f next).Inside b := .step h1 (fun _ s => by rw [h2, h3]) h

variable {s : Scheduler α} {p q : α}

theorem setStatus_id (st : Status) : ((s.setStatus p st).procs q).id = (s.procs q).id :=
  field_update Process.id (by rfl) q

theorem setSchedulerIndex_id (i : Nat) : ((s.setSchedulerIndex p i).procs q).id = (s.procs q).id :=
  field_update Process.id (by rfl) q

theorem killProcess_id : ((s.killProcess p).procs q).id = (s.procs q).id := by
  rw [killProcess_eq]
  exact setStatus_id _

theorem inside_registerLoop (proc : α) (n i : Nat) : (registerLoop proc n i).Inside b := by
  induction n generalizing i with
  | zero => exact .panic
  | succ n ih =>
    refine .same (fun _ => rfl) (fun _ => rfl) (fun _ _ => rfl) fun s => ?_
    split
    · refine .same (fun _ => rfl) (fun _ => rfl) (fun _ _ => setSchedulerIndex_id _) fun _ => ?_
      refine .same (fun _ => rfl) (fun _ => rfl) (fun _ _ => rfl) fun _ => ?_
      exact .same (fun _ => rfl) (fun _ => rfl) (fun _ _ => setStatus_id _) fun _ => .unlock
    · split
      · exact ih (i + 1)
      · refine .same (fun _ => rfl) (fun _ => rfl) (fun _ _ => rfl) fun _ => ?_
        refine .same (fun _ => rfl) (fun _ => rfl) (fun _ _ => setSchedulerIndex_id _) fun _ => ?_
        exact .same (fun _ => rfl) (fun _ => rfl) (fun _ _ => setStatus_id _) fun _ => .unlock

theorem inside_killLoop (pid : Word) (n i : Nat) : (killLoop (α := α) pid n i).Inside b := by
  induction n generalizing i with
  | zero => exact .panic
  | succ n ih =>
    refine .same (fun _ => rfl) (fun _ => rfl) (fun _ _ => rfl) fun s => ?_
    split
    · exact .unlock
    · split
      · exact .same (fun _ => killProcess_lockedByPid) (fun _ => killProcess_current)
          (fun _ _ => killProcess_id) fun _ => .unlock
      · exact ih (i + 1)

/-- `SwitchProcess` changes `current_` before it frees the lock. -/
theorem inside_switchLoop (baseIndex n i : Nat) : (switchLoop (α := α) baseIndex n i).Inside false := by
  induction n generalizing i with
  | zero => exact .panic
  | succ n ih =>
    refine .step (fun _ => rfl) nofun fun s => ?_
    split
    · split
      · exact ih (i + 1)
      · split
        · refine .step (fun _ => suspendCurrent_lockedByPid) nofun fun _ => ?_
          refine .step (fun _ => rfl) nofun fun _ => ?_
          exact .step (fun _ => rfl) nofun fun _ => .unlock
        · exact ih (i + 1)
    · exact .unlock

theorem outside_activation (c : Call α) (intFlag : Bool) :
    (c.activation intFlag).code.Outside (c.activation intFlag).intFlag := by
  cases c with
  | registerProcess proc =>
    refine .lock (.same (fun _ => rfl) (fun _ => rfl) (fun _ _ => rfl) fun s => ?_)
    split
    · refine .same (fun _ => rfl) (fun _ => rfl) (fun _ _ => rfl) fun s => ?_
      split
      · exact inside_registerLoop proc _ _
      · exact .panic
    · exact .panic
  | kill pid => exact .lock (inside_killLoop pid _ _)
  | switchProcess => exact .lock (.step (fun _ => rfl) nofun fun _ => inside_switchLoop _ _ _)

end

/-! ## Runs -/

/-- Whoever holds the lock runs, in its critical section; with interrupts enabled there, it is `current_`. -/
structure Cpu.Calm (t : Cpu α) : Prop where
  code : ∀ p, ∀ a ∈ t.calls p, a.code.Outside a.intFlag ∨ a.code.Inside a.intFlag
  held : t.sched.lockedByPid ≠ 0#64 → ∃ a ∈ (t.calls t.running).head?, a.code.Inside a.intFlag ∧
    (a.intFlag = true → t.sched.lockedByPid = (t.sched.procs t.sched.current).id)

omit [DecidableEq α] in
theorem Cpu.Calm.not_selfDeadlock {t : Cpu α} (h : t.Calm) : ¬ t.SelfDeadlock := by
  rintro ⟨⟨hne, -⟩, a, ha, n, next, hcode⟩
  obtain ⟨a', ha', hin, -⟩ := h.held hne
  rw [mem_unique ha' ha, hcode] at hin
  cases hin

/-- A change of the calls of the process that runs, with the lock free after it or kept. -/
theorem Cpu.Calm.setCalls {t : Cpu α} (h : t.Calm) {calls : List (Activation α)} {sched : Scheduler α} {running : α}
    (hcode : ∀ a ∈ calls, a.code.Outside a.intFlag ∨ a.code.Inside a.intFlag)
    (hheld : sched.lockedByPid ≠ 0#64 → running = t.running ∧ ∃ a ∈ calls.head?, a.code.Inside a.intFlag ∧
      (a.intFlag = true → sched.lockedByPid = (sched.procs sched.current).id)) :
    Cpu.Calm { t.setCalls calls with sched := sched, running := running } where
  code p a ha := by
    change a ∈ update t.calls t.running calls p at ha
    by_cases hp : p = t.running
    · subst hp
      rw [update_self] at ha
      exact hcode a ha
    · rw [update_of_ne hp] at ha
      exact h.code p a ha
  held hne := by
    obtain ⟨hrun, hex⟩ := hheld hne
    subst hrun
    show ∃ a ∈ (update t.calls t.running calls t.running).head?, _
    rw [update_self]
    exact hex

theorem Cpu.Calm.statement {t t' : Cpu α} (h : t.Calm) {a : Activation α} {rest : List (Activation α)}
    (hcalls : t.calls t.running = a :: rest) (hstep : t.statement a rest = some t') : t'.Calm := by
  have hcode := h.code t.running
  rw [hcalls] at hcode
  have hrest : ∀ x ∈ rest, x.code.Outside x.intFlag ∨ x.code.Inside x.intFlag := fun x hx => hcode x (.tail a hx)
  have ha := hcode a (.head rest)
  -- with the lock held, the innermost call is in its critical section
  have hheld : t.sched.lockedByPid ≠ 0#64 → a.code.Inside a.intFlag ∧
      (a.intFlag = true → t.sched.lockedByPid = (t.sched.procs t.sched.current).id) := by
    intro hne
    obtain ⟨a', ha', hin⟩ := h.held hne
    rw [hcalls] at ha'
    cases ha'
    exact hin
  obtain ⟨code, intFlag⟩ := a
  unfold Cpu.statement at hstep
  cases code with
  | done =>
    cases hstep
    exact h.setCalls hrest fun hne => nomatch (hheld hne).1
  | lock n next =>
    rcases ha with hout | hin
    · cases hout with | lock hnext =>
      cases n with
      | zero => cases hstep
      | succ n =>
        have hfree : t.sched.lockedByPid = 0#64 := by
          by_contra hne
          exact nomatch (hheld hne).1
        change (if t.sched.lockedByPid = 0#64 then _ else _ : Option (Cpu α)) = _ at hstep
        rw [if_pos hfree] at hstep
        cases hstep
        refine h.setCalls (fun x hx => ?_) fun _ => ⟨rfl, ⟨next, intFlag⟩, rfl, hnext, fun _ => rfl⟩
        rcases mem_cons.1 hx with rfl | hx
        · exact .inr hnext
        · exact hrest x hx
    · cases hin
  | unlock next =>
    rcases ha with hout | hin
    · cases hout
    · cases hin
      cases hstep
      refine h.setCalls (fun x hx => ?_) fun hne => absurd rfl hne
      rcases mem_cons.1 hx with rfl | hx
      · exact .inl .done
      · exact hrest x hx
  | step f next =>
    rcases ha with hout | hin
    · cases hout
    · cases hin with | step hlock hcur hnext =>
      cases hstep
      refine h.setCalls (fun x hx => ?_) fun hne => ⟨rfl, ⟨next t.sched, intFlag⟩, rfl, hnext _, fun hflag => ?_⟩
      · rcases mem_cons.1 hx with rfl | hx
        · exact .inr (hnext _)
        · exact hrest x hx
      · rw [hlock] at hne ⊢
        rw [hcur hflag]
        exact (hheld hne).2 hflag
  | panic p => cases hstep

/-- A step of a run in which no timer interrupt comes while the lock is held. -/
theorem Cpu.Calm.step {t t' : Cpu α} {l : Label α} (h : t.Calm) (hstep : t.step l = some t')
    (hl : l = .timer → ¬ t.sched.Held) : t'.Calm := by
  cases l with
  | call c intFlag =>
    rw [Cpu.step] at hstep
    split_ifs at hstep with hidle
    cases hstep
    refine h.setCalls (fun x hx => ?_) fun hne => ?_
    · rw [mem_singleton.1 hx]
      exact .inl (outside_activation c intFlag)
    · obtain ⟨a, ha, -⟩ := h.held hne
      rw [hidle] at ha
      cases ha
  | timer =>
    rw [Cpu.step] at hstep
    split_ifs at hstep with henabled
    cases hstep
    refine h.setCalls (fun x hx => ?_) fun hne => ?_
    · rcases mem_cons.1 hx with rfl | hx
      · exact .inl (outside_activation .switchProcess false)
      · exact h.code _ x hx
    · -- the lock is held, with interrupts enabled, so by `current_`
      obtain ⟨a, ha, -, hcur⟩ := h.held hne
      rw [mem_def.1 ha] at henabled
      exact absurd ⟨hne, hcur henabled⟩ (hl rfl)
  | statement =>
    rw [Cpu.step] at hstep
    split at hstep
    · cases hstep
    · rename_i a rest hcalls
      exact h.statement hcalls hstep

omit [DecidableEq α] in
theorem Cpu.Idle.calm {t : Cpu α} (h : t.Idle) : t.Calm where
  code p a ha := by
    rw [h.calls] at ha
    cases ha
  held hne := absurd h.free hne

/-- If no timer interrupt of a run comes while `current_` holds the lock, the run is calm. -/
theorem Cpu.Calm.run {t : Cpu α} (h : t.Calm) (ls : List (Label α))
    (hls : ∀ ls1 t1 t2, ls1 ++ [.timer] <+: ls → t.run ls1 = some t1 → t1.step .timer = some t2 → ¬ t1.sched.Held) :
    ∀ t', t.run ls = some t' → t'.Calm := by
  induction ls using reverseRecOn with
  | nil =>
    rintro t' ⟨⟩
    exact h
  | append_singleton ls l ih =>
    intro t' hrun
    obtain ⟨t1, hrun1, hstep⟩ := Cpu.run_concat.1 hrun
    have hcalm := ih (fun ls1 t1 t2 hpre => hls ls1 t1 t2 (hpre.trans (prefix_append ls [l]))) t1 hrun1
    refine hcalm.step hstep ?_
    rintro rfl
    exact hls ls t1 t' (prefix_refl _) hrun1 hstep

/-- In every interleaving of calls with timer interrupts, from a processor that is in no call: the lock is never
requested by the process that holds it, exactly if no timer interrupt comes while `current_` holds it. -/
theorem lock_selfDeadlock_iff {t : Cpu α} (h : t.Idle) (ls : List (Label α)) :
    (∀ ls1 t1, ls1 <+: ls → t.run ls1 = some t1 → ¬ t1.SelfDeadlock) ↔
      ∀ ls1 t1 t2, ls1 ++ [.timer] <+: ls → t.run ls1 = some t1 → t1.step .timer = some t2 → ¬ t1.sched.Held := by
  constructor
  · intro hsafe ls1 t1 t2 hpre hrun hstep hheld
    refine hsafe _ t2 hpre (Cpu.run_concat.2 ⟨t1, hrun, hstep⟩) ?_
    -- the handler begins with the lock
    rw [Cpu.step] at hstep
    split_ifs at hstep
    cases hstep
    refine ⟨hheld, Call.switchProcess.activation false, ?_, _, _, rfl⟩
    show _ ∈ (update t1.calls t1.running _ t1.running).head?
    rw [update_self]
    rfl
  · intro hcalm ls1 t1 hpre hrun
    exact (h.calm.run ls1 (fun ls2 t2 t3 hpre2 => hcalm ls2 t2 t3 (hpre2.trans hpre)) t1 hrun).not_selfDeadlock

/-- The root process registers process 1, a timer interrupt switches to it, it kills the root process, and at the next
timer interrupt there is no process to switch to. -/
def killsRoot : List (Label Bool) :=
  .call (.registerProcess true) true :: replicate 10 .statement ++ .timer :: replicate 8 .statement ++
    .call (.kill 1#64) true :: replicate 5 .statement ++ .timer :: replicate 6 .statement

theorem lock_selfDeadlock_iff_killsRoot : rootOnly.Idle ∧
    (rootOnly.run killsRoot).any (fun t => t.running && (t.calls true).isEmpty) = true ∧
    ∀ ls1 t1, ls1 <+: killsRoot → rootOnly.run ls1 = some t1 → ¬ t1.SelfDeadlock := by
  have hidle : rootOnly.Idle := ⟨rfl, fun _ => rfl⟩
  refine ⟨hidle, by decide +kernel, (lock_selfDeadlock_iff hidle _).2 ?_⟩
  rintro ls1 t1 t2 ⟨rest, hls⟩ hrun - hheld
  rw [append_assoc] at hls
  -- both interrupts come when the lock is free
  have hfree : ∀ k < killsRoot.length, killsRoot[k]? = some .timer →
      (rootOnly.run (killsRoot.take k)).all (·.sched.lockedByPid == 0#64) = true := by decide +kernel
  have := hfree ls1.length (by simp [← hls]) (by simp [← hls])
  rw [← hls, take_left, hrun] at this
  exact hheld.1 (beq_iff_eq.1 this)

/-- The root process registers another one, and a timer interrupt comes once it has the lock: `SwitchProcess` asks for
the lock on behalf of the root process, which holds it. -/
theorem registerProcess_selfDeadlock : rootOnly.Idle ∧ ∃ t,
    rootOnly.run [.call (.registerProcess true) true, .statement, .timer] = some t ∧ t.SelfDeadlock := by
  refine ⟨⟨rfl, fun _ => rfl⟩, _, rfl, ⟨?_, rfl⟩, Call.switchProcess.activation false, rfl, _, _, rfl⟩
  decide

end

end Liumos.Sched
