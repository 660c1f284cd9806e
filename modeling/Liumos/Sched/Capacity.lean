/-
The capacity of the table. `RegisterProcess` asserts that the table is not full before it looks for the slot of a
process that has stopped, so a full table takes no process any more, however many of its slots could be reused.
Sources: scheduler.h, scheduler.cc (`RegisterProcess`).
-/
import Liumos.Sched.Invariant

namespace Liumos.Sched

variable {α : Type} {s s' : Scheduler α} [DecidableEq α]

/-- No slot is free or can be reused. -/
def Scheduler.Exhausted (s : Scheduler α) : Prop :=
  s.table.length = kNumberOfProcess ∧ ∀ p ∈ s.table, (s.procs p).status ≠ .stopped

def capacityPanic : Panic := .assertFailed "number_of_process_ < kNumberOfProcess"

/-- With the lock free, the capacity assert fails exactly when the table is full. -/
theorem registerProcess_capacity (multi : Bool) (h : s.lockedByPid = 0#64) (proc : α) :
    (∃ t, (registerProcess multi proc).run s = .error capacityPanic t) ↔ ¬ s.table.length < kNumberOfProcess := by
  obtain ⟨x, hlock, -⟩ := run_lock multi h
  rw [registerProcess, run_bind_eq hlock]
  constructor
  · rintro ⟨t, hrun⟩ hlen
    have hlen' : decide ((s.withLock x).table.length < kNumberOfProcess) = true := decide_eq_true hlen
    change (assert _ _ >>= _).run (s.withLock x) = _ at hrun
    rw [run_bind_eq (run_assert_true hlen' _ _)] at hrun
    by_cases hst : ((s.withLock x).procs proc).status = .notScheduled
    · rw [run_bind_eq (run_assert_true (beq_iff_eq.2 hst) _ _)] at hrun
      cases multi <;> cases hrun
    · -- the other assert fails
      rw [run_bind_error (run_assert_false (beq_eq_false_iff_ne.2 hst) _ _)] at hrun
      exact absurd hrun (by rw [capacityPanic]; simp)
  · intro hlen
    refine ⟨s.withLock x, ?_⟩
    show (assert _ _ >>= _).run (s.withLock x) = _
    exact run_bind_error (run_assert_false (decide_eq_false hlen) _ _)

/-- After any history of registrations, switches and kills: the capacity assert fails only if all slots hold
processes that are not stopped, exactly if the table has a slot left or none of its processes has stopped. -/
theorem registerProcess_capacity_iff {s0 s s' : Scheduler α} {root : α} {multi : Bool}
    (hroot : (construct multi root).run s0 = .ok () s) (hs : Steps s s') :
    (∀ multi' proc t, (registerProcess multi' proc).run s' = .error capacityPanic t → s'.Exhausted) ↔
      s'.table.length < kNumberOfProcess ∨ ∀ p ∈ s'.table, (s'.procs p).status ≠ .stopped := by
  have hinv := (Inv.construct hroot).steps hs
  constructor
  · intro hfull
    by_cases hlen : s'.table.length < kNumberOfProcess
    · exact .inl hlen
    · obtain ⟨t, hrun⟩ := (registerProcess_capacity true hinv.unlocked s'.current).2 hlen
      exact .inr (hfull _ _ _ hrun).2
  · rintro hcond multi' proc t hrun
    have hlen := (registerProcess_capacity multi' hinv.unlocked proc).1 ⟨t, hrun⟩
    exact ⟨le_antisymm hinv.le (not_lt.1 hlen), hcond.resolve_left hlen⟩

/-! ## A table that fills up -/

/-- Nothing has been registered; the process `p` has id `p + 1`. -/
def noProcess : Scheduler Nat where
  procs p := ⟨BitVec.ofNat 64 (p + 1), .notScheduled, 0⟩
  table := []
  current := 0
  lockedByPid := 0#64

/-- Besides the root process 0, the processes up to `n` are registered. -/
def filled : Nat → Scheduler Nat
  | 0 => (noProcess.register 0).setStatus 0 .running
  | n + 1 => (filled n).register (n + 1)

theorem construct_noProcess : (construct true 0).run noProcess = .ok () (filled 0) := rfl

structure Filled (n : Nat) (s : Scheduler Nat) : Prop where
  table : s.table = List.range (n + 1)
  id : ∀ p, (s.procs p).id = BitVec.ofNat 64 (p + 1)
  status : ∀ p, (s.procs p).status = if p = 0 then .running else if p ≤ n then .sleeping else .notScheduled

theorem Filled.register {n : Nat} {s : Scheduler Nat} (h : Filled n s) : Filled (n + 1) (s.register (n + 1)) := by
  have hnone : s.table.findIdx? (fun q => (s.procs q).status == .stopped) = none := by
    rw [List.findIdx?_eq_none_iff]
    intro q _
    rw [h.status]
    split_ifs <;> rfl
  have heq : s.register (n + 1) =
      ({ s with table := s.table ++ [n + 1] }.setSchedulerIndex (n + 1) s.table.length).setStatus
        (n + 1) .sleeping := by
    rw [Scheduler.register, hnone]
  have hprocs := fun p => register_procs (s := s) (p := n + 1) (q := p) (s.table ++ [n + 1]) s.table.length
  rw [heq]
  refine ⟨?_, fun p => ?_, fun p => ?_⟩
  · show s.table ++ [n + 1] = _
    rw [h.table, ← List.range_succ]
  · rw [hprocs]
    split_ifs with hp
    · rw [hp]
      exact h.id _
    · exact h.id p
  · rw [hprocs]
    split_ifs with hp h0 hle h0 hle
    · omega
    · rfl
    · omega
    · rw [h.status, if_pos h0]
    · rw [h.status, if_neg h0, if_pos (by omega)]
    · rw [h.status, if_neg h0, if_neg (by omega)]

theorem filled_filled : ∀ n, Filled n (filled n)
  | 0 => by
    refine ⟨rfl, fun p => ?_, fun p => ?_⟩
    · cases p <;> rfl
    · cases p <;> rfl
  | n + 1 => (filled_filled n).register

theorem steps_filled : ∀ n < 256, Steps (filled 0) (filled n)
  | 0, _ => .refl
  | n + 1, h => by
    have hsteps := steps_filled n (by omega)
    have hfilled := filled_filled n
    have hfree := ((Inv.construct construct_noProcess).steps hsteps).unlocked
    refine .step true (.register (n + 1)) hsteps ((exec_iff true hfree).2 (.register ?_ ?_))
    · rw [hfilled.table, List.length_range]
      exact h
    · rw [hfilled.status, if_neg (by omega), if_neg (by omega)]

/-- Processes 1 and 2 are registered, 1 is killed, 2 is switched to, and 3 is registered in the slot of 1: the assert
does not fail in vain. -/
theorem registerProcess_capacity_iff_reused : ∃ s s', (construct true 0).run noProcess = .ok () s ∧ Steps s s' ∧
    s'.table = [0, 3, 2] ∧ s'.current = 2 ∧
    ∀ multi' proc t, (registerProcess multi' proc).run s' = .error capacityPanic t → s'.Exhausted := by
  have hsteps := Steps.refl (s := filled 0) |>.step true (.register 1) rfl |>.step true (.register 2) rfl
    |>.step true (.kill 2#64) rfl |>.step true .switchProcess rfl |>.step true (.register 3) rfl
  exact ⟨_, _, rfl, hsteps, rfl, rfl, (registerProcess_capacity_iff construct_noProcess hsteps).2 (.inl (by decide))⟩

/-- 256 processes are registered, and process 1 is killed: it has stopped, so its slot could be reused, but a 257th
process cannot be registered. -/
theorem registerProcess_fails_with_stopped : ∃ s s' t, (construct true 0).run noProcess = .ok () s ∧ Steps s s' ∧
    (s'.procs 256).status = .notScheduled ∧ 1 ∈ s'.table ∧ (s'.procs 1).status = .stopped ∧
    (registerProcess true 256).run s' = .error capacityPanic t := by
  have hfilled := filled_filled 255
  have hsteps := steps_filled 255 (by omega)
  have hinv := (Inv.construct construct_noProcess).steps hsteps
  have hkilled := Steps.step true (.kill 2#64) hsteps ((exec_iff true hinv.unlocked).2 (.kill 2#64))
  have hfind : (filled 255).table.find? (fun q => ((filled 255).procs q).id == 2#64) = some 1 := by
    simp only [hfilled.table, hfilled.id]
    decide
  have heq : (filled 255).killPid 2#64 = (filled 255).setStatus 1 .stopped := by
    have hst : ((filled 255).procs 1).status = .sleeping := hfilled.status 1
    rw [Scheduler.killPid, hfind]
    show (filled 255).killProcess 1 = _
    rw [Scheduler.killProcess, hst]
  rw [heq] at hkilled
  have hfull : ¬ ((filled 255).setStatus 1 .stopped).table.length < kNumberOfProcess := by
    rw [setStatus_table, hfilled.table, List.length_range]
    decide
  obtain ⟨t, hrun⟩ := (registerProcess_capacity true ((Inv.construct construct_noProcess).steps hkilled).unlocked 256).2
    hfull
  refine ⟨_, _, t, construct_noProcess, hkilled, ?_, ?_, ?_, hrun⟩
  · rw [setStatus_status, hfilled.status]
    decide
  · rw [setStatus_table, hfilled.table]
    decide
  · rw [setStatus_status, if_pos rfl]

end Liumos.Sched
