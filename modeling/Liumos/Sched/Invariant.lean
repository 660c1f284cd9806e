/-
The invariant of the scheduler over every sequence of its operations: exactly one used slot holds a
process that runs or is about to stop, and that process is current; every process knows its slot; the
table never grows past its bound; a stopped process stays stopped and is never made current again.
Sources: scheduler.h, scheduler.cc, process.cc (`Kill`).
-/
import Liumos.Sched.Scheduler

namespace Liumos.Sched

open List

variable {α : Type} {s s' : Scheduler α} {p q : α}

/-- The process has the processor, and keeps it until the next switch. -/
def Status.OnProcessor (st : Status) : Prop := st = .running ∨ st = .stopping

structure Inv (s : Scheduler α) : Prop where
  unlocked : s.lockedByPid = 0#64
  le : s.table.length ≤ kNumberOfProcess
  index : ∀ i p, s.table[i]? = some p → (s.procs p).schedulerIndex = i
  current : s.table[(s.procs s.current).schedulerIndex]? = some s.current
  onProcessor : (s.procs s.current).status.OnProcessor
  others : ∀ p ∈ s.table, p ≠ s.current → (s.procs p).status = .sleeping ∨ (s.procs p).status = .stopped

theorem Inv.current_mem (h : Inv s) : s.current ∈ s.table := mem_of_getElem? h.current

/-- No process of the table waits to be registered. -/
theorem Inv.scheduled [DecidableEq α] (h : Inv s) (hp : p ∈ s.table) : (s.procs p).status ≠ .notScheduled := by
  by_cases hc : p = s.current
  · subst hc
    rcases h.onProcessor with hst | hst <;> rw [hst] <;> decide
  · rcases h.others p hp hc with hst | hst <;> rw [hst] <;> decide

theorem Inv.not_stopped (h : Inv s) : (s.procs s.current).status ≠ .stopped := by
  rcases h.onProcessor with hst | hst <;> rw [hst] <;> decide

theorem Inv.not_sleeping (h : Inv s) : (s.procs s.current).status ≠ .sleeping := by
  rcases h.onProcessor with hst | hst <;> rw [hst] <;> decide

/-! ## Changes of status -/

/-- A change of the statuses alone, with the same process on the processor. -/
theorem Inv.of_status (h : Inv s) {procs : α → Process}
    (hi : ∀ p, (procs p).schedulerIndex = (s.procs p).schedulerIndex) (hc : (procs s.current).status.OnProcessor)
    (ho : ∀ p ∈ s.table, p ≠ s.current → (procs p).status = .sleeping ∨ (procs p).status = .stopped) :
    Inv { s with procs := procs } where
  unlocked := h.unlocked
  le := h.le
  index i p hp := (hi p).trans (h.index i p hp)
  current := by
    rw [hi]
    exact h.current
  onProcessor := hc
  others := ho

variable [DecidableEq α]

theorem Inv.killProcess (h : Inv s) (p : α) : Inv (s.killProcess p) := by
  rw [killProcess_eq]
  refine h.of_status (fun q => setStatus_schedulerIndex _) ?_ fun q hq hc => ?_
  · show ((s.setStatus p _).procs s.current).status.OnProcessor
    rw [setStatus_status]
    split_ifs with hp
    · rw [← hp]
      rcases h.onProcessor with hst | hst <;> rw [hst] <;> exact .inr rfl
    · exact h.onProcessor
  · show ((s.setStatus p _).procs q).status = _ ∨ ((s.setStatus p _).procs q).status = _
    rw [setStatus_status]
    split_ifs with hp
    · rw [← hp]
      rcases h.others q hq hc with hst | hst <;> rw [hst] <;> exact .inr rfl
    · exact h.others q hq hc

theorem Inv.killPid (h : Inv s) (pid : Word) : Inv (s.killPid pid) := by
  unfold Scheduler.killPid
  split
  · exact h.killProcess _
  · exact h

/-! ## Switching -/

omit [DecidableEq α] in
theorem nextSleeping_some {b : Nat} :
    ∀ {n i : Nat}, s.nextSleeping b n i = some p → p ∈ s.table ∧ (s.procs p).status = .sleeping
  | 0, _, h => by cases h
  | n + 1, i, h => by
    rw [Scheduler.nextSleeping] at h
    split at h
    · exact nextSleeping_some h
    · rename_i proc hslot
      split at h
      · rename_i hst
        cases h
        exact ⟨mem_of_getElem? hslot, hst⟩
      · exact nextSleeping_some h

omit [DecidableEq α] in
/-- `current_` goes to sleep, or stops if it was killed. -/
theorem Inv.suspended (h : Inv s) : (s.procs s.current).status.suspended = .sleeping ∨
    (s.procs s.current).status.suspended = .stopped := by
  rcases h.onProcessor with hst | hst <;> rw [hst]
  · exact .inl rfl
  · exact .inr rfl

theorem Inv.resume (h : Inv s) (hp : p ∈ s.table) : Inv (s.resume p) := by
  have hsus := h.suspended
  rw [Scheduler.resume, suspendCurrent_eq]
  generalize (s.procs s.current).status.suspended = st at hsus ⊢
  have hidx : ∀ q, (((s.setStatus s.current st).setStatus p .running).procs q).schedulerIndex =
      (s.procs q).schedulerIndex := by
    intro q
    rw [setStatus_schedulerIndex, setStatus_schedulerIndex]
  exact {
    unlocked := h.unlocked
    le := h.le
    index := fun i q hq => (hidx q).trans (h.index i q hq)
    current := by
      obtain ⟨i, hi⟩ := getElem?_of_mem hp
      show s.table[(((s.setStatus s.current st).setStatus p .running).procs p).schedulerIndex]? = some p
      rw [hidx, h.index i p hi, hi]
    onProcessor := by
      left
      rw [setStatus_status, if_pos rfl]
    others := by
      intro q hq hqp
      rw [setStatus_status, if_neg hqp, setStatus_status]
      split
      · exact hsus
      · rename_i hc
        exact h.others q hq hc }

/-! ## Registering -/

/-- The processes after `RegisterProcess` gave `proc` the slot `i`. -/
theorem register_procs (t : List α) (i : Nat) :
    (({ s with table := t }.setSchedulerIndex p i).setStatus p .sleeping).procs q =
      if q = p then { s.procs p with status := .sleeping, schedulerIndex := i } else s.procs q := by
  by_cases hq : q = p
  · subst hq
    simp [Scheduler.setStatus, Scheduler.setSchedulerIndex]
  · simp [Scheduler.setStatus, Scheduler.setSchedulerIndex, hq]

theorem register_procs_of_ne (hq : q ≠ p) : (s.register p).procs q = s.procs q := by
  unfold Scheduler.register
  split <;> rw [register_procs, if_neg hq]

/-- A new process in a slot that is not that of `current_`. -/
theorem Inv.place (h : Inv s) (hp : (s.procs p).status = .notScheduled) {t : List α} {i : Nat}
    (hlen : t.length ≤ kNumberOfProcess) (hi : t[i]? = some p)
    (hold : ∀ j q, j ≠ i → t[j]? = some q → s.table[j]? = some q)
    (hc : t[(s.procs s.current).schedulerIndex]? = some s.current) :
    Inv (({ s with table := t }.setSchedulerIndex p i).setStatus p .sleeping) := by
  have hnew : ∀ {q}, q ∈ s.table → q ≠ p := by
    rintro q hq rfl
    exact h.scheduled hq hp
  have hcur := hnew h.current_mem
  -- the slot of a process of the new table
  have hslot : ∀ j q, t[j]? = some q → j = i ∧ q = p ∨ j ≠ i ∧ q ≠ p ∧ s.table[j]? = some q := by
    intro j q hq
    by_cases hji : j = i
    · subst hji
      rw [hi] at hq
      cases hq
      exact .inl ⟨rfl, rfl⟩
    · have hq' := hold j q hji hq
      exact .inr ⟨hji, hnew (mem_of_getElem? hq'), hq'⟩
  exact {
    unlocked := h.unlocked
    le := hlen
    index := by
      intro j q hq
      rw [register_procs]
      rcases hslot j q hq with ⟨rfl, rfl⟩ | ⟨_, hne, hq'⟩
      · rw [if_pos rfl]
      · rw [if_neg hne]
        exact h.index j q hq'
    current := by
      show t[((({ s with table := t }.setSchedulerIndex p i).setStatus p .sleeping).procs
        s.current).schedulerIndex]? = _
      rw [register_procs, if_neg hcur]
      exact hc
    onProcessor := by
      show ((({ s with table := t }.setSchedulerIndex p i).setStatus p .sleeping).procs s.current).status.OnProcessor
      rw [register_procs, if_neg hcur]
      exact h.onProcessor
    others := by
      intro q hq hqc
      obtain ⟨j, hj⟩ := getElem?_of_mem hq
      rw [register_procs]
      rcases hslot j q hj with ⟨-, rfl⟩ | ⟨-, hne, hq'⟩
      · rw [if_pos rfl]
        exact .inl rfl
      · rw [if_neg hne]
        exact h.others q (mem_of_getElem? hq') hqc }

theorem Inv.register (h : Inv s) (hlen : s.table.length < kNumberOfProcess) (hp : (s.procs p).status = .notScheduled) :
    Inv (s.register p) := by
  unfold Scheduler.register
  split
  · rename_i i hi
    obtain ⟨hlt, hstop, -⟩ := findIdx?_eq_some_iff_getElem.1 hi
    refine h.place hp (by simpa using h.le) (getElem?_set_self hlt) (fun j q hji hq => ?_) ?_
    · rwa [getElem?_set_ne (Ne.symm hji)] at hq
    · -- the slot held a stopped process, so not the current one
      rw [getElem?_set_ne, h.current]
      rintro rfl
      have hcur := h.current
      rw [getElem?_eq_getElem hlt] at hcur
      rw [Option.some_inj.1 hcur] at hstop
      exact h.not_stopped (eq_of_beq hstop)
  · refine h.place hp (by simpa using hlen) (getElem?_concat_length ..) (fun j q hji hq => ?_) ?_
    · rcases Nat.lt_or_ge j s.table.length with hlt | hge
      · rwa [getElem?_append_left hlt] at hq
      · rw [getElem?_eq_none] at hq
        · cases hq
        · simp only [length_append, length_singleton]
          omega
    · have hlt := (List.getElem?_eq_some_iff.1 h.current).1
      rw [getElem?_append_left hlt, h.current]

/-! ## Every operation -/

section

variable {op : Op α} {r : Option α}

theorem Inv.effect (h : Inv s) (he : Effect s op r s') : Inv s' := by
  cases he with
  | register hlen hst => exact h.register hlen hst
  | switched hn => exact h.resume (nextSleeping_some hn).1
  | stayed _ => exact h
  | kill pid => exact h.killPid pid
  | killCurrent => exact h.killProcess _

theorem killProcess_table : (s.killProcess p).table = s.table := by
  rw [killProcess_eq]
  rfl

theorem killProcess_current : (s.killProcess p).current = s.current := by
  rw [killProcess_eq]
  rfl

theorem killPid_table (pid : Word) : (s.killPid pid).table = s.table := by
  unfold Scheduler.killPid
  split
  · exact killProcess_table
  · rfl

theorem suspendCurrent_table : s.suspendCurrent.table = s.table := by
  rw [suspendCurrent_eq]
  rfl

/-- Registering gives no other process the slot of one that is not stopped. -/
theorem register_slot {i : Nat} (hi : s.table[i]? = some q) (hq : (s.procs q).status ≠ .stopped) :
    (s.register p).table[i]? = some q := by
  unfold Scheduler.register
  split
  · rename_i j hj
    obtain ⟨hlt, hstop, -⟩ := findIdx?_eq_some_iff_getElem.1 hj
    show (s.table.set j p)[i]? = some q
    rw [getElem?_set_ne, hi]
    rintro rfl
    rw [getElem?_eq_getElem hlt] at hi
    rw [Option.some_inj.1 hi] at hstop
    exact hq (eq_of_beq hstop)
  · show (s.table ++ [p])[i]? = some q
    rw [List.getElem?_append_left (List.getElem?_eq_some_iff.1 hi).1, hi]

/-- The slot of `current_` still holds it after any operation. -/
theorem Inv.slot (h : Inv s) (he : Effect s op r s') :
    s'.table[(s.procs s.current).schedulerIndex]? = some s.current := by
  cases he with
  | register _ _ => exact register_slot h.current h.not_stopped
  | switched _ => exact (congrArg (·[_]?) suspendCurrent_table).trans h.current
  | stayed _ => exact h.current
  | kill pid => exact (congrArg (·[_]?) (killPid_table pid)).trans h.current
  | killCurrent => exact (congrArg (·[_]?) killProcess_table).trans h.current

theorem killProcess_stopped (hq : (s.procs q).status = .stopped) : ((s.killProcess p).procs q).status = .stopped := by
  rw [killProcess_eq, setStatus_status]
  split_ifs with hp
  · rw [← hp, hq]
    rfl
  · exact hq

theorem killPid_stopped (pid : Word) (hq : (s.procs q).status = .stopped) :
    ((s.killPid pid).procs q).status = .stopped := by
  unfold Scheduler.killPid
  split
  · exact killProcess_stopped hq
  · exact hq

theorem register_stopped (hp : (s.procs p).status = .notScheduled) (hq : (s.procs q).status = .stopped) :
    ((s.register p).procs q).status = .stopped := by
  have hne : q ≠ p := by
    rintro rfl
    rw [hp] at hq
    cases hq
  rw [register_procs_of_ne hne, hq]

/-- A stopped process stays stopped, and no operation returns it. -/
theorem Inv.stopped (h : Inv s) (he : Effect s op r s') (hq : (s.procs q).status = .stopped) :
    (s'.procs q).status = .stopped ∧ r ≠ some q := by
  cases he with
  | register _ hst => exact ⟨register_stopped hst hq, nofun⟩
  | @switched proc hn =>
    obtain ⟨-, hst⟩ := nextSleeping_some hn
    have hne : q ≠ proc := by
      rintro rfl
      rw [hst] at hq
      cases hq
    constructor
    · rw [Scheduler.resume, suspendCurrent_eq]
      rw [setStatus_status, if_neg hne, setStatus_status, if_neg ?_, hq]
      rintro rfl
      exact h.not_stopped hq
    · intro hr
      exact hne (Option.some_inj.1 hr).symm
  | stayed _ => exact ⟨hq, nofun⟩
  | kill pid => exact ⟨killPid_stopped pid hq, nofun⟩
  | killCurrent => exact ⟨killProcess_stopped hq, nofun⟩

end

/-! ## Runs -/

/-- The constructor registers the root process in an empty table and sets it running. -/
theorem construct_ok {multi : Bool} {u : Unit} (h : (construct multi p).run s = .ok u s') :
    (s.procs p).status = .notScheduled ∧
      s' = (({ s with table := [], current := p, lockedByPid := 0#64 } : Scheduler α).register p).setStatus p
      .running := by
  have hfree : ({ s with table := [], current := p, lockedByPid := 0#64 } : Scheduler α).lockedByPid = 0#64 := rfl
  obtain ⟨_, _, hreg, hset⟩ := run_bind_ok (show (registerProcess multi p >>= _).run _ = _ from h)
  obtain ⟨hlen, hst⟩ := asserts_of_registerProcess multi hfree hreg
  rw [run_registerProcess multi hfree hlen hst] at hreg
  cases hreg
  cases hset
  exact ⟨hst, rfl⟩

/-- The constructed scheduler: the root process alone, in slot 0, running. -/
theorem Inv.construct {multi : Bool} {u : Unit} (h : (construct multi p).run s = .ok u s') : Inv s' := by
  obtain ⟨-, rfl⟩ := construct_ok h
  have hidx : (((({ s with table := [p], current := p, lockedByPid := 0#64 }.setSchedulerIndex p 0).setStatus
      p .sleeping).setStatus p .running).procs p).schedulerIndex = 0 := by
    rw [setStatus_schedulerIndex, register_procs (s := { s with current := p, lockedByPid := 0#64 }), if_pos rfl]
  exact {
    unlocked := rfl
    le := show 1 ≤ kNumberOfProcess by decide
    index := by
      intro i q hq
      obtain ⟨hi, rfl⟩ := List.getElem?_eq_some_iff.1 hq
      have hi0 : i = 0 := Nat.lt_one_iff.1 hi
      subst hi0
      exact hidx
    current := (congrArg ([p][·]?) hidx).trans rfl
    onProcessor := by
      left
      exact setStatus_status _ |>.trans (if_pos rfl)
    others := by
      intro q hq hne
      exact absurd (mem_singleton.1 hq) hne }

theorem Inv.steps (h : Inv s) (hs : Steps s s') : Inv s' := by
  induction hs with
  | refl => exact h
  | step multi op _ hrun ih => exact ih.effect ((exec_iff multi ih.unlocked).1 hrun)

theorem Inv.steps_stopped (h : Inv s) (hs : Steps s s') (hq : (s.procs q).status = .stopped) :
    (s'.procs q).status = .stopped := by
  induction hs with
  | refl => exact hq
  | step multi op hs hrun ih =>
    have hinv := h.steps hs
    exact (hinv.stopped ((exec_iff multi hinv.unlocked).1 hrun) ih).1

/-- Over every sequence of operations on a constructed scheduler that fails no assert: exactly one used slot
holds a process that is running or stopping, that of `current_`; every process of the table knows its slot;
the table never outgrows its bound; no operation gives the slot of `current_` to another process; a process
that has stopped stays so and is never returned again. -/
theorem scheduler_invariant {s0 s s' : Scheduler α} {root : α} {multi : Bool}
    (hroot : (construct multi root).run s0 = .ok () s) (hs : Steps s s') :
    (∃ i : Nat, s'.table[i]? = some s'.current ∧ (s'.procs s'.current).status.OnProcessor ∧
      ∀ (j : Nat) q, s'.table[j]? = some q → (s'.procs q).status.OnProcessor → j = i) ∧
    (∀ (i : Nat) q, s'.table[i]? = some q → (s'.procs q).schedulerIndex = i) ∧ s'.table.length ≤ kNumberOfProcess ∧
    (∀ i : Nat, s'.table[i]? = some s'.current → ∀ multi' op r s'', (Op.exec multi' op).run s' = .ok r s'' →
      s''.table[i]? = some s'.current) ∧
    ∀ q, (s'.procs q).status = .stopped → ∀ s'', Steps s' s'' → (s''.procs q).status = .stopped ∧
      ∀ multi' op r s3, (Op.exec multi' op).run s'' = .ok r s3 → r ≠ some q := by
  have h := (Inv.construct hroot).steps hs
  refine ⟨⟨_, h.current, h.onProcessor, ?_⟩, h.index, h.le, ?_, ?_⟩
  · intro j q hj hq
    have hqc : q = s'.current := by
      by_contra hne
      rcases h.others q (mem_of_getElem? hj) hne with hst | hst <;> rw [hst] at hq <;>
        rcases hq with hq | hq <;> cases hq
    subst hqc
    exact (h.index j _ hj).symm
  · intro i hi multi' op r s'' hrun
    have hslot := h.slot ((exec_iff multi' h.unlocked).1 hrun)
    rwa [h.index i _ hi] at hslot
  · intro q hq s'' hs''
    have h'' := h.steps hs''
    have hq'' := h.steps_stopped hs'' hq
    exact ⟨hq'', fun multi' op r s3 hrun => (h''.stopped ((exec_iff multi' h''.unlocked).1 hrun) hq'').2⟩

/-- Two processes, `false` the root and `true` yet to be registered. -/
def twoProcesses : Scheduler Bool where
  procs p := ⟨if p then 2#64 else 1#64, .notScheduled, 0⟩
  table := []
  current := false
  lockedByPid := 0#64

/-- The root process is killed and leaves the processor to the other one: it is stopped for good. -/
theorem scheduler_invariant_twoProcesses : ∃ s s', (construct true false).run twoProcesses = .ok () s ∧ Steps s s' ∧
    s'.current = true ∧ (s'.procs false).status = .stopped ∧
      ∀ s'', Steps s' s'' → (s''.procs false).status = .stopped := by
  let s := (twoProcesses.register false).setStatus false .running
  have hs : Steps s (((s.register true).killPid 1#64).resume true) :=
    .step true .switchProcess (.step true (.kill 1#64) (.step true (.register true) .refl rfl) rfl) rfl
  have hroot : (construct true false).run twoProcesses = .ok () s := rfl
  exact ⟨s, _, hroot, hs, rfl, rfl, fun s'' hs'' => ((scheduler_invariant hroot hs).2.2.2.2 false rfl s'' hs'').1⟩

end Liumos.Sched
