/-
The FPU registers over the interrupts that switch processes. The entry code saves them in the frame and the exit code
loads them from there, but `SwitchContext` exchanges only the general registers and the interrupt context of the frame
and leaves its FPU part as it is. So the process that comes to run finds what the one before has left, and the registers
are private exactly in the runs in which no interrupt finds another process to switch to.
Sources: kernel.cc (`SwitchContext`, `SleepHandler`), inthandler.S, sleep_handler.S.
-/
import Liumos.Switching.Restores

namespace Liumos.Switching

open Process

section

variable {α σ : Type} [DecidableEq α] {cfg : Config α} {e : Event} {s s' : Machine α σ}

/-! ## One event -/

theorem Outcome.fpu (h : Outcome cfg e s s') : s'.fpu = s.fpu := by
  cases h <;> rfl

/-- The handler does not look at the FPU registers. -/
theorem Outcome.with_fpu (h : Outcome cfg e s s') (f : Fin 64 → Word) :
    Outcome cfg e { s with fpu := f } { s' with fpu := f } := by
  cases h with
  | stayed hn => exact .stayed hn
  | early hn hearly => exact .early (s := { s with fpu := f }) hn hearly
  | switched hn hearly halign hsrc hnotify hdst =>
    exact .switched (s := { s with fpu := f }) hn hearly halign hsrc hnotify hdst

/-- An event changes the current process exactly if the scheduler finds another one. -/
theorem Outcome.current_eq_iff (hs : Sched.Inv s.sched) (h : Outcome cfg e s s') :
    s'.sched.current = s.sched.current ↔ s.sched.next = none := by
  have hne : ∀ {q}, s.sched.next = some q → (s.sched.resume q).current ≠ s.sched.current := by
    rintro q hn heq
    have hq : q = s.sched.current := heq
    obtain ⟨-, hst⟩ := Sched.nextSleeping_some hn
    exact hs.not_sleeping (hq ▸ hst)
  cases h with
  | stayed hn => exact ⟨fun _ => hn, fun _ => rfl⟩
  | early hn _ => exact ⟨fun heq => absurd heq (hne hn), fun hnone => by rw [hn] at hnone; cases hnone⟩
  | switched hn _ _ _ _ _ => exact ⟨fun heq => absurd heq (hne hn), fun hnone => by rw [hn] at hnone; cases hnone⟩

end

/-! ## Schedules -/

/-- The machine when an event comes, and when the process that is current then goes on. -/
structure Slice (α σ : Type) where
  before : Machine α σ
  event : Event
  after : Machine α σ

section

variable {α σ : Type} [DecidableEq α]

/-- A schedule, the last slice first. Between two events anything may happen to the machine, but only an event changes
the current process. -/
inductive Schedule (cfg : Config α) : List (Slice α σ) → Prop
  | nil : Schedule cfg []
  | cons {sl : Slice α σ} {rest : List (Slice α σ)} : Schedule cfg rest → Sched.Inv sl.before.sched →
      (∀ prev, rest.head? = some prev → sl.before.sched.current = prev.after.sched.current) →
      (interrupt cfg sl.event).run sl.before = .ok () sl.after → Schedule cfg (sl :: rest)

/-- The machine in a run that differs only in what `A` has in the FPU registers when it is preempted. -/
def twin (A : α) (f : Fin 64 → Word) (s : Machine α σ) : Machine α σ :=
  if s.sched.current = A then { s with fpu := f } else s

/-- Whatever a process leaves in the FPU registers, the others see the same in them. -/
def Hidden (cfg : Config α) (slices : List (Slice α σ)) : Prop :=
  ∀ A f, ∀ sl ∈ slices, ∀ t, (interrupt cfg sl.event).run (twin A f sl.before) = .ok () t → t.sched.current ≠ A →
    t.fpu = sl.after.fpu

/-- A process that is resumed finds what it had in the FPU registers when it was preempted. -/
def GivenBack (slices : List (Slice α σ)) : Prop :=
  ∀ later earlier B front mid rest, slices = front ++ later :: (mid ++ earlier :: rest) → earlier.before.sched.current =
    B → earlier.after.sched.current ≠ B → (∀ sl ∈ mid, sl.after.sched.current ≠ B) → later.after.sched.current = B →
    later.after.fpu = earlier.before.fpu

variable {cfg : Config α} {slices : List (Slice α σ)} {sl : Slice α σ}

theorem Schedule.slice (h : Schedule cfg slices) (hsl : sl ∈ slices) :
    Sched.Inv sl.before.sched ∧ Outcome cfg sl.event sl.before sl.after := by
  induction h with
  | nil => cases hsl
  | cons _ hs _ hrun ih =>
    rcases List.mem_cons.1 hsl with rfl | hsl
    · exact ⟨hs, interrupt_ok hs hrun⟩
    · exact ih hsl

theorem hidden_of_none (h : Schedule cfg slices) (hnone : ∀ sl ∈ slices, sl.before.sched.next = none) :
    Hidden cfg slices := by
  intro A f sl hsl t hrun hcur
  obtain ⟨hs, hout⟩ := h.slice hsl
  have htwin : (twin A f sl.before).sched = sl.before.sched := by
    unfold twin
    split <;> rfl
  have houtₜ := interrupt_ok (htwin ▸ hs) hrun
  have hcurₜ := (houtₜ.current_eq_iff (htwin ▸ hs)).2 (htwin ▸ hnone sl hsl)
  rw [htwin] at hcurₜ
  rw [houtₜ.fpu, hout.fpu, twin, if_neg (hcurₜ ▸ hcur)]

theorem none_of_hidden (h : Schedule cfg slices) (hidden : Hidden cfg slices) :
    ∀ sl ∈ slices, sl.before.sched.next = none := by
  intro sl hsl
  obtain ⟨hs, hout⟩ := h.slice hsl
  refine (hout.current_eq_iff hs).1 ?_
  by_contra hne
  -- the process that is left fills the registers with something else
  obtain ⟨f, hf⟩ : ∃ f : Fin 64 → Word, f = fun i => sl.after.fpu i + 1#64 := ⟨_, rfl⟩
  have hrun := Outcome.run (s := { sl.before with fpu := f }) hs (hout.with_fpu f)
  have htwin : twin sl.before.sched.current f sl.before = { sl.before with fpu := f } := if_pos rfl
  rw [← htwin] at hrun
  have heq : f 0 = sl.after.fpu 0 := congrFun (hidden _ f sl hsl _ hrun hne) 0
  rw [hf] at heq
  bv_omega

/-- In a schedule the FPU registers of the processes are private, and each process gets back its own, if and only if no
event finds another process to switch to. -/
theorem fpu_private_iff (h : Schedule cfg slices) :
    Hidden cfg slices ∧ GivenBack slices ↔ ∀ sl ∈ slices, sl.before.sched.next = none := by
  refine ⟨fun hp => none_of_hidden h hp.1, fun hnone => ⟨hidden_of_none h hnone, ?_⟩⟩
  intro later earlier B front mid rest heq hbefore hafter _ _
  have hmem : earlier ∈ slices := by
    rw [heq]
    simp
  obtain ⟨hs, hout⟩ := h.slice hmem
  exact absurd (((hout.current_eq_iff hs).2 (hnone earlier hmem)).trans hbefore) hafter

end

/-- The root process before another one is registered. -/
def rootAlone : Machine Bool Unit :=
  { rootRunning with sched := (Sched.twoProcesses.register false).setStatus false .running }

theorem fpu_private_iff_rootAlone : Hidden rootAndOnePage.config [⟨rootAlone, ⟨true, 1#64, 0⟩, rootAlone⟩] ∧
      GivenBack [(⟨rootAlone, ⟨true, 1#64, 0⟩, rootAlone⟩ : Slice Bool Unit)] := by
  have hs : Sched.Inv rootAlone.sched :=
    Sched.Inv.construct (show (Sched.construct true false).run Sched.twoProcesses = .ok () _ from rfl)
  have hout : Outcome rootAndOnePage.config ⟨true, 1#64, 0⟩ rootAlone rootAlone := .stayed rfl
  refine (fpu_private_iff (.cons .nil hs (fun prev h => by cases h) (hout.run hs))).2 fun sl hsl => ?_
  rw [List.mem_singleton.1 hsl]
  rfl

/-- What the root process leaves in the FPU registers, the persistent process finds there. -/
theorem fpu_leaks_rootRunning : ∃ s1 s2, Schedule rootAndOnePage.config [⟨rootRunning, ⟨true, 1#64, 0⟩, s1⟩] ∧
    (interrupt rootAndOnePage.config ⟨true, 1#64, 0⟩).run (twin false (fun _ => 7#64) rootRunning) = .ok () s2 ∧
    s1.sched.current = true ∧ s2.sched.current = true ∧ s1.fpu 0 = 0#64 ∧ s2.fpu 0 = 7#64 := by
  obtain ⟨s', hout, hcur⟩ := outcome_rootRunning
  have hs := run_rootRunning.runInv.sched
  refine ⟨s', { s' with fpu := fun _ => 7#64 }, .cons .nil hs (fun prev h => by cases h) (hout.run hs), ?_,
    hcur, hcur, ?_, rfl⟩
  · exact (hout.with_fpu fun _ => 7#64).run hs
  · rw [hout.fpu]
    rfl

end Liumos.Switching
