/-
Round robin: between two selections of a process, `SwitchProcess` selects every other process that sleeps all
the while. The scan starts behind the slot of `current_`, so from selection to selection the slot of `current_`
moves along the table towards the slot of a process that waits, and never past it. A slot that is added is added
at the end, and one that is reused holds a stopped process, so the waiting process keeps its place.
Sources: scheduler.h, scheduler.cc, process.cc (`Kill`).
-/
import Liumos.Sched.Capacity

namespace Liumos.Sched

open List Nat

variable {α : Type} {s s' : Scheduler α} {p q : α}

/-! ## The scan of `SwitchProcess` -/

/-- In round `k`, the scan from round `i` on comes to the first process that sleeps, which is `p`. -/
structure Scheduler.FirstAt (s : Scheduler α) (b i k : Nat) (p : α) : Prop where
  le : i ≤ k
  slot : s.table[(b + k) % s.table.length]? = some p
  first : ∀ k' q, i ≤ k' → k' < k → s.table[(b + k') % s.table.length]? = some q → (s.procs q).status ≠ .sleeping

/-- A round that does not end the scan. -/
theorem Scheduler.FirstAt.pred {b i k : Nat} (h : s.FirstAt b (i + 1) k p)
    (hi : ∀ q, s.table[(b + i) % s.table.length]? = some q → (s.procs q).status ≠ .sleeping) : s.FirstAt b i k p where
  le := le_of_succ_le h.le
  slot := h.slot
  first k' q hk' hk hq := by
    rcases eq_or_lt_of_le hk' with rfl | hlt
    · exact hi q hq
    · exact h.first k' q hlt hk hq

theorem nextSleeping_first {b : Nat} : ∀ {n i : Nat}, s.nextSleeping b n i = some p → ∃ k < i + n, s.FirstAt b i k p
  | 0, _, h => by cases h
  | n + 1, i, h => by
    rw [Scheduler.nextSleeping] at h
    split at h
    · rename_i hslot
      obtain ⟨k, hk, hfirst⟩ := nextSleeping_first h
      refine ⟨k, by omega, hfirst.pred fun q hq => ?_⟩
      rw [hslot] at hq
      cases hq
    · rename_i proc hslot
      split at h
      · cases h
        exact ⟨i, by omega, le_rfl, hslot, fun k' q h1 h2 => by omega⟩
      · rename_i hst
        obtain ⟨k, hk, hfirst⟩ := nextSleeping_first h
        refine ⟨k, by omega, hfirst.pred fun q hq => ?_⟩
        rw [hslot] at hq
        cases hq
        exact hst

/-- Slot `c` is on the way from slot `a` on, around the end of the table if need be, to slot `j`. -/
def OnTheWay (a j c : Nat) : Prop := (a < j → a ≤ c ∧ c < j) ∧ (j < a → a ≤ c ∨ c < j)

/-- A step along the table that does not reach `j` goes on towards it, and not back to `a`. -/
theorem OnTheWay.step {a j c k n : Nat} (h : OnTheWay a j c) (haj : a ≠ j) (hc : c < n) (hj : j < n) (hk0 : 0 < k)
    (hkn : k < n) (hk : ∀ d, d ≤ k → (c + d) % n ≠ j) : OnTheWay a j ((c + k) % n) ∧ (c + k) % n ≠ a := by
  have hmod : ∀ d < n, (c + d) % n = if n ≤ c + d then c + d - n else c + d := by
    intro d hd
    rw [add_mod_eq_ite, mod_eq_of_lt hc, mod_eq_of_lt hd]
  have hfar : ∀ d < n, d ≤ k → (if n ≤ c + d then c + d - n else c + d) ≠ j := fun d hd hdk => by
    rw [← hmod d hd]
    exact hk d hdk
  -- `j` is ahead of `c`, or behind it and reached around the end
  have hahead := hfar (j - c)
  have hbehind := hfar (n - c + j)
  rw [hmod k hkn]
  unfold OnTheWay at h ⊢
  split_ifs at * with hlt <;> omega

/-! ## Slots of processes -/

variable [DecidableEq α] {op : Op α} {r : Option α}

/-- Marked by a status other than `notScheduled`, a process keeps its slot. -/
structure Placed (s s' : Scheduler α) (q : α) : Prop where
  index : (s'.procs q).schedulerIndex = (s.procs q).schedulerIndex
  scheduled : (s'.procs q).status ≠ .notScheduled

theorem placed_setStatus {st : Status} (hst : (s.procs p).status ≠ .notScheduled → st ≠ .notScheduled)
    (hq : (s.procs q).status ≠ .notScheduled) : Placed s (s.setStatus p st) q where
  index := setStatus_schedulerIndex st
  scheduled := by
    rw [setStatus_status]
    split_ifs with hp
    · exact hst (hp ▸ hq)
    · exact hq

theorem killed_ne {st : Status} (h : st ≠ .notScheduled) : st.killed ≠ .notScheduled := by
  cases st <;> first | exact h | exact nofun

theorem suspended_ne {st : Status} (h : st ≠ .notScheduled) : st.suspended ≠ .notScheduled := by
  cases st <;> first | exact h | exact nofun

section

variable (hq : (s.procs q).status ≠ .notScheduled)

include hq

theorem placed_killProcess : Placed s (s.killProcess p) q := by
  rw [killProcess_eq]
  exact placed_setStatus killed_ne hq

theorem placed_resume : Placed s (s.resume p) q := by
  have h1 : Placed s s.suspendCurrent q := by
    rw [suspendCurrent_eq]
    exact placed_setStatus suspended_ne hq
  have h2 := placed_setStatus (p := p) (fun _ => show Status.running ≠ .notScheduled by decide) h1.scheduled
  exact ⟨h2.index.trans h1.index, h2.scheduled⟩

end

theorem placed_register (hp : (s.procs p).status = .notScheduled) (hq : (s.procs q).status ≠ .notScheduled) :
    Placed s (s.register p) q := by
  have hne : q ≠ p := by
    rintro rfl
    exact hq hp
  have hprocs := register_procs_of_ne (s := s) hne
  exact ⟨by rw [hprocs], by rwa [hprocs]⟩

theorem Effect.placed (he : Effect s op r s') (hq : (s.procs q).status ≠ .notScheduled) : Placed s s' q := by
  cases he with
  | register _ hp => exact placed_register hp hq
  | switched _ => exact placed_resume hq
  | stayed _ => exact ⟨rfl, hq⟩
  | kill pid =>
    unfold Scheduler.killPid
    split
    · exact placed_killProcess hq
    · exact ⟨rfl, hq⟩
  | killCurrent => exact placed_killProcess hq

/-- An operation other than a switch leaves `current_` as it is. -/
theorem Effect.current_eq (he : Effect s op r s') :
    s'.current = s.current ∨ ∃ p, s.next = some p ∧ s' = s.resume p := by
  cases he with
  | register _ _ =>
    left
    unfold Scheduler.register
    split <;> rfl
  | switched hn => exact .inr ⟨_, hn, rfl⟩
  | stayed _ => exact .inl rfl
  | kill pid =>
    left
    unfold Scheduler.killPid
    split
    · exact killProcess_current
    · rfl
  | killCurrent => exact .inl killProcess_current

/-- A process that sleeps has a slot. -/
def Listed (s : Scheduler α) : Prop := ∀ q, (s.procs q).status = .sleeping → q ∈ s.table

theorem Listed.killProcess (h : Listed s) (p : α) : Listed (s.killProcess p) := by
  intro q hq
  rw [killProcess_eq, setStatus_status] at hq
  rw [killProcess_table]
  refine h q ?_
  split_ifs at hq with hp
  · cases hst : (s.procs p).status <;> rw [hst] at hq <;> cases hq
  · exact hq

theorem Listed.resume (h : Listed s) (hinv : Inv s) (p : α) : Listed (s.resume p) := by
  intro q hq
  show q ∈ s.suspendCurrent.table
  rw [suspendCurrent_table]
  change ((s.suspendCurrent.setStatus p .running).procs q).status = _ at hq
  rw [suspendCurrent_eq, setStatus_status, setStatus_status] at hq
  split_ifs at hq with hp hc
  · rw [hc]
    exact hinv.current_mem
  · exact h q hq

theorem Listed.register (h : Listed s) (hp : (s.procs p).status = .notScheduled) : Listed (s.register p) := by
  intro q hq
  by_cases hqp : q = p
  · subst hqp
    unfold Scheduler.register
    split
    · rename_i i hi
      exact mem_set (findIdx?_eq_some_iff_getElem.1 hi).1 _
    · exact mem_append_right _ (mem_singleton_self _)
  · rw [register_procs_of_ne hqp] at hq
    -- its slot is not that of a stopped process
    obtain ⟨i, hi⟩ := getElem?_of_mem (h q hq)
    exact mem_of_getElem? (register_slot hi (by rw [hq]; decide))

theorem Listed.effect (h : Listed s) (hinv : Inv s) (he : Effect s op r s') : Listed s' := by
  cases he with
  | register _ hp => exact h.register hp
  | switched _ => exact h.resume hinv _
  | stayed _ => exact h
  | kill pid =>
    unfold Scheduler.killPid
    split
    · exact h.killProcess _
    · exact h
  | killCurrent => exact h.killProcess _

/-! ## Waiting -/

/-- `q` sleeps in every state of a run; so it is not selected, as `SwitchProcess` would make it `running`. -/
inductive Sleeps (q : α) (s : Scheduler α) : Scheduler α → Prop
  | refl : (s.procs q).status = .sleeping → Sleeps q s s
  | step {s' s'' : Scheduler α} {r : Option α} (multi : Bool) (op : Op α) : Sleeps q s s' →
      (op.exec multi).run s' = .ok r s'' → (s''.procs q).status = .sleeping → Sleeps q s s''

/-- `q` waits in slot `j`, and `current_` is on the way to it from slot `a` on. -/
structure Waits (a j : Nat) (q : α) (s : Scheduler α) : Prop where
  inv : Inv s
  listed : Listed s
  sleeping : (s.procs q).status = .sleeping
  index : (s.procs q).schedulerIndex = j
  way : OnTheWay a j (s.procs s.current).schedulerIndex

theorem Sleeps.start (h : Sleeps q s s') : (s.procs q).status = .sleeping := by
  induction h with
  | refl h => exact h
  | step _ _ _ _ _ ih => exact ih

omit [DecidableEq α] in
/-- While `q` waits, a switch to another process goes on towards `q`, and not back to slot `a`. -/
theorem Waits.next {a j : Nat} (h : Waits a j q s) (haj : a ≠ j) (hn : s.next = some p) (hpq : p ≠ q) :
    OnTheWay a j (s.procs p).schedulerIndex ∧ (s.procs p).schedulerIndex ≠ a := by
  obtain ⟨k, hk, hfirst⟩ := nextSleeping_first hn
  obtain ⟨i, hi⟩ := List.getElem?_of_mem (h.listed q h.sleeping)
  have hij : i = j := (h.inv.index i q hi).symm.trans h.index
  subst hij
  have hc := (List.getElem?_eq_some_iff.1 h.inv.current).1
  have hj := (List.getElem?_eq_some_iff.1 hi).1
  have hle := hfirst.le
  rw [h.inv.index _ p hfirst.slot]
  refine h.way.step haj hc hj (by omega) (by omega) fun d hd hdj => ?_
  have hslot : s.table[((s.procs s.current).schedulerIndex + d) % s.table.length]? = some q := by rw [hdj, hi]
  rcases Nat.eq_zero_or_pos d with rfl | hpos
  · -- the slot of `current_`, which does not sleep
    rw [add_zero, mod_eq_of_lt hc, h.inv.current] at hslot
    rw [← Option.some_inj.1 hslot] at h
    exact h.inv.not_sleeping h.sleeping
  · rcases eq_or_lt_of_le hd with rfl | hlt
    · rw [hfirst.slot] at hslot
      exact hpq (Option.some_inj.1 hslot)
    · exact hfirst.first d q hpos hlt hslot h.sleeping

theorem Waits.effect {a j : Nat} (h : Waits a j q s) (haj : a ≠ j) (he : Effect s op r s')
    (hq : (s'.procs q).status = .sleeping) : Waits a j q s' where
  inv := h.inv.effect he
  listed := h.listed.effect h.inv he
  sleeping := hq
  index := (he.placed (by rw [h.sleeping]; decide)).index.trans h.index
  way := by
    rcases he.current_eq with hcur | ⟨p, hn, rfl⟩
    · rw [hcur, (he.placed (h.inv.scheduled h.inv.current_mem)).index]
      exact h.way
    · obtain ⟨hp, -⟩ := nextSleeping_some hn
      show OnTheWay a j ((s.resume p).procs p).schedulerIndex
      rw [(he.placed (h.inv.scheduled hp)).index]
      refine (h.next haj hn ?_).1
      -- the process that is made current does not sleep
      rintro rfl
      exact (h.inv.effect he).not_sleeping hq

theorem Waits.sleeps {a j : Nat} (h : Waits a j q s) (haj : a ≠ j) (hs : Sleeps q s s') : Waits a j q s' := by
  induction hs with
  | refl _ => exact h
  | step multi op _ hrun hq ih => exact ih.effect haj ((exec_iff multi ih.inv.unlocked).1 hrun) hq

theorem Sleeps.placed (hinv : Inv s) (hs : Sleeps q s s') (hp : (s.procs p).status ≠ .notScheduled) :
    Placed s s' p := by
  suffices h : Inv s' ∧ Placed s s' p from h.2
  induction hs with
  | refl _ => exact ⟨hinv, rfl, hp⟩
  | step multi op _ hrun _ ih =>
    have he := (exec_iff multi ih.1.unlocked).1 hrun
    have hplaced := he.placed ih.2.scheduled
    exact ⟨ih.1.effect he, hplaced.index.trans ih.2.index, hplaced.scheduled⟩

omit [DecidableEq α] in
/-- A process that sleeps waits for `current_` to come around to it. -/
theorem waits_of_sleeping (hinv : Inv s) (hlisted : Listed s) (hq : (s.procs q).status = .sleeping) :
    (s.procs s.current).schedulerIndex ≠ (s.procs q).schedulerIndex ∧
      Waits (s.procs s.current).schedulerIndex (s.procs q).schedulerIndex q s := by
  refine ⟨fun hidx => ?_, hinv, hlisted, hq, rfl, fun h => ⟨le_rfl, h⟩, fun _ => .inl le_rfl⟩
  obtain ⟨i, hi⟩ := getElem?_of_mem (hlisted q hq)
  have hcur := hinv.current
  rw [hidx, hinv.index i q hi, hi] at hcur
  rw [Option.some_inj.1 hcur] at hq
  exact hinv.not_sleeping hq

/-! ## Runs -/

theorem Listed.construct {multi : Bool} {u : Unit} (hfresh : ∀ q, (s.procs q).status ≠ .sleeping)
    (h : (construct multi p).run s = .ok u s') : Listed s' := by
  obtain ⟨hst, rfl⟩ := construct_ok h
  intro q hq
  rw [setStatus_status] at hq
  split_ifs at hq
  exact Listed.register (s := { s with table := [], current := p, lockedByPid := 0#64 })
    (fun q hq => absurd hq (hfresh q)) hst q hq

theorem Listed.steps (h : Listed s) (hinv : Inv s) (hs : Steps s s') : Listed s' := by
  induction hs with
  | refl => exact h
  | step multi op hs hrun ih =>
    have hinv' := hinv.steps hs
    exact ih.effect hinv' ((exec_iff multi hinv'.unlocked).1 hrun)

/-- No overtaking, in every run of a constructed scheduler (a process sleeps only once it is registered): after
`SwitchProcess` selected `p`, it does not select `p` again as long as another process sleeps all the while. -/
theorem switchProcess_no_overtaking {s0 s s' s1 s2 : Scheduler α} {root : α} {multi multi1 multi2 : Bool}
    (hfresh : ∀ q, (s0.procs q).status ≠ .sleeping) (hroot : (construct multi root).run s0 = .ok () s) (hs : Steps s s')
    (hsel : (switchProcess multi1).run s' = .ok (some p) s1) (hq : Sleeps q s1 s2) (s3 : Scheduler α) :
    (switchProcess multi2).run s2 ≠ .ok (some p) s3 := by
  intro hagain
  have hinv := (Inv.construct hroot).steps hs
  have hlisted := (Listed.construct hfresh hroot).steps (Inv.construct hroot) hs
  have he : Effect s' .switchProcess (some p) s1 := (exec_iff multi1 hinv.unlocked).1 hsel
  have hinv1 := hinv.effect he
  obtain ⟨hne, hwaits⟩ := waits_of_sleeping hinv1 (hlisted.effect hinv he) hq.start
  have hwaits2 := hwaits.sleeps hne hq
  have he2 : Effect s2 .switchProcess (some p) s3 := (exec_iff multi2 hwaits2.inv.unlocked).1 hagain
  cases he with
  | switched hn =>
    cases he2 with
    | switched hn2 =>
      -- the slot of `p` is the one `current_` has moved away from
      have hslot := (hq.placed hinv1 (hinv1.scheduled hinv1.current_mem)).index
      refine (hwaits2.next hne hn2 ?_).2 hslot
      rintro rfl
      exact hinv1.not_sleeping hq.start

/-- Of the processes 1, 2 and 3, 1 is selected. Then process 4 is registered, the root process is killed and 2 is
selected, while 3 sleeps: 1 is not the next one. -/
theorem switchProcess_no_overtaking_four : ∃ s s' s1 s2, (construct true 0).run noProcess = .ok () s ∧ Steps s s' ∧
    (switchProcess true).run s' = .ok (some 1) s1 ∧ Sleeps 3 s1 s2 ∧ s2.current = 2 ∧
    ∀ s3, (switchProcess true).run s2 ≠ .ok (some 1) s3 := by
  have hfresh : ∀ q, (noProcess.procs q).status ≠ .sleeping := fun _ => (nofun : Status.notScheduled ≠ .sleeping)
  have hs := steps_filled 3 (by omega)
  have hsel : (switchProcess true).run (filled 3) = .ok (some 1) ((filled 3).resume 1) := rfl
  have hq := Sleeps.refl (q := 3) (s := (filled 3).resume 1) rfl |>.step true (.register 4) rfl rfl
    |>.step true (.kill 1#64) rfl rfl |>.step true .switchProcess rfl rfl
  exact ⟨_, _, _, _, construct_noProcess, hs, hsel, hq, rfl,
    switchProcess_no_overtaking hfresh construct_noProcess hs hsel hq⟩

end Liumos.Sched
