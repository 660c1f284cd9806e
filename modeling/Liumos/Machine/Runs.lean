/-
Calls made one after the other, with what holds after each of them and what holds before each of them. When the
calls that find `Q` return and keep an invariant, and the others do not lead to `P`, then `P` holds after each
call exactly if `Q` holds before each call.
-/
import Liumos.Machine.Basic

namespace Liumos

section

variable {σ ι : Type} {exec : ι → KM σ Unit} {P : σ → Prop} {Q : ι → σ → Prop} {op : ι} {ops : List ι} {s t : σ}

/-- All calls return, and `P` holds at the beginning and after each of them. -/
def AfterEach (exec : ι → KM σ Unit) (P : σ → Prop) (ops : List ι) (s : σ) : Prop :=
  ∀ i, ∃ t, ((ops.take i).forM exec).run s = .ok () t ∧ P t

/-- `Q` holds of each call that is reached and the state it is made in. -/
def BeforeEach (exec : ι → KM σ Unit) (Q : ι → σ → Prop) (ops : List ι) (s : σ) : Prop :=
  ∀ i op t, ops[i]? = some op → ((ops.take i).forM exec).run s = .ok () t → Q op t

theorem run_take_cons (hrun : (exec op).run s = .ok () t) (i : Nat) :
    (((op :: ops).take (i + 1)).forM exec).run s = ((ops.take i).forM exec).run t := run_bind_eq hrun

theorem afterEach_cons (hs : P s) (hrun : (exec op).run s = .ok () t) :
    AfterEach exec P (op :: ops) s ↔ AfterEach exec P ops t := by
  constructor
  · intro h i
    obtain ⟨u, hu, hP⟩ := h (i + 1)
    exact ⟨u, (run_take_cons hrun i).symm.trans hu, hP⟩
  · intro h i
    cases i with
    | zero => exact ⟨s, rfl, hs⟩
    | succ i =>
      obtain ⟨u, hu, hP⟩ := h i
      exact ⟨u, (run_take_cons hrun i).trans hu, hP⟩

theorem AfterEach.first (h : AfterEach exec P (op :: ops) s) : ∃ t, (exec op).run s = .ok () t ∧ P t := by
  obtain ⟨t, hrun, hP⟩ := h 1
  obtain ⟨_, u, hop, hnil⟩ := run_bind_ok hrun
  rw [(run_pure_ok hnil).2] at hop
  exact ⟨t, hop, hP⟩

theorem beforeEach_cons (hrun : (exec op).run s = .ok () t) :
    BeforeEach exec Q (op :: ops) s ↔ Q op s ∧ BeforeEach exec Q ops t := by
  constructor
  · intro h
    exact ⟨h 0 op s rfl rfl, fun i op' u hop hu => h (i + 1) op' u hop ((run_take_cons hrun i).trans hu)⟩
  · rintro ⟨hop, h⟩ i op' u hop' hu
    cases i with
    | zero =>
      cases hop'
      cases hu
      exact hop
    | succ i => exact h i op' u hop' ((run_take_cons hrun i).symm.trans hu)

/-- The invariant `I` is about the state and the calls that are still to come. -/
theorem afterEach_iff_beforeEach {I : List ι → σ → Prop} (hI : ∀ ops s, I ops s → P s)
    (hgood : ∀ op ops s, I (op :: ops) s → Q op s → ∃ t, (exec op).run s = .ok () t ∧ I ops t)
    (hbad : ∀ op ops s, I (op :: ops) s → ¬Q op s → ∀ t, (exec op).run s = .ok () t → ¬P t) :
    ∀ ops s, I ops s → (AfterEach exec P ops s ↔ BeforeEach exec Q ops s) := by
  intro ops
  induction ops with
  | nil =>
    intro s hs
    refine iff_of_true (fun i => ⟨s, ?_, hI [] s hs⟩) fun i op t hop => ?_
    · rw [List.take_nil]
      rfl
    · cases hop
  | cons op ops ih =>
    intro s hs
    by_cases hop : Q op s
    · obtain ⟨t, hrun, ht⟩ := hgood op ops s hs hop
      rw [afterEach_cons (hI _ s hs) hrun, beforeEach_cons hrun, ih t ht]
      exact (and_iff_right hop).symm
    · refine iff_of_false (fun hall => ?_) fun hall => hop (hall 0 op s rfl rfl)
      obtain ⟨t, hrun, hP⟩ := hall.first
      exact hbad op ops s hs hop t hrun hP

end

end Liumos
