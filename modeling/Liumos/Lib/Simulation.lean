/-
Machines that answer every operation: a state, and a step that gives an answer and the next state. A
relation that every step keeps, with the same answers, makes the answers of whole runs the same.
-/
import Mathlib.Logic.Basic

namespace Simulation

variable {Op Out S T : Type}

/-- The answers to a sequence of operations, and the state after it. -/
def run (step : Op → S → Out × S) : List Op → S → List Out × S
  | [], s => ([], s)
  | op :: ops, s => ((step op s).1 :: (run step ops (step op s).2).1, (run step ops (step op s).2).2)

variable {step : Op → S → Out × S} {step' : Op → T → Out × T} {R : S → T → Prop}

/-- What every step keeps, every run keeps. -/
theorem run_related (hstep : ∀ op s t, R s t → (step op s).1 = (step' op t).1 ∧ R (step op s).2 (step' op t).2) :
    ∀ (ops : List Op) {s : S} {t : T}, R s t → (run step ops s).1 = (run step' ops t).1 ∧
      R (run step ops s).2 (run step' ops t).2
  | [], _, _, h => ⟨rfl, h⟩
  | op :: ops, s, t, h => by
    obtain ⟨hout, hnext⟩ := hstep op s t h
    obtain ⟨houts, hlast⟩ := run_related hstep ops hnext
    refine ⟨?_, hlast⟩
    rw [run, run, hout, houts]

end Simulation
