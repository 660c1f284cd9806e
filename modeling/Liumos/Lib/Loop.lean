/-
Loops: a round ends with the state of the next round, with a result, or with an error. A loop is cut off after
a number of rounds with an error that no round gives.
-/
import Mathlib.Logic.Relation
import Mathlib.Tactic

namespace Loop

inductive Round (σ ρ : Type) where
  | again (s : σ)
  | done (r : ρ)

variable {σ ρ ε : Type}

/-- At most so many rounds. -/
def run (step : σ → Except ε (Round σ ρ)) (e : ε) : Nat → σ → Except ε ρ
  | 0, _ => .error e
  | n + 1, s =>
    match step s with
    | .ok (.again s) => run step e n s
    | .ok (.done r) => .ok r
    | .error e => .error e

/-- From one round to the next. -/
def Again (step : σ → Except ε (Round σ ρ)) (s s' : σ) : Prop := step s = .ok (.again s')

abbrev Reaches (step : σ → Except ε (Round σ ρ)) : σ → σ → Prop := Relation.ReflTransGen (Again step)

variable {step : σ → Except ε (Round σ ρ)} {e : ε} {s s' : σ}

theorem run_again (h : Again step s s') (n : Nat) : run step e (n + 1) s = run step e n s' := by
  rw [run, show step s = .ok (.again s') from h]

theorem run_done {r : ρ} (h : step s = .ok (.done r)) (n : Nat) : run step e (n + 1) s = .ok r := by
  rw [run, h]

/-- More rounds change nothing if there were enough. -/
theorem run_mono : ∀ {n m : Nat} {s : σ}, n ≤ m → run step e n s ≠ .error e → run step e m s = run step e n s
  | 0, _, _, _, h => absurd rfl h
  | n + 1, m + 1, s, hle, h => by
    rw [run] at h ⊢
    rw [run]
    split
    · rename_i s' hs
      rw [hs] at h
      exact run_mono (Nat.le_of_succ_le_succ hle) h
    · rfl
    · rfl

theorem run_of_reaches (h : Reaches step s s') : ∃ k, ∀ n, run step e (k + n) s = run step e n s' := by
  induction h using Relation.ReflTransGen.head_induction_on with
  | refl => exact ⟨0, fun n => by rw [Nat.zero_add]⟩
  | head hstep _ ih =>
    obtain ⟨k, hk⟩ := ih
    refine ⟨k + 1, fun n => ?_⟩
    rw [Nat.add_right_comm, run_again hstep, hk]

/-- A run that comes to a result, seen with any number of rounds. -/
theorem run_eq_of_done {r : ρ} (h : Reaches step s s') (hdone : step s' = .ok (.done r)) :
    ∃ k, ∀ n, k ≤ n → run step e n s = .ok r := by
  obtain ⟨k, hk⟩ := run_of_reaches (e := e) h
  refine ⟨k + 1, fun n hn => ?_⟩
  obtain ⟨m, rfl⟩ : ∃ m, n = k + (m + 1) := ⟨n - (k + 1), by omega⟩
  rw [hk, run_done hdone]

theorem run_error_or_done {r : ρ} (h : Reaches step s s') (hdone : step s' = .ok (.done r)) (n : Nat) :
    run step e n s = .error e ∨ run step e n s = .ok r := by
  by_cases hn : run step e n s = .error e
  · exact .inl hn
  · obtain ⟨k, hk⟩ := run_eq_of_done (e := e) h hdone
    have hmono := run_mono (Nat.le_max_left n k) hn
    exact .inr (hmono.symm.trans (hk _ (Nat.le_max_right n k)))

/-- What holds of every run that ends, if an invariant comes with a measure that every further round makes less. -/
theorem run_rule {I : σ → Prop} {μ : σ → Nat} {P : σ → Except ε ρ → Prop}
    (hagain : ∀ s s', I s → Again step s s' → I s' ∧ μ s' < μ s ∧ ∀ x, P s' x → P s x)
    (hdone : ∀ s r, I s → step s = .ok (.done r) → P s (.ok r))
    (herror : ∀ s e, I s → step s = .error e → P s (.error e)) :
    ∀ (n : Nat) {s : σ}, I s → μ s < n → P s (run step e n s)
  | n + 1, s, hinv, hn => by
    rw [run]
    split
    · rename_i s' hs
      obtain ⟨hinv', hlt, hback⟩ := hagain s s' hinv hs
      exact hback _ (run_rule hagain hdone herror n hinv' (by omega))
    · exact hdone s _ hinv ‹_›
    · exact herror s _ hinv ‹_›

/-- A loop that comes to a round that repeats itself never ends. -/
theorem run_of_reaches_stuck (h : Reaches step s s') (hstuck : Again step s' s') (n : Nat) :
    run step e n s = .error e := by
  have hforever : ∀ n, run step e n s' = .error e := by
    intro n
    induction n with
    | zero => rfl
    | succ n ih => rw [run_again hstuck, ih]
  by_contra hn
  obtain ⟨k, hk⟩ := run_of_reaches (e := e) h
  rw [← run_mono (Nat.le_add_left n k) hn, hk, hforever] at hn
  exact hn rfl

/-- If all rounds but those that repeat themselves make a measure less, a loop ends exactly if it comes to none of
those. -/
theorem ends_iff {I Stuck : σ → Prop} {μ : σ → Nat} (hstuck : ∀ s, Stuck s → Again step s s)
    (hagain : ∀ s s', I s → ¬ Stuck s → Again step s s' → I s' ∧ μ s' < μ s) (herror : ∀ s, I s → step s ≠ .error e)
    (hinv : I s) : (∃ n, run step e n s ≠ .error e) ↔ ∀ s', Reaches step s s' → ¬ Stuck s' := by
  constructor
  · rintro ⟨n, hn⟩ s' hs' hs
    exact hn (run_of_reaches_stuck hs' (hstuck s' hs) n)
  · intro h
    -- by the measure, along the run
    induction hm : μ s using Nat.strong_induction_on generalizing s with
    | _ m ih =>
      cases hs : step s with
      | error e' =>
        refine ⟨1, ?_⟩
        rw [run, hs]
        exact fun he => herror s hinv (hs.trans (by simpa using he))
      | ok round =>
        cases round with
        | done r => exact ⟨1, by rw [run_done hs]; exact nofun⟩
        | again s' =>
          obtain ⟨hinv', hlt⟩ := hagain s s' hinv (h s .refl) hs
          obtain ⟨n, hn⟩ := ih (μ s') (hm ▸ hlt) hinv' (fun s'' hs'' => h s'' (.head hs hs'')) rfl
          exact ⟨n + 1, by rwa [run_again hs]⟩

end Loop
