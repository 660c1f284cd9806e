/-
Recursive procedures. What a procedure does is a tree: it is done, with a result or an error, or it calls a
procedure and goes on with what that returns. Calls are cut off at a depth, with an error that no procedure
gives itself.
-/
import Mathlib.Logic.Relation
import Mathlib.Tactic

namespace Procedure

/-- What is to be done. A call of `k` returns a `ρ k`. -/
inductive Task (κ : Type) (ρ : κ → Type) (ε α : Type) where
  | done (r : Except ε α)
  | call (k : κ) (next : ρ k → Task κ ρ ε α)

variable {κ : Type} {ρ : κ → Type} {ε α β : Type}

namespace Task

protected def bind : Task κ ρ ε α → (α → Task κ ρ ε β) → Task κ ρ ε β
  | done (.ok a), f => f a
  | done (.error e), _ => done (.error e)
  | call k next, f => call k fun r => (next r).bind f

instance : Monad (Task κ ρ ε) where
  pure a := done (.ok a)
  bind := Task.bind

/-- The result, where `f` gives those of the calls. -/
def eval (f : ∀ k, Except ε (ρ k)) : Task κ ρ ε α → Except ε α
  | done r => r
  | call k next =>
    match f k with
    | .ok r => (next r).eval f
    | .error e => .error e

section

variable {f : ∀ k, Except ε (ρ k)} {k : κ} {next : ρ k → Task κ ρ ε α}

theorem eval_call_ok {r : ρ k} (h : f k = .ok r) : (call k next).eval f = (next r).eval f := by rw [eval, h]

theorem eval_call_error {e : ε} (h : f k = .error e) : (call k next).eval f = .error e := by rw [eval, h]

theorem eval_bind (g : α → Task κ ρ ε β) : ∀ t : Task κ ρ ε α, (t >>= g).eval f = t.eval f >>= fun a => (g a).eval f
  | done (.ok _) => rfl
  | done (.error _) => rfl
  | call k next => by
    show (call k fun r => next r >>= g).eval f = _
    cases h : f k with
    | error e =>
      rw [eval_call_error h, eval_call_error h]
      rfl
    | ok r =>
      rw [eval_call_ok h, eval_call_ok h]
      exact eval_bind g (next r)

end

end Task

/-! ## Runs -/

/-- A call of `k`, with calls at most so deep. -/
def run (body : ∀ k, Task κ ρ ε (ρ k)) (e : ε) : Nat → ∀ k, Except ε (ρ k)
  | 0, _ => .error e
  | n + 1, k => (body k).eval (run body e n)

variable (body : ∀ k, Task κ ρ ε (ρ k)) (e : ε)

/-- Some depth is enough for the result. -/
def Returns (t : Task κ ρ ε α) (a : α) : Prop := ∃ n, t.eval (run body e n) = .ok a

/-- The calls that are made in the course of a task. -/
inductive Enters : Task κ ρ ε α → κ → Prop
  | here {k : κ} {next : ρ k → Task κ ρ ε α} : Enters (.call k next) k
  | later {k k' : κ} {next : ρ k → Task κ ρ ε α} {r : ρ k} : Returns body e (body k) r → Enters (next r) k' →
      Enters (.call k next) k'

/-- The calls that are made in the course of a call. -/
def Calls (k k' : κ) : Prop := Enters body e (body k) k'

variable {body e}

theorem eval_mono {f g : ∀ k, Except ε (ρ k)} (h : ∀ k, f k ≠ .error e → g k = f k) : ∀ t : Task κ ρ ε α,
    t.eval f ≠ .error e → t.eval g = t.eval f
  | .done _, _ => rfl
  | .call k next, ht => by
    cases hf : f k with
    | error e' =>
      have hk : f k ≠ .error e := by
        intro he
        exact ht (Task.eval_call_error he)
      rw [Task.eval_call_error hf, Task.eval_call_error ((h k hk).trans hf)]
    | ok r =>
      rw [Task.eval_call_ok hf] at ht ⊢
      rw [Task.eval_call_ok ((h k (by rw [hf]; exact nofun)).trans hf)]
      exact eval_mono h (next r) ht

/-- More depth changes nothing if there was enough. -/
theorem run_mono : ∀ {n m : Nat}, n ≤ m → ∀ k, run body e n k ≠ .error e → run body e m k = run body e n k
  | 0, _, _, _, h => absurd rfl h
  | _ + 1, _ + 1, hle, k, h => eval_mono (run_mono (Nat.le_of_succ_le_succ hle)) (body k) h

variable {n : Nat} {t : Task κ ρ ε α} {a : α} {k : κ}

theorem eval_run_mono {m : Nat} (hle : n ≤ m) (t : Task κ ρ ε α) (h : t.eval (run body e n) ≠ .error e) :
    t.eval (run body e m) = t.eval (run body e n) := eval_mono (run_mono hle) t h

/-! ## Results -/

theorem Returns.at_least (h : Returns body e t a) : ∃ n, ∀ m ≥ n, t.eval (run body e m) = .ok a := by
  obtain ⟨n, hn⟩ := h
  refine ⟨n, fun m hm => ?_⟩
  rw [eval_run_mono hm t (by rw [hn]; exact nofun), hn]

theorem returns_pure (a : α) : Returns body e (pure a) a := ⟨0, rfl⟩

theorem Returns.bind {f : α → Task κ ρ ε β} {b : β} (ht : Returns body e t a) (hf : Returns body e (f a) b) :
    Returns body e (t >>= f) b := by
  obtain ⟨n, hn⟩ := ht.at_least
  obtain ⟨m, hm⟩ := hf.at_least
  refine ⟨max n m, ?_⟩
  rw [Task.eval_bind, hn _ (Nat.le_max_left n m)]
  exact hm _ (Nat.le_max_right n m)

theorem Returns.call {k : κ} {r : ρ k} (h : Returns body e (body k) r) :
    Returns body e (.call k fun r => pure r) r := by
  obtain ⟨n, hn⟩ := h
  refine ⟨n + 1, ?_⟩
  exact Task.eval_call_ok hn

theorem Returns.run_eq {r : ρ k} (h : Returns body e (body k) r) : ∃ n, ∀ m ≥ n, run body e m k = .ok r := by
  obtain ⟨n, hn⟩ := h.at_least
  refine ⟨n + 1, fun m hm => ?_⟩
  obtain ⟨m, rfl⟩ : ∃ m', m = m' + 1 := ⟨m - 1, by omega⟩
  exact hn m (by omega)

/-! ## What is called, and what is returned -/

/-- All calls are in `C`, the result is in `Q` if calls return what is in `R`, and no error is `e`. -/
def Within (e : ε) (C : κ → Prop) (R : ∀ k, ρ k → Prop) (Q : α → Prop) : Task κ ρ ε α → Prop
  | .done (.ok a) => Q a
  | .done (.error e') => e' ≠ e
  | .call k next => C k ∧ ∀ r, R k r → Within e C R Q (next r)

section

variable {C : κ → Prop} {R : ∀ k, ρ k → Prop} {Q : α → Prop}

theorem Within.bind {Q' : β → Prop} {f : α → Task κ ρ ε β} (hf : ∀ a, Q a → Within e C R Q' (f a)) :
    ∀ {t : Task κ ρ ε α},
    Within e C R Q t → Within e C R Q' (t >>= f)
  | .done (.ok a), h => hf a h
  | .done (.error _), h => h
  | .call _ _, ⟨hk, hnext⟩ => ⟨hk, fun r hr => (hnext r hr).bind hf⟩

theorem Within.mono {Q' : α → Prop} (hQ : ∀ a, Q a → Q' a) : ∀ {t : Task κ ρ ε α}, Within e C R Q t → Within e C R Q' t
  | .done (.ok a), h => hQ a h
  | .done (.error _), h => h
  | .call _ _, ⟨hk, hnext⟩ => ⟨hk, fun r hr => (hnext r hr).mono hQ⟩

theorem Within.eval {f : ∀ k, Except ε (ρ k)} (hf : ∀ k r, f k = .ok r → R k r) {a : α} : ∀ {t : Task κ ρ ε α},
    Within e C R Q t → t.eval f = .ok a → Q a
  | .done _, h, rfl => h
  | .call k next, ⟨_, hnext⟩, ha => by
    cases hk : f k with
    | error e' =>
      rw [Task.eval_call_error hk] at ha
      cases ha
    | ok r =>
      rw [Task.eval_call_ok hk] at ha
      exact (hnext r (hf k r hk)).eval hf ha

theorem Within.enters (hR : ∀ k r, Returns body e (body k) r → R k r) {t : Task κ ρ ε α} {k : κ} (h : Within e C R Q t)
    (hk : Enters body e t k) : C k := by
  induction hk with
  | here => exact h.1
  | later hr _ ih => exact ih (h.2 _ (hR _ _ hr))

/-- A task ends if its calls do. -/
theorem Within.ends (hR : ∀ k r, Returns body e (body k) r → R k r) : ∀ {t : Task κ ρ ε α}, Within e C R Q t →
    (∀ k, Enters body e t k → ∃ n, run body e n k ≠ .error e) → ∃ n, t.eval (run body e n) ≠ .error e
  | .done (.ok _), _, _ => ⟨0, nofun⟩
  | .done (.error _), h, _ => ⟨0, fun he => h (Except.error.inj he)⟩
  | .call k next, ⟨_, hnext⟩, hends => by
    obtain ⟨n, hn⟩ := hends k .here
    cases hr : run body e n k with
    | error e' =>
      refine ⟨n, fun he => hn ?_⟩
      rw [Task.eval_call_error hr] at he
      rw [hr, Except.error.inj he]
    | ok r =>
      have hreturns : Returns body e (body k) r := by
        cases n with
        | zero => cases hr
        | succ n => exact ⟨n, hr⟩
      obtain ⟨m, hm⟩ := (hnext r (hR k r hreturns)).ends hR fun k' hk' => hends k' (.later hreturns hk')
      refine ⟨max n m, ?_⟩
      rw [Task.eval_call_ok ((run_mono (Nat.le_max_left n m) k hn).trans hr)]
      rwa [eval_run_mono (Nat.le_max_right n m) (next r) hm]

end

/-! ## Ends of calls -/

/-- A task does not end before the calls that are made in its course. -/
theorem Enters.ends (hk : Enters body e t k) (h : t.eval (run body e n) ≠ .error e) : run body e n k ≠ .error e := by
  induction hk with
  | here => exact fun hn => h (Task.eval_call_error hn)
  | @later k k' next r hr _ ih =>
    have hn : run body e n k ≠ .error e := fun hn => h (Task.eval_call_error hn)
    -- what the call returns at some depth it returns here
    obtain ⟨m, hm⟩ := hr.run_eq
    have hr' : run body e n k = .ok r := (run_mono (Nat.le_max_left n m) k hn).symm.trans (hm _ (Nat.le_max_right n m))
    rw [Task.eval_call_ok hr'] at h
    exact ih h

/-- Calls that lead to one another never end. -/
theorem run_of_stuck {Stuck : κ → Prop} (hstuck : ∀ k, Stuck k → ∃ k', Calls body e k k' ∧ Stuck k') : ∀ n k, Stuck k →
    run body e n k = .error e
  | 0, _, _ => rfl
  | n + 1, k, hk => by
    obtain ⟨k', hcalls, hk'⟩ := hstuck k hk
    by_contra hn
    exact hcalls.ends hn (run_of_stuck hstuck n k' hk')

theorem ends_of_reaches {k' : κ} (h : ∃ n, run body e n k ≠ .error e)
    (hreaches : Relation.ReflTransGen (Calls body e) k k') : ∃ n, run body e n k' ≠ .error e := by
  induction hreaches with
  | refl => exact h
  | tail _ hcalls ih =>
    obtain ⟨_ | n, hn⟩ := ih
    · exact absurd rfl hn
    · exact ⟨n, hcalls.ends hn⟩

section

variable {Stuck : κ → Prop} {R : ∀ k, ρ k → Prop} {μ : κ → Nat}
  (hstuck : ∀ k, Stuck k → ∃ k', Calls body e k k' ∧ Stuck k')
  (hwithin : ∀ k, ¬ Stuck k → Within e (fun k' => μ k' < μ k) R (R k) (body k))

include hstuck hwithin

theorem returns_in : ∀ k r, Returns body e (body k) r → R k r := by
  have hrun : ∀ n k r, run body e n k = .ok r → R k r := by
    intro n
    induction n with
    | zero => exact nofun
    | succ n ih =>
      intro k r hr
      by_cases hk : Stuck k
      · rw [run_of_stuck hstuck _ k hk] at hr
        cases hr
      · exact (hwithin k hk).eval (ih ·) hr
  exact fun k r ⟨n, hn⟩ => hrun (n + 1) k r hn

/-- If all calls but those that lead to one another make a measure less, a call ends exactly if it comes to none of
those. -/
theorem ends_iff (k : κ) :
    (∃ n, run body e n k ≠ .error e) ↔ ∀ k', Relation.ReflTransGen (Calls body e) k k' → ¬ Stuck k' := by
  have hreturns := returns_in hstuck hwithin
  constructor
  · intro hk k' hreaches hk'
    obtain ⟨n, hn⟩ := ends_of_reaches hk hreaches
    exact hn (run_of_stuck hstuck n k' hk')
  · intro h
    -- by the measure, along the calls
    induction hm : μ k using Nat.strong_induction_on generalizing k with
    | _ m ih =>
      have hk := hwithin k (h k .refl)
      obtain ⟨n, hn⟩ := hk.ends hreturns fun k' hk' =>
        ih (μ k') (hm ▸ hk.enters hreturns hk') k' (fun k'' hk'' => h k'' (.head hk' hk'')) rfl
      exact ⟨n + 1, hn⟩

/-- Then it is also the same that all calls it comes to make the measure less. -/
theorem decreases_iff (k : κ) :
    (∀ k1 k2, Relation.ReflTransGen (Calls body e) k k1 → Calls body e k1 k2 → μ k2 < μ k1) ↔
      ∀ k', Relation.ReflTransGen (Calls body e) k k' → ¬ Stuck k' := by
  constructor
  · intro h k' hreaches hk'
    induction hm : μ k' using Nat.strong_induction_on generalizing k' with
    | _ m ih =>
      obtain ⟨k'', hcalls, hk''⟩ := hstuck k' hk'
      exact ih (μ k'') (hm ▸ h k' k'' hreaches hcalls) k'' (hreaches.tail hcalls) hk'' rfl
  · exact fun h k1 k2 hreaches hcalls => (hwithin k1 (h k1 hreaches)).enters (returns_in hstuck hwithin) hcalls

end

end Procedure
