/-
How kernel computations end: `Settles x s Q E` says that the run of `x` from `s` returns with `Q`, or panics
with `E`. For `Yields E x s Q` the state in which it panics does not matter.
-/
import Liumos.Machine.Basic

namespace Liumos

section

variable {σ α β : Type} {x : KM σ α} {s s' t : σ} {Q Q' : α → σ → Prop} {R : β → σ → Prop} {f : α → KM σ β} {a : α}
  {e : Panic}

def Settles (x : KM σ α) (s : σ) (Q : α → σ → Prop) (E : Panic → σ → Prop) : Prop :=
  match x.run s with
  | .ok a s' => Q a s'
  | .error e s' => E e s'

section

variable {E E' : Panic → σ → Prop}

theorem Settles.of_ok (h : Settles x s Q E) (hr : x.run s = .ok a s') : Q a s' := by
  unfold Settles at h
  rw [hr] at h
  exact h

theorem Settles.of_error (h : Settles x s Q E) (hr : x.run s = .error e s') : E e s' := by
  unfold Settles at h
  rw [hr] at h
  exact h

theorem settles_iff :
    Settles x s Q E ↔ (∀ a s', x.run s = .ok a s' → Q a s') ∧ ∀ e s', x.run s = .error e s' → E e s' := by
  refine ⟨fun h => ⟨fun _ _ => h.of_ok, fun _ _ => h.of_error⟩, fun h => ?_⟩
  unfold Settles
  cases hr : x.run s with
  | ok a s' => exact h.1 a s' hr
  | error e s' => exact h.2 e s' hr

theorem Settles.mono (h : Settles x s Q E) (hQ : ∀ a s', Q a s' → Q' a s') (hE : ∀ e s', E e s' → E' e s') :
    Settles x s Q' E' :=
  settles_iff.2 ⟨fun a s' hr => hQ a s' (h.of_ok hr), fun e s' hr => hE e s' (h.of_error hr)⟩

/-- A step that is known to return. -/
theorem settles_run_bind (hr : x.run s = .ok a t) (h : Settles (f a) t R E) : Settles (x >>= f) s R E := by
  unfold Settles at h ⊢
  rw [run_bind_eq hr]
  exact h

theorem Settles.bind (h : Settles x s (fun a s' => Settles (f a) s' R E) E) : Settles (x >>= f) s R E := by
  cases hr : x.run s with
  | ok a s' => exact settles_run_bind hr (h.of_ok hr)
  | error e s' =>
    unfold Settles
    rw [run_bind_error hr]
    exact h.of_error hr

end

variable {E E' : Panic → Prop}

def Yields (E : Panic → Prop) (x : KM σ α) (s : σ) (Q : α → σ → Prop) : Prop :=
  match x.run s with
  | .ok a s' => Q a s'
  | .error e _ => E e

theorem Yields.settles (h : Yields E x s Q) : Settles x s Q fun e _ => E e := h

theorem Yields.of_ok (h : Yields E x s Q) (hr : x.run s = .ok a s') : Q a s' := h.settles.of_ok hr

theorem Yields.of_error (h : Yields E x s Q) (hr : x.run s = .error e s') : E e := h.settles.of_error hr

/-- Where no panic is allowed, the run returns. -/
theorem Yields.returns (h : Yields (fun _ => False) x s Q) : ∃ a s', x.run s = .ok a s' ∧ Q a s' := by
  cases hr : x.run s with
  | ok a s' => exact ⟨a, s', rfl, h.of_ok hr⟩
  | error e s' => exact (h.of_error hr).elim

/-- To begin with, a run yields what it returns. -/
theorem yields_self (h : ∀ e s', x.run s = .error e s' → E e) : Yields E x s fun a s' => x.run s = .ok a s' :=
  settles_iff.2 ⟨fun _ _ hr => hr, h⟩

theorem Yields.mono (h : Yields E x s Q) (hQ : ∀ a s', Q a s' → Q' a s') : Yields E x s Q' :=
  h.settles.mono hQ fun _ _ he => he

theorem Yields.allow (h : Yields E x s Q) (hE : ∀ e, E e → E' e) : Yields E' x s Q :=
  h.settles.mono (fun _ _ hq => hq) fun e _ => hE e

theorem yields_assert {c : Bool} {expr : String} {Q : Unit → σ → Prop} (hc : c = true) (h : Q () s) :
    Yields E (assert c expr) s Q := by
  rw [hc]
  exact h

theorem Yields.bind (h : Yields E x s fun a s' => Yields E (f a) s' R) : Yields E (x >>= f) s R := h.settles.bind

variable {f : PUnit → KM σ β}

/-! ## Steps that return -/

theorem yields_load_bind {a : Nat} {w : World σ} {f : Word → WM σ β} {R : β → World σ → Prop}
    (h : Yields E (f (w.mem.load a)) w R) : Yields E (load a >>= f) w R := h

theorem yields_get_bind {f : σ → KM σ β} (h : Yields E (f s) s R) : Yields E (get >>= f) s R := h

theorem yields_set_bind (h : Yields E (f ⟨⟩) s' R) : Yields E (set s' >>= f) s R := h

theorem yields_modify_bind {g : σ → σ} (h : Yields E (f ⟨⟩) (g s) R) : Yields E (modify g >>= f) s R := h

end

end Liumos
