/-
Computations that keep a log. A logged computation has, next to its state, a list of what it did so far; without
the log it is the computation it was made from. The log is kept also when the run does not return.
-/
import Liumos.Machine.Crash

namespace Liumos

/-- A state and the log of what happened. -/
structure Logged (σ ε : Type) where
  state : σ
  log : List ε

section

variable {σ ε α β : Type}

/-- A computation that logs nothing. -/
def onState (x : KM σ α) : KM (Logged σ ε) α := fun s =>
  match x.run s.state with
  | .ok a t => .ok a { s with state := t }
  | .error e t => .error e { s with state := t }

def record (l : List ε) : KM (Logged σ ε) Unit := modify fun s => { s with log := s.log ++ l }

theorem final_onState (x : KM σ α) (s : Logged σ ε) :
    final ((onState x).run s) = { s with state := final (x.run s.state) } := by
  simp only [onState, EStateM.run]
  cases x s.state with
  | ok a t => rfl
  | error e t => rfl

variable {x : KM σ α}

theorem run_onState {s : Logged σ ε} {a : α} {t : σ} (h : x.run s.state = .ok a t) :
    (onState x).run s = .ok a { s with state := t } := by
  simp only [onState, EStateM.run] at h ⊢
  rw [h]

theorem settles_onState {s : Logged σ ε} {Q : α → Logged σ ε → Prop} {E : Panic → Logged σ ε → Prop}
    (h : Settles x s.state (fun a t => Q a { s with state := t }) fun e t => E e { s with state := t }) :
    Settles (onState x) s Q E := by
  unfold Settles at h ⊢
  simp only [onState, EStateM.run] at h ⊢
  cases hr : x s.state with
  | ok a t => rwa [hr] at h
  | error e t => rwa [hr] at h

/-! ## Without the log -/

def eraseLog : EStateM.Result Panic (Logged σ ε) α → EStateM.Result Panic σ α
  | .ok a s => .ok a s.state
  | .error e s => .error e s.state

/-- Without its log, `x` is `y`. -/
def Erases (x : KM (Logged σ ε) α) (y : KM σ α) : Prop := ∀ s, eraseLog (x.run s) = y.run s.state

theorem Erases.onState (x : KM σ α) : Erases (Liumos.onState x : KM (Logged σ ε) α) x := by
  intro s
  simp only [Liumos.onState, EStateM.run]
  cases x s.state with
  | ok a t => rfl
  | error e t => rfl

theorem Erases.pure (a : α) : Erases (pure a : KM (Logged σ ε) α) (pure a) := fun _ => rfl

theorem Erases.throw (e : Panic) : Erases (throw e : KM (Logged σ ε) α) (throw e) := fun _ => rfl

theorem Erases.assert (b : Bool) (e : String) :
    Erases (Liumos.assert b e : KM (Logged σ ε) Unit) (Liumos.assert b e) := by
  intro s
  cases b with
  | true => rfl
  | false => rfl

section

variable {x : KM (Logged σ ε) α} {y : KM σ α} {f : α → KM (Logged σ ε) β} {g : α → KM σ β} {s : Logged σ ε}

theorem eraseLog_bind (h : eraseLog (x.run s) = y.run s.state)
    (hf : ∀ a t, eraseLog ((f a).run t) = (g a).run t.state) : eraseLog ((x >>= f).run s) = (y >>= g).run s.state := by
  cases hr : x.run s with
  | ok a t =>
    rw [hr] at h
    rw [run_bind_eq hr, run_bind_eq h.symm]
    exact hf a t
  | error e t =>
    rw [hr] at h
    rw [run_bind_error hr, run_bind_error h.symm]
    rfl

theorem Erases.bind (h : Erases x y) (hf : ∀ a, Erases (f a) (g a)) : Erases (x >>= f) (y >>= g) :=
  fun s => eraseLog_bind (h s) hf

end

theorem Erases.get_bind {f : Logged σ ε → KM (Logged σ ε) β} {g : σ → KM σ β} (hf : ∀ s, Erases (f s) (g s.state)) :
    Erases (get >>= f) (get >>= g) := fun s => hf s s

theorem Erases.record_bind {l : List ε} {f : Unit → KM (Logged σ ε) β} {y : KM σ β} (hf : Erases (f ()) y) :
    Erases (record l >>= f) y := fun s => hf { s with log := s.log ++ l }

theorem Erases.ite {c : Prop} [Decidable c] {x x' : KM (Logged σ ε) α} {y y' : KM σ α} (h : Erases x y)
    (h' : Erases x' y') : Erases (if c then x else x') (if c then y else y') := by
  split_ifs
  · exact h
  · exact h'

/-! ## Wherever a run ends -/

section

variable {R : σ → σ → Prop}

/-- The state a run of `x` from `s` ends in, returned or not, is related to `s`. -/
def Leads (R : σ → σ → Prop) (x : KM σ α) (s : σ) : Prop := R s (final (x.run s))

theorem Leads.bind [IsTrans σ R] {f : α → KM σ β} {s : σ} (h : Leads R x s)
    (hf : ∀ a t, Leads R (f a) t) : Leads R (x >>= f) s := by
  unfold Leads at h ⊢
  cases hr : x.run s with
  | ok a t =>
    rw [hr] at h
    rw [run_bind_eq hr]
    exact trans_of R h (hf a t)
  | error e t =>
    rw [hr] at h
    rw [run_bind_error hr]
    exact h

end

/-! ## Both -/

/-- From `s`, `x` is `y` without its log, and where its run ends is related to `s`. -/
structure Traces (R : Logged σ ε → Logged σ ε → Prop) (x : KM (Logged σ ε) α) (y : KM σ α) (s : Logged σ ε) : Prop where
  erases : eraseLog (x.run s) = y.run s.state
  leads : Leads R x s

section

variable {R : Logged σ ε → Logged σ ε → Prop} {s : Logged σ ε}

theorem Traces.onState (h : Leads R (Liumos.onState x) s) : Traces R (Liumos.onState x) x s := ⟨Erases.onState x s, h⟩

theorem Traces.get_bind {f : Logged σ ε → KM (Logged σ ε) β} {g : σ → KM σ β} (h : Traces R (f s) (g s.state) s) :
    Traces R (get >>= f) (get >>= g) s := ⟨h.erases, h.leads⟩

section

variable [IsTrans (Logged σ ε) R]

theorem Traces.bind {x : KM (Logged σ ε) α} {y : KM σ α} {f : α → KM (Logged σ ε) β} {g : α → KM σ β}
    (h : Traces R x y s) (hf : ∀ a t, Traces R (f a) (g a) t) : Traces R (x >>= f) (y >>= g) s :=
  ⟨eraseLog_bind h.erases fun a t => (hf a t).erases, h.leads.bind fun a t => (hf a t).leads⟩

theorem Traces.record_bind {l : List ε} {f : Unit → KM (Logged σ ε) β} {y : KM σ β}
    (hR : R s { s with log := s.log ++ l })
    (hf : Traces R (f ()) y { s with log := s.log ++ l }) : Traces R (record l >>= f) y s :=
  ⟨hf.erases, trans_of R hR hf.leads⟩

end

variable [Std.Refl R]

theorem Traces.pure (a : α) (s : Logged σ ε) : Traces R (pure a) (pure a) s := ⟨rfl, refl_of R s⟩

theorem Traces.throw (e : Panic) (s : Logged σ ε) : Traces R (throw e) (throw e : KM σ α) s := ⟨rfl, refl_of R s⟩

theorem Traces.assert_bind {b : Bool} {e : String} {f : Unit → KM (Logged σ ε) β} {g : Unit → KM σ β}
    (hf : Traces R (f ()) (g ()) s) : Traces R (assert b e >>= f) (assert b e >>= g) s := by
  cases b with
  | true => exact ⟨hf.erases, hf.leads⟩
  | false => exact .throw _ s

theorem Traces.forM [IsTrans (Logged σ ε) R] {γ : Type} {f : γ → KM (Logged σ ε) Unit} {g : γ → KM σ Unit}
    (hf : ∀ c s, Traces R (f c) (g c) s) : ∀ (l : List γ) (s : Logged σ ε), Traces R (l.forM f) (l.forM g) s
  | [], s => .pure () s
  | c :: l, s => (hf c s).bind fun _ t => Traces.forM hf l t

end

end

end Liumos
