/-
Reasoning about kernel computations that may be interrupted. `Ensures P x w Q` says that every point of
memory the run of `x` from `w` goes through satisfies `P`, also when the run ends in a panic, and that
`Q` holds of the result when it returns.
-/
import Liumos.Machine.Outcome

namespace Liumos

open WriteBack

section

variable {σ α β : Type} {P P' : Mem → Prop}

def Ensures (P : Mem → Prop) (x : WM σ α) (w : World σ) (Q : α → World σ → Prop) : Prop :=
  match x.run w with
  | .ok a w' => Memory.Throughout P w.mem w'.mem ∧ Q a w'
  | .error _ w' => Memory.Throughout P w.mem w'.mem

/-- The state a run ends in, returned or not. -/
def final : EStateM.Result Panic σ α → σ
  | .ok _ s => s
  | .error _ s => s

theorem eq_final_of_returned {r : EStateM.Result Panic σ Unit} (h : returned r = true) : r = .ok () (final r) := by
  cases r with
  | ok _ _ => rfl
  | error _ _ => cases h

variable {x : WM σ α} {w : World σ} {Q : α → World σ → Prop} {R : β → World σ → Prop} {a buf size i : Nat}
  {m : Mem}

theorem ensures_iff : Ensures P x w Q ↔ Settles x w (fun a w' => Memory.Throughout P w.mem w'.mem ∧ Q a w')
    fun _ w' => Memory.Throughout P w.mem w'.mem := by
  unfold Ensures Settles
  cases x.run w with
  | ok a w' => rfl
  | error e w' => rfl

theorem Ensures.throughout (h : Ensures P x w Q) : Memory.Throughout P w.mem (final (x.run w)).mem := by
  cases hr : x.run w with
  | ok a w' => exact ((ensures_iff.1 h).of_ok hr).1
  | error e w' => exact (ensures_iff.1 h).of_error hr

theorem Ensures.of_ok {w' : World σ} {a : α} (h : Ensures P x w Q) (hr : x.run w = .ok a w') : Q a w' :=
  ((ensures_iff.1 h).of_ok hr).2

/-- Where no point matters, what counts is the result. -/
theorem ensures_true_iff : Ensures (fun _ => True) x w Q ↔ ∀ a w', x.run w = .ok a w' → Q a w' := by
  have htrue : ∀ m m' : Mem, Memory.Throughout (fun _ => True) m m' := fun _ _ _ _ => .inr trivial
  refine ⟨fun h _ _ => h.of_ok, fun h => ?_⟩
  exact ensures_iff.2 (settles_iff.2 ⟨fun a w' hr => ⟨htrue _ _, h a w' hr⟩, fun _ _ _ => htrue _ _⟩)

theorem Ensures.mono {x : WM σ α} {w : World σ} {Q Q' : α → World σ → Prop} (h : Ensures P x w Q)
    (hP : ∀ m, P m → P' m) (hQ : ∀ a w', Q a w' → Q' a w') : Ensures P' x w Q' :=
  ensures_iff.2 ((ensures_iff.1 h).mono (fun a w' h' => ⟨h'.1.mono hP, hQ a w' h'.2⟩) fun _ _ h' => h'.mono hP)

theorem ensures_pure {a : α} (h : Q a w) : Ensures P (pure a) w Q := ⟨.refl P w.mem, h⟩

theorem ensures_throw {e : Panic} : Ensures P (throw e) w Q := .refl P w.mem

theorem Ensures.bind {f : α → WM σ β} (h : Ensures P x w fun a w' => Ensures P (f a) w' R) :
    Ensures P (x >>= f) w R := by
  refine ensures_iff.2 ((ensures_iff.1 h).mono (fun a w' hf => ?_) fun _ _ he => he).bind
  exact (ensures_iff.1 hf.2).mono (fun _ _ h' => ⟨hf.1.trans h'.1, h'.2⟩) fun _ _ h' => hf.1.trans h'

theorem ensures_load {f : Word → WM σ β} (h : Ensures P (f (w.mem.load a)) w R) : Ensures P (load a >>= f) w R := h

theorem ensures_get {f : World σ → WM σ β} (h : Ensures P (f w) w R) : Ensures P (get >>= f) w R := h

theorem ensures_assert {b : Bool} {e : String} {f : Unit → WM σ β}
    (h : b = true → Ensures P (f ()) w R) : Ensures P (assert b e >>= f) w R := by
  cases b with
  | true => exact h rfl
  | false => exact .refl P w.mem

variable {Q : Unit → World σ → Prop}

theorem ensures_store {v : Word} (hP : P (w.mem.store a v))
    (hQ : Q () { w with mem := w.mem.store a v }) : Ensures P (store a v) w Q :=
  ⟨(Memory.Throughout.refl P w.mem).store hP, hQ⟩

theorem ensures_clflush (hP : P (w.mem.flush a)) (hQ : Q () { w with mem := w.mem.flush a }) :
    Ensures P (clflush a) w Q :=
  ⟨(Memory.Throughout.refl P w.mem).flush hP, hQ⟩

/-- A run of flushes keeps, at each of its points, what every flush keeps. -/
theorem throughout_clflushRange (hP : ∀ m a, P m → P (m.flush a)) (h : P m) (buf size : Nat) :
    P (clflushRange m buf size) ∧ Memory.Throughout P m (clflushRange m buf size) := by
  unfold clflushRange
  generalize (size + 63) / 64 = n
  induction n with
  | zero => exact ⟨h, .refl P m⟩
  | succ n ih =>
    rw [List.range_succ, List.foldl_append]
    exact ⟨hP _ _ ih.1, ih.2.flush (hP _ _ ih.1)⟩

theorem ensures_clflushSize (hP : ∀ m a, P m → P (m.flush a)) (h : P w.mem)
    (hQ : Q () { w with mem := clflushRange w.mem buf size }) : Ensures P (clflushSize buf size) w Q :=
  ⟨(throughout_clflushRange hP h buf size).2, hQ⟩

theorem load_clflushRange (m : Mem) (buf size x : Nat) : (clflushRange m buf size).load x = m.load x := by
  refine (throughout_clflushRange (P := fun c => c.load x = m.load x) ?_ rfl buf size).1
  intro c a h
  rw [Memory.load_flush, h]

/-- What the flush of one line brings about in a run of flushes, and later flushes keep. -/
theorem clflushRange_covers (hP : ∀ c a, P c → P (c.flush a)) (hi : i < (size + 63) / 64)
    (hflush : ∀ c : Mem, (∀ x, c.load x = m.load x) → P (c.flush (buf + 64 * i))) : P (clflushRange m buf size) := by
  unfold clflushRange
  generalize (size + 63) / 64 = n at hi ⊢
  induction n with
  | zero => omega
  | succ n ih =>
    rw [List.range_succ, List.foldl_append]
    by_cases hn : i < n
    · exact hP _ _ (ih hn)
    · obtain rfl : i = n := by omega
      refine hflush _ fun x => ?_
      have hload := load_clflushRange m buf (64 * i) x
      rwa [clflushRange, show (64 * i + 63) / 64 = i by omega] at hload

/-- A run of flushes makes durable what a load sees on the lines it covers. -/
theorem durable_clflushRange {x : Nat} (hi : i < (size + 63) / 64) (hx : line x = line (buf + 64 * i)) :
    Durable line (clflushRange m buf size) x (m.load x) :=
  clflushRange_covers (P := fun c => Durable line c x (m.load x)) (fun _ a h => h.flush a) hi
    fun _ hload => durable_of_flush_line hx (hload x)

theorem flushed_clflushRange {x : Nat} (hi : i < (size + 63) / 64) (hx : line x = line (buf + 64 * i)) :
    Flushed line (clflushRange m buf size) x :=
  clflushRange_covers (P := fun c => Flushed line c x) (fun _ a h => h.flush a) hi fun _ _ => flushed_of_flush_line _ hx

end

-- the rules above are its interface: unfolded, it would run the computation
attribute [irreducible] Ensures

end Liumos
