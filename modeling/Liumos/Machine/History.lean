/-
Histories only grow: `Grows x` says that the memory a run of `x` ends with, returned or in a panic, has the
memory it began with in its history. A crash can then interrupt a run at every point that its parts go
through. The instances follow the shape of a computation, so that one for a function is found from those for
the functions it calls.
-/
import Liumos.Machine.Bytes
import Liumos.Machine.Crash

namespace Liumos

open WriteBack

section

variable {σ α β : Type}

class Grows (x : WM σ α) : Prop where
  before : ∀ w : World σ, w.mem.Before (final (x.run w)).mem

variable {x : WM σ α} {w w' : World σ} {a : α} {f : α → WM σ β}

theorem Grows.of_ok [hx : Grows x] (h : x.run w = .ok a w') : w.mem.Before w'.mem := by
  have hb := hx.before w
  rw [h] at hb
  exact hb

/-- The point at which the first part of a run returns. -/
theorem before_final_bind [hf : Grows (f a)] (h : x.run w = .ok a w') :
    w'.mem.Before (final ((x >>= f).run w)).mem := by
  rw [run_bind_eq h]
  exact hf.before w'

/-- Every point of the first part is one of the whole. -/
theorem before_bind [hf : ∀ a, Grows (f a)] (w : World σ) :
    (final (x.run w)).mem.Before (final ((x >>= f).run w)).mem := by
  cases hr : x.run w with
  | ok a w' => exact before_final_bind hr
  | error e w' => rw [run_bind_error hr]; exact .refl _

instance (a : α) : Grows (pure a : WM σ α) := ⟨fun _ => .refl _⟩

instance (e : Panic) : Grows (throw e : WM σ α) := ⟨fun _ => .refl _⟩

instance : Grows (get : WM σ (World σ)) := ⟨fun _ => .refl _⟩

instance (b : Bool) (e : String) : Grows (assert b e : WM σ Unit) := by
  cases b with
  | false => exact ⟨fun _ => .refl _⟩
  | true => exact ⟨fun _ => .refl _⟩

instance Grows.bind {x : WM σ α} {f : α → WM σ β} [hx : Grows x] [hf : ∀ a, Grows (f a)] : Grows (x >>= f) := by
  exact ⟨fun w => (hx.before w).trans (before_bind w)⟩

/-- The same, as a step for a computation that is too long for one search. -/
theorem Grows.step {x : WM σ α} [Grows x] (hf : ∀ a, Grows (f a)) : Grows (x >>= f) := inferInstance

instance {c : Prop} [Decidable c] {x y : WM σ α} [hx : Grows x] [hy : Grows y] : Grows (if c then x else y) := by
  split_ifs
  · exact hx
  · exact hy

instance (a : Nat) : Grows (load a : WM σ Word) := ⟨fun _ => .refl _⟩

instance (a : Nat) (v : Word) : Grows (store a v : WM σ Unit) := ⟨fun w => w.mem.before_store a v⟩

instance (a : Nat) : Grows (clflush a : WM σ Unit) := ⟨fun w => w.mem.before_flush a⟩

theorem before_storeWords (m : Mem) (a : Nat) (f : Nat → Word) : ∀ n, m.Before (storeWords m a f n)
  | 0 => .refl m
  | n + 1 => (before_storeWords m a f n).trans (Memory.before_store ..)

/-! ## Bytes -/

instance (a : Nat) : Grows (loadByte a : WM σ (BitVec 8)) := ⟨fun _ => .refl _⟩

instance (a : Nat) (b : BitVec 8) : Grows (storeByte a b : WM σ Unit) := ⟨fun w => w.mem.before_store ..⟩

instance Libfunc.grows_copyLoop (dst src : Nat) : ∀ n i, Grows (Libfunc.copyLoop dst src n i : WM σ Unit)
  | 0, i => by unfold copyLoop; infer_instance
  | n + 1, i => by
    have := grows_copyLoop dst src n (i + 1)
    unfold copyLoop
    infer_instance

instance (dst src n : Nat) : Grows (Libfunc.memcpy dst src n : WM σ Unit) := Libfunc.grows_copyLoop ..

instance Libfunc.grows_zeroLoop (s : Nat) : ∀ n i, Grows (Libfunc.zeroLoop s n i : WM σ Unit)
  | 0, i => by unfold zeroLoop; infer_instance
  | n + 1, i => by
    have := grows_zeroLoop s n (i + 1)
    unfold zeroLoop
    infer_instance

instance (s n : Nat) : Grows (Libfunc.bzero s n : WM σ Unit) := Libfunc.grows_zeroLoop ..

end

end Liumos
