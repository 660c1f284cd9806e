/-
The ring buffer of the kernel, which holds one element less than it has slots, as a queue.
Source: ring_buffer.h.
-/
import Mathlib.Logic.Function.Basic
import Mathlib.Tactic

namespace Liumos

open List Function Nat

/-- `RingBuffer<T, n>`. -/
structure RingBuffer (β : Type) (n : Nat) where
  elements : Nat → β
  readp : Nat
  writep : Nat

namespace RingBuffer

variable {β : Type} {n : Nat}

def isEmpty (r : RingBuffer β n) : Bool := r.readp == r.writep

/-- `Pop()` on a buffer that is not empty. -/
def pop (r : RingBuffer β n) : β × RingBuffer β n := (r.elements r.readp, { r with readp := (r.readp + 1) % n })

/-- `Push(value)`, which drops the value when the buffer is full. -/
def push (r : RingBuffer β n) (value : β) : RingBuffer β n :=
  let nextp := (r.writep + 1) % n
  if nextp = r.readp then r else { r with elements := Function.update r.elements r.writep value, writep := nextp }

/-- The number of elements. -/
def size (r : RingBuffer β n) : Nat := (r.writep + n - r.readp) % n

/-- The elements, the oldest first. -/
def contents (r : RingBuffer β n) : List β := (List.range r.size).map fun i => r.elements ((r.readp + i) % n)

/-- The positions are slots of the buffer. -/
structure WellFormed (r : RingBuffer β n) : Prop where
  readp : r.readp < n
  writep : r.writep < n

variable {r : RingBuffer β n}

theorem WellFormed.push (h : r.WellFormed) (value : β) : (r.push value).WellFormed := by
  have hn := h.readp
  unfold RingBuffer.push
  dsimp only
  split_ifs
  · exact h
  · exact ⟨h.readp, mod_lt _ (by omega)⟩

theorem WellFormed.pop (h : r.WellFormed) : r.pop.2.WellFormed := by
  have hn := h.readp
  exact ⟨mod_lt _ (by omega), h.writep⟩

/-- The size, without the modulus. -/
theorem WellFormed.size_eq (h : r.WellFormed) :
    r.size = if r.readp ≤ r.writep then r.writep - r.readp else r.writep + n - r.readp := by
  have h2 := h.writep
  unfold size
  split_ifs
  · rw [show r.writep + n - r.readp = (r.writep - r.readp) + n by omega, add_mod_right, mod_eq_of_lt (by omega)]
  · exact mod_eq_of_lt (by omega)

theorem WellFormed.isEmpty_iff (h : r.WellFormed) : r.isEmpty = true ↔ r.contents = [] := by
  have h1 := h.readp
  rw [isEmpty, beq_iff_eq, contents, map_eq_nil_iff, range_eq_nil, h.size_eq]
  split_ifs <;> omega

/-- One step in the ring, without the modulus. -/
theorem succ_mod {i : Nat} (hi : i < n) : (i + 1) % n = if i + 1 = n then 0 else i + 1 := by
  split_ifs with h
  · rw [h, mod_self]
  · exact mod_eq_of_lt (by omega)

theorem WellFormed.contents_pop (h : r.WellFormed) (he : r.contents ≠ []) :
    r.contents = r.pop.1 :: r.pop.2.contents := by
  have h1 := h.readp
  have h2 := h.writep
  have hne : r.readp ≠ r.writep := by
    intro heq
    exact he (h.isEmpty_iff.1 (beq_iff_eq.2 heq))
  have hsize : r.size = r.pop.2.size + 1 := by
    rw [h.size_eq, h.pop.size_eq]
    show _ = (if (r.readp + 1) % n ≤ r.writep then r.writep - (r.readp + 1) % n else r.writep + n - (r.readp + 1) % n) +
      1
    rw [succ_mod h1]
    split_ifs <;> omega
  rw [contents, hsize, range_succ_eq_map, map_cons, map_map, add_zero, mod_eq_of_lt h1]
  refine congrArg (r.elements r.readp :: ·) (map_congr_left fun i _ => ?_)
  show r.elements ((r.readp + (i + 1)) % n) = r.elements (((r.readp + 1) % n + i) % n)
  rw [mod_add_mod, add_right_comm, add_assoc]

theorem WellFormed.contents_push (h : r.WellFormed) (hroom : r.contents.length + 1 < n) (value : β) :
    (r.push value).contents = r.contents ++ [value] := by
  have h1 := h.readp
  have h2 := h.writep
  have hlen : r.contents.length = r.size := by simp [contents]
  have hsz := h.size_eq
  have hfull : (r.writep + 1) % n ≠ r.readp := by
    rw [succ_mod h2]
    split_ifs at hsz ⊢ <;> omega
  have hpush : r.push value = { r with elements := update r.elements r.writep value, writep := (r.writep + 1) % n } :=
    if_neg hfull
  have hsize : (r.push value).size = r.size + 1 := by
    rw [(h.push value).size_eq, hpush, hsz]
    show (if r.readp ≤ (r.writep + 1) % n then (r.writep + 1) % n - r.readp else (r.writep + 1) % n + n - r.readp) = _
    rw [succ_mod h2] at hfull ⊢
    split_ifs at * <;> omega
  -- the slot that is written is the one after the last element
  have hslot : ∀ i ≤ r.size, ((r.readp + i) % n = r.writep ↔ i = r.size) := by
    intro i hi
    rw [hsz] at hi ⊢
    rcases lt_or_ge (r.readp + i) n with hlt | hge
    · rw [mod_eq_of_lt hlt]
      split_ifs at hi ⊢ <;> omega
    · rw [mod_eq_sub_mod hge, mod_eq_of_lt (by split_ifs at hi <;> omega)]
      split_ifs at hi ⊢ <;> omega
  rw [contents, hsize, range_succ, map_append, hpush]
  refine congrArg₂ (· ++ ·) (map_congr_left fun i hi => ?_) ?_
  · rw [mem_range] at hi
    exact update_of_ne (fun heq => by have := (hslot i (by omega)).1 heq; omega) _ _
  · rw [map_singleton]
    show [update r.elements r.writep value ((r.readp + r.size) % n)] = [value]
    rw [(hslot r.size (le_refl _)).2 rfl, update_self]

end RingBuffer

end Liumos
