/-
The ring buffer with the types that it has in the source: positions are `int`, the number of slots is
`unsigned int`, and `(readp_ + 1) % n` is a computation in `unsigned int` that is stored into an `int`.
As long as every position fits into an `int` this is the ring buffer of `Machine.RingBuffer`, and that is a
queue of `n - 1` elements. Source: ring_buffer.h.
-/
import Liumos.Lib.Simulation
import Liumos.Machine.RingBuffer

namespace Liumos

open List Function

/-- `RingBuffer<T, n>`. Nothing keeps an `int` position from being negative, so that `elements` has a place for
every `int`. -/
structure IntRingBuffer (β : Type) (n : BitVec 32) where
  elements : Int → β
  readp : BitVec 32
  writep : BitVec 32

/-- The calls. -/
inductive RingOp (β : Type) where
  | push (value : β)
  | pop

namespace IntRingBuffer

variable {β : Type} {n : BitVec 32}

/-- `RingBuffer()`. The elements are not initialised. -/
def init (elements : Int → β) : IntRingBuffer β n := ⟨elements, 0#32, 0#32⟩

def isEmpty (r : IntRingBuffer β n) : Bool := r.readp == r.writep

def pop [Inhabited β] (r : IntRingBuffer β n) : β × IntRingBuffer β n :=
  if r.isEmpty then (default, r)
  else (r.elements r.readp.toInt, { r with readp := (r.readp + 1#32) % n })

def push (r : IntRingBuffer β n) (value : β) : IntRingBuffer β n :=
  let nextp := (r.writep + 1#32) % n
  if nextp = r.readp then r
  else { r with elements := Function.update r.elements r.writep.toInt value, writep := nextp }

/-- A call, with what it returns. -/
def step [Inhabited β] : RingOp β → IntRingBuffer β n → Option β × IntRingBuffer β n
  | .push value, r => (none, r.push value)
  | .pop, r => (some r.pop.1, r.pop.2)

end IntRingBuffer

/-- The queue that a ring buffer is for: at most `capacity` elements, a further one is dropped, and the
default value comes out of an empty queue. -/
def boundedQueueStep {β : Type} [Inhabited β] (capacity : Nat) : RingOp β → List β → Option β × List β
  | .push value, q => (none, if q.length < capacity then q ++ [value] else q)
  | .pop, [] => (some default, [])
  | .pop, x :: q => (some x, q)

/-! ## Positions that fit -/

namespace RingBuffer

variable {β : Type} {n : Nat} {r : RingBuffer β n}

theorem length_contents : r.contents.length = r.size := by simp [contents]

theorem WellFormed.push_full (h : r.WellFormed) (hfull : ¬ r.contents.length + 1 < n) (value : β) :
    r.push value = r := by
  have h1 := h.readp
  have h₂ := h.writep
  have hsz := h.size_eq
  rw [length_contents] at hfull
  refine if_pos ?_
  rw [succ_mod h₂]
  split_ifs at hsz ⊢ <;> omega

end RingBuffer

namespace IntRingBuffer

variable {β : Type} {n : BitVec 32} {r : IntRingBuffer β n}

/-- The same buffer with natural numbers as positions. -/
def toRing (r : IntRingBuffer β n) : RingBuffer β n.toNat := ⟨fun i => r.elements i, r.readp.toNat, r.writep.toNat⟩

section

variable (hn : n.toNat ≤ 2 ^ 31)

include hn

theorem toNat_succ_mod {p : BitVec 32} (hp : p.toNat < n.toNat) : ((p + 1#32) % n).toNat = (p.toNat + 1) % n.toNat := by
  rw [BitVec.toNat_umod, BitVec.toNat_add, BitVec.toNat_ofNat]
  congr 1
  omega

theorem toInt_of_lt {p : BitVec 32} (hp : p.toNat < n.toNat) : p.toInt = p.toNat :=
  BitVec.toInt_eq_toNat_of_lt (by omega)

theorem toRing_push (h : r.toRing.WellFormed) (value : β) : (r.push value).toRing = r.toRing.push value := by
  have hnext := toNat_succ_mod hn h.writep
  have hcond : (r.writep + 1#32) % n = r.readp ↔ (r.writep.toNat + 1) % n.toNat = r.readp.toNat := by
    rw [← BitVec.toNat_inj, hnext]
  by_cases hfull : (r.writep + 1#32) % n = r.readp
  · have hpush : r.push value = r := if_pos hfull
    rw [hpush]
    exact (if_pos (hcond.1 hfull)).symm
  · have hpush : r.push value =
        { r with elements := update r.elements r.writep.toInt value, writep := (r.writep + 1#32) % n } := if_neg hfull
    rw [hpush]
    refine Eq.trans ?_ (if_neg (mt hcond.2 hfull)).symm
    refine RingBuffer.mk.injEq .. ▸ ⟨?_, rfl, hnext⟩
    funext i
    show update r.elements r.writep.toInt value i = update (fun i : Nat => r.elements i) r.writep.toNat value i
    rw [toInt_of_lt hn h.writep]
    by_cases hi : i = r.writep.toNat
    · subst hi
      rw [update_self, update_self]
    · rw [update_of_ne hi, update_of_ne (by omega)]

theorem toRing_pop [Inhabited β] (h : r.toRing.WellFormed) (he : r.isEmpty = false) :
    r.pop.1 = r.toRing.pop.1 ∧ r.pop.2.toRing = r.toRing.pop.2 := by
  unfold pop
  rw [he]
  constructor
  · show r.elements r.readp.toInt = r.elements (r.readp.toNat : Int)
    rw [toInt_of_lt hn h.readp]
  · refine RingBuffer.mk.injEq .. ▸ ⟨rfl, ?_, rfl⟩
    exact toNat_succ_mod hn h.readp

end

theorem isEmpty_toRing : r.toRing.isEmpty = r.isEmpty := by
  rw [Bool.eq_iff_iff, RingBuffer.isEmpty, isEmpty, beq_iff_eq, beq_iff_eq, ← BitVec.toNat_inj]
  rfl

/-! ## The queue -/

/-- The buffer holds the queue. -/
structure Holds (r : IntRingBuffer β n) (q : List β) : Prop where
  wellFormed : r.toRing.WellFormed
  contents : r.toRing.contents = q

theorem Holds.isEmpty_iff {q : List β} (h : r.Holds q) : r.isEmpty = true ↔ q = [] := by
  rw [← isEmpty_toRing, h.wellFormed.isEmpty_iff, h.contents]

theorem holds_init (h : 0 < n.toNat) (elements : Int → β) : (init elements : IntRingBuffer β n).Holds [] := by
  have hwf : (init elements : IntRingBuffer β n).toRing.WellFormed := ⟨h, h⟩
  exact ⟨hwf, hwf.isEmpty_iff.1 rfl⟩

theorem Holds.push (hn : n.toNat ≤ 2 ^ 31) {q : List β} (h : r.Holds q) (value : β) :
    (r.push value).Holds (if q.length < n.toNat - 1 then q ++ [value] else q) := by
  have hlen := congrArg length h.contents
  split_ifs with hroom
  · refine ⟨?_, ?_⟩
    · rw [toRing_push hn h.wellFormed]
      exact h.wellFormed.push value
    · rw [toRing_push hn h.wellFormed, h.wellFormed.contents_push (by omega), h.contents]
  · have hsame := h.wellFormed.push_full (by omega) value
    refine ⟨?_, ?_⟩
    · rw [toRing_push hn h.wellFormed, hsame]
      exact h.wellFormed
    · rw [toRing_push hn h.wellFormed, hsame]
      exact h.contents

theorem step_boundedQueueStep [Inhabited β] (hn : n.toNat ≤ 2 ^ 31) (op : RingOp β) (r : IntRingBuffer β n) (q : List β)
    (h : r.Holds q) :
    (step op r).1 = (boundedQueueStep (n.toNat - 1) op q).1 ∧
    (step op r).2.Holds (boundedQueueStep (n.toNat - 1) op q).2 := by
  cases op with
  | push value => exact ⟨rfl, h.push hn value⟩
  | pop =>
    cases q with
    | nil =>
      have hpop : r.pop = (default, r) := if_pos (h.isEmpty_iff.2 rfl)
      simp only [step, boundedQueueStep, hpop]
      exact ⟨trivial, h⟩
    | cons x q =>
      have he : r.isEmpty = false := by
        rw [← Bool.not_eq_true, h.isEmpty_iff]
        exact cons_ne_nil x q
      obtain ⟨hval, hrest⟩ := toRing_pop hn h.wellFormed he
      have hcons := h.wellFormed.contents_pop (by rw [h.contents]; exact cons_ne_nil x q)
      rw [h.contents, ← hval, ← hrest] at hcons
      obtain ⟨hx, hq⟩ := cons.inj hcons
      refine ⟨congrArg some hx.symm, ?_, hq.symm⟩
      show r.pop.2.toRing.WellFormed
      rw [hrest]
      exact h.wellFormed.pop

/-- With less than `2 ^ 31` slots, so that `writep_ + 1` is an `int` too, a ring buffer is a queue of one element less
than it has slots, and its positions are slots. -/
theorem ringBuffer_refines_boundedQueue [Inhabited β] (h2 : 2 ≤ n.toNat) (hn : n.toNat < 2 ^ 31) (elements : Int → β)
    (ops : List (RingOp β)) : let r := Simulation.run step ops (init elements : IntRingBuffer β n)
    let q := Simulation.run (boundedQueueStep (n.toNat - 1)) ops []
    r.1 = q.1 ∧ (r.2.isEmpty = true ↔ q.2 = []) ∧
      (0 ≤ r.2.readp.toInt ∧ r.2.readp.toInt < n.toNat) ∧ 0 ≤ r.2.writep.toInt ∧ r.2.writep.toInt < n.toNat := by
  intro r q
  obtain ⟨hout, h⟩ := Simulation.run_related (step_boundedQueueStep hn.le) ops (holds_init (by omega) elements)
  have hread := h.wellFormed.readp
  have hwrite := h.wellFormed.writep
  refine ⟨hout, h.isEmpty_iff, ?_, ?_⟩
  · rw [show r.2.readp.toInt = r.2.readp.toNat from toInt_of_lt hn.le hread]
    exact ⟨by omega, by exact_mod_cast hread⟩
  · rw [show r.2.writep.toInt = r.2.writep.toNat from toInt_of_lt hn.le hwrite]
    exact ⟨by omega, by exact_mod_cast hwrite⟩

/-- Four slots: the fourth element is dropped. -/
theorem ringBuffer_refines_boundedQueue_four :
    (Simulation.run step [.push 3, .push 5, .push 7, .push 11, .pop, .pop, .pop, .pop]
      (init (fun _ => 1) : IntRingBuffer Nat 4#32)).1 = [none, none, none, none, some 3, some 5, some 7, some 0] :=
  (ringBuffer_refines_boundedQueue (n := 4#32) (by decide) (by decide) (fun _ => 1)
    [.push 3, .push 5, .push 7, .push 11, .pop, .pop, .pop, .pop]).1.trans (by decide)

/-! ## Positions that do not fit -/

/-- Elements that only go in, while there is room. -/
theorem writep_run_replicate [Inhabited β] (value : β) : ∀ (k : Nat) {r : IntRingBuffer β n}, r.readp = 0#32 →
    r.writep.toNat + k < n.toNat → (Simulation.run step (replicate k (.push value)) r).2.writep.toNat =
      r.writep.toNat + k
  | 0, _, _, _ => rfl
  | k + 1, r, hread, hroom => by
    have hnext : ((r.writep + 1#32) % n).toNat = r.writep.toNat + 1 := by
      rw [BitVec.toNat_umod, BitVec.toNat_add, BitVec.toNat_ofNat, Nat.mod_eq_of_lt (by omega),
        Nat.mod_eq_of_lt (by omega)]
    have hpush : r.push value =
        { r with elements := update r.elements r.writep.toInt value, writep := (r.writep + 1#32) % n } := by
      refine if_neg ?_
      rw [hread, ← BitVec.toNat_inj, hnext]
      exact Nat.succ_ne_zero _
    have hrest := writep_run_replicate value k (r := r.push value) (by rw [hpush]; exact hread)
      (by rw [hpush]; dsimp only; omega)
    rw [replicate_succ]
    refine hrest.trans ?_
    rw [hpush]
    dsimp only
    omega

/-- A buffer with more than `2 ^ 31` slots, after as many elements went in. -/
theorem ringBuffer_writep_negative : 2 ≤ (0x80000001#32).toNat ∧
    ∃ ops : List (RingOp Nat),
      (Simulation.run step ops (init (fun _ => 0) : IntRingBuffer Nat 0x80000001#32)).2.writep.toInt < 0 := by
  refine ⟨by decide, replicate (2 ^ 31) (.push 0), ?_⟩
  have h := writep_run_replicate (n := 0x80000001#32) 0 (2 ^ 31) (r := init fun _ => 0) rfl (by decide)
  rw [BitVec.toInt_neg_iff, h]
  decide

end IntRingBuffer

end Liumos
