/-
A queue that several receivers read. A receiver takes elements off its head until it finds one it wants, and
drops the others. Whether every receiver gets what it wants depends on what the others take.
-/
import Mathlib.Data.List.Basic
import Mathlib.Logic.Function.Basic
import Mathlib.Tactic

namespace SharedQueue

open List Function

/-! ## One scan -/

section

variable {β : Type} {p : β → Bool} {n : Nat} {q : List β}

/-- `n` rounds at most: the head is taken off, and is the result if it is wanted. The result and what is left. -/
def scan (p : β → Bool) : Nat → List β → Option β × List β
  | 0, q => (none, q)
  | _ + 1, [] => (none, [])
  | n + 1, x :: q => if p x then (some x, q) else scan p n q

/-- What a scan takes off the queue. -/
def taken (p : β → Bool) : Nat → List β → List β
  | 0, _ => []
  | _ + 1, [] => []
  | n + 1, x :: q => if p x then [x] else x :: taken p n q

/-- A scan goes past what is not wanted. -/
theorem scan_append_cons {x : β} (hx : p x = true) (rest : List β) : ∀ {n : Nat} {l : List β}, (∀ y ∈ l, p y = false) →
    l.length < n → scan p n (l ++ x :: rest) = (some x, rest)
  | n + 1, [], _, _ => if_pos hx
  | n + 1, y :: l, hl, hn => by
    have hy : ¬p y = true := by simp [hl y mem_cons_self]
    rw [cons_append, scan, if_neg hy]
    exact scan_append_cons hx rest (fun z hz => hl z (mem_cons_of_mem y hz)) (Nat.lt_of_succ_lt_succ hn)

theorem taken_append (p : β → Bool) (n : Nat) (q : List β) : taken p n q ++ (scan p n q).2 = q := by
  fun_induction taken p n q with
  | case1 q => rfl
  | case2 n => rfl
  | case3 n x q hx => rw [scan, if_pos hx, singleton_append]
  | case4 n x q hx ih => rw [scan, if_neg hx, cons_append, ih]

/-- Of what it takes, a scan returns what is wanted. -/
theorem filter_taken (p : β → Bool) (n : Nat) (q : List β) : (taken p n q).filter p = (scan p n q).1.toList := by
  fun_induction taken p n q with
  | case1 q => rfl
  | case2 n => rfl
  | case3 n x q hx => rw [scan, if_pos hx, filter_cons_of_pos hx, filter_nil, Option.toList_some]
  | case4 n x q hx ih => rw [scan, if_neg hx, filter_cons_of_neg hx, ih]

end

/-! ## Receivers -/

/-- The queue, everything that arrived, and what each receiver got, the oldest first. -/
structure State (ι β : Type) where
  queue : List β
  arrived : List β
  returned : ι → List β

inductive Event (ι β : Type) where
  | arrive (x : β)
  | scan (i : ι) (n : Nat)

section

variable {ι β : Type} {wanted : ι → β → Bool} {s : State ι β} {e : Event ι β} {i : ι}

/-- A receiver got what it wants of what arrived, once and in order, up to what still waits in the queue. -/
def DeliveredTo (wanted : ι → β → Bool) (s : State ι β) (i : ι) : Prop :=
  s.arrived.filter (wanted i) = s.returned i ++ s.queue.filter (wanted i)

/-- A scan takes nothing that another receiver wants. -/
def Honest (wanted : ι → β → Bool) (s : State ι β) : Event ι β → Prop
  | .arrive _ => True
  | .scan i n => ∀ x ∈ taken (wanted i) n s.queue, ∀ j, j ≠ i → wanted j x = false

/-- What the queue held for a receiver, split by a scan of another. -/
theorem filter_queue (wanted : ι → β → Bool) (s : State ι β) (i j : ι) (n : Nat) :
    s.queue.filter (wanted j) = (taken (wanted i) n s.queue).filter (wanted j) ++
      (scan (wanted i) n s.queue).2.filter (wanted j) := by
  rw [← filter_append, taken_append]

/-- What a receiver wants and got, or what waits for it. -/
def accounted (wanted : ι → β → Bool) (s : State ι β) (i : ι) : Nat :=
  (s.returned i).length + (s.queue.filter (wanted i)).length

/-- What arrived for a receiver. -/
def due (wanted : ι → β → Bool) (s : State ι β) (i : ι) : Nat := (s.arrived.filter (wanted i)).length

theorem DeliveredTo.accounted_eq (h : DeliveredTo wanted s i) : accounted wanted s i = due wanted s i := by
  rw [accounted, due, h, length_append]

variable [DecidableEq ι]

def step (wanted : ι → β → Bool) (s : State ι β) : Event ι β → State ι β
  | .arrive x => { s with queue := s.queue ++ [x], arrived := s.arrived ++ [x] }
  | .scan i n => { s with
      queue := (scan (wanted i) n s.queue).2
      returned := Function.update s.returned i (s.returned i ++ (scan (wanted i) n s.queue).1.toList) }

/-- Every event of a run is honest in the state it finds. -/
def HonestRun (wanted : ι → β → Bool) : State ι β → List (Event ι β) → Prop
  | _, [] => True
  | s, e :: es => Honest wanted s e ∧ HonestRun wanted (step wanted s e) es

theorem DeliveredTo.step (h : ∀ i, DeliveredTo wanted s i) (he : Honest wanted s e) (j : ι) :
    DeliveredTo wanted (step wanted s e) j := by
  cases e with
  | arrive x =>
    show (s.arrived ++ [x]).filter (wanted j) = s.returned j ++ (s.queue ++ [x]).filter (wanted j)
    rw [filter_append, filter_append, h j, append_assoc]
  | scan i n =>
    show s.arrived.filter (wanted j) = update s.returned i _ j ++ (scan (wanted i) n s.queue).2.filter (wanted j)
    rw [h j, filter_queue wanted s i j n]
    by_cases hij : j = i
    · subst hij
      rw [update_self, filter_taken, append_assoc]
    · have hnone : (taken (wanted i) n s.queue).filter (wanted j) = [] :=
        filter_eq_nil_iff.2 fun x hx => by simp [he x hx j hij]
      rw [update_of_ne hij, hnone, nil_append]

/-- An event never makes up for what was lost: what is due grows at least as fast as what is accounted for. -/
theorem accounted_step (wanted : ι → β → Bool) (s : State ι β) (e : Event ι β) (j : ι) :
    accounted wanted (step wanted s e) j + due wanted s j ≤ accounted wanted s j + due wanted (step wanted s e) j := by
  cases e with
  | arrive x =>
    show (s.returned j).length + ((s.queue ++ [x]).filter (wanted j)).length + (s.arrived.filter (wanted j)).length ≤
      (s.returned j).length + (s.queue.filter (wanted j)).length + ((s.arrived ++ [x]).filter (wanted j)).length
    rw [filter_append, filter_append, length_append, length_append]
    omega
  | scan i n =>
    have hqueue := congrArg length (filter_queue wanted s i j n)
    rw [length_append] at hqueue
    show (update s.returned i _ j).length + ((scan (wanted i) n s.queue).2.filter (wanted j)).length +
      (s.arrived.filter (wanted j)).length ≤ (s.returned j).length + (s.queue.filter (wanted j)).length +
      (s.arrived.filter (wanted j)).length
    by_cases hij : j = i
    · subst hij
      rw [update_self, length_append, ← filter_taken]
      omega
    · rw [update_of_ne hij]
      omega

/-- A scan that is not honest loses something a receiver wants. -/
theorem exists_lost (he : ¬Honest wanted s e) :
    ∃ j, accounted wanted (step wanted s e) j + due wanted s j < accounted wanted s j +
      due wanted (step wanted s e) j := by
  cases e with
  | arrive x => exact absurd trivial he
  | scan i n =>
    obtain ⟨x, hx, j, hij, hwant⟩ : ∃ x ∈ taken (wanted i) n s.queue, ∃ j, j ≠ i ∧ wanted j x = true := by
      by_contra hnone
      refine he fun x hx j hij => ?_
      by_contra hwant
      exact hnone ⟨x, hx, j, hij, by simpa using hwant⟩
    have hpos : 0 < ((taken (wanted i) n s.queue).filter (wanted j)).length :=
      length_pos_of_mem (mem_filter.2 ⟨hx, hwant⟩)
    have hqueue := congrArg length (filter_queue wanted s i j n)
    rw [length_append] at hqueue
    refine ⟨j, ?_⟩
    show (update s.returned i _ j).length + ((scan (wanted i) n s.queue).2.filter (wanted j)).length +
      (s.arrived.filter (wanted j)).length < (s.returned j).length + (s.queue.filter (wanted j)).length +
      (s.arrived.filter (wanted j)).length
    rw [update_of_ne hij]
    omega

theorem accounted_run (wanted : ι → β → Bool) (es : List (Event ι β)) (s : State ι β) (j : ι) :
    accounted wanted (es.foldl (step wanted) s) j + due wanted s j ≤ accounted wanted s j +
      due wanted (es.foldl (step wanted) s) j := by
  induction es generalizing s with
  | nil => exact le_refl _
  | cons e es ih =>
    have h1 := accounted_step wanted s e j
    have h2 := ih (step wanted s e)
    rw [foldl_cons]
    omega

/-- Over a run every receiver gets what it wants exactly if no scan takes what another receiver wants. -/
theorem deliveredTo_iff (h : ∀ i, DeliveredTo wanted s i) (es : List (Event ι β)) :
    (∀ i, DeliveredTo wanted (es.foldl (step wanted) s) i) ↔ HonestRun wanted s es := by
  induction es generalizing s with
  | nil => exact ⟨fun _ => trivial, fun _ => h⟩
  | cons e es ih =>
    rw [foldl_cons, HonestRun]
    constructor
    · intro hend
      have he : Honest wanted s e := by
        by_contra he
        obtain ⟨j, hlost⟩ := exists_lost he
        have h1 := (h j).accounted_eq
        have h2 := accounted_run wanted es (step wanted s e) j
        have h3 := (hend j).accounted_eq
        omega
      exact ⟨he, (ih (.step h he)).1 hend⟩
    · rintro ⟨he, hes⟩
      exact (ih (.step h he)).2 hes

end

end SharedQueue
