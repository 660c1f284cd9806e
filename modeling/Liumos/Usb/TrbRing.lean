/-
The rings through which the xHCI driver hands transfer request blocks (TRBs) to the controller. An entry
belongs to the consumer when its cycle bit is the consumer's cycle state; a link at the end of the ring leads
back to the first entry and toggles that state. Source: xhci_trbring.h.
-/
import Liumos.Machine.Basic

namespace Liumos.XHCI

open List Function Nat

structure BasicTRB where
  data : Word
  option : BitVec 32
  control : BitVec 32
  deriving DecidableEq

/-- `TransferRequestBlockRing<N>`. The entry `N` is the link. -/
structure TransferRequestBlockRing (N : Nat) where
  entry : Nat → BasicTRB
  nextEnqueueIdx : Nat
  currentCycleState : BitVec 32
  paddr : Word

/-- A TRB with another cycle bit. -/
def BasicTRB.setCycle (t : BasicTRB) (cycle : BitVec 32) : BasicTRB :=
  { t with control := (t.control &&& ~~~1#32) ||| cycle }

def BasicTRB.cycleBit (t : BasicTRB) : Bool := t.control.getLsbD 0

/-- What a TRB says, apart from its cycle bit. -/
def BasicTRB.payload (t : BasicTRB) : BasicTRB := t.setCycle 0#32

namespace TransferRequestBlockRing

variable {N : Nat}

def advanceEnqueueIndexAndUpdateCycleBit (r : TransferRequestBlockRing N) : TransferRequestBlockRing N :=
  { r with
    entry := Function.update r.entry r.nextEnqueueIdx ((r.entry r.nextEnqueueIdx).setCycle r.currentCycleState)
    nextEnqueueIdx := r.nextEnqueueIdx + 1 }

/-- `Push()`. It returns the cycle state that it gave to the entry. -/
def push (r : TransferRequestBlockRing N) : BitVec 32 × TransferRequestBlockRing N :=
  let consumerCycleState := r.currentCycleState
  let r := r.advanceEnqueueIndexAndUpdateCycleBit
  if r.nextEnqueueIdx = N then
    let r := r.advanceEnqueueIndexAndUpdateCycleBit
    (consumerCycleState, { r with nextEnqueueIdx := 0, currentCycleState := 1#32 - r.currentCycleState })
  else (consumerCycleState, r)

def kTRBTypeLink : BitVec 32 := 0x06#32

/-- The link that `Init` makes: to the beginning of the ring, with the bit to toggle the cycle state. -/
def linkTrb (paddr : Word) : BasicTRB := ⟨paddr, 0#32, (kTRBTypeLink <<< 10) ||| 2#32⟩

def pushLoop : Nat → TransferRequestBlockRing N → TransferRequestBlockRing N
  | 0, r => r
  | k + 1, r => pushLoop k r.push.2

def init (r : TransferRequestBlockRing N) (paddr : Word) : TransferRequestBlockRing N :=
  pushLoop N ⟨Function.update r.entry N (linkTrb paddr), 0, 0#32, paddr⟩

end TransferRequestBlockRing

/-- The consumer: the entry that it looks at next, and its cycle state. -/
structure Consumer where
  idx : Nat
  cycle : Bool

/-- A ring between its two sides, with the TRBs that went in and those that came out. -/
structure System (N : Nat) where
  ring : TransferRequestBlockRing N
  consumer : Consumer
  pushed : List BasicTRB
  received : List BasicTRB

namespace System

variable {N : Nat}

def outstanding (s : System N) : Nat := s.pushed.length - s.received.length

/-- The entry that is filled next. -/
def nextEntry (s : System N) : BasicTRB := s.ring.entry s.ring.nextEnqueueIdx

/-- The driver fills the next entry, but not its cycle bit, or pushes it. It does so while fewer than `N` TRBs are
outstanding. -/
inductive Produce : System N → System N → Prop
  | fill {s : System N} (t : BasicTRB) : s.outstanding < N → t.cycleBit = s.nextEntry.cycleBit →
      Produce s { s with ring := { s.ring with entry := Function.update s.ring.entry s.ring.nextEnqueueIdx t } }
  | push {s : System N} : s.outstanding < N →
      Produce s { s with ring := s.ring.push.2, pushed := s.pushed ++ [s.nextEntry.payload] }

/-- The consumer takes an entry that has its cycle state. At the end of the ring it follows the link: to the address in
the link, and with the other cycle state if the link says so. -/
inductive Consume : System N → System N → Prop
  | take {s : System N} : s.consumer.idx < N → (s.ring.entry s.consumer.idx).cycleBit = s.consumer.cycle →
      Consume s { s with
        consumer := { s.consumer with idx := s.consumer.idx + 1 }
        received := s.received ++ [(s.ring.entry s.consumer.idx).payload] }
  | follow {s : System N} : s.consumer.idx = N →
      Consume s { s with consumer :=
        ⟨((s.ring.entry N).data - s.ring.paddr).toNat / 16, xor ((s.ring.entry N).control.getLsbD 1) s.consumer.cycle⟩ }

/-- Before the first step. -/
def start (r : TransferRequestBlockRing N) (paddr : Word) : System N := ⟨r.init paddr, ⟨0, true⟩, [], []⟩

/-- What any interleaving of the two sides comes to. -/
inductive Runs (r : TransferRequestBlockRing N) (paddr : Word) : System N → Prop
  | start : Runs r paddr (start r paddr)
  | produce {s s'} : Runs r paddr s → Produce s s' → Runs r paddr s'
  | consume {s s'} : Runs r paddr s → Consume s s' → Runs r paddr s'

end System

/-! ## Cycle bits -/

/-- A cycle state as the driver keeps it. -/
def cycleWord (c : Bool) : BitVec 32 := if c then 1#32 else 0#32

namespace BasicTRB

variable {t : BasicTRB}

@[simp] theorem cycleBit_setCycle (c : Bool) : (t.setCycle (cycleWord c)).cycleBit = c := by
  cases c <;> simp [setCycle, cycleBit, cycleWord]

@[simp] theorem payload_setCycle (c : Bool) : (t.setCycle (cycleWord c)).payload = t.payload := by
  unfold payload setCycle
  congr 1
  apply BitVec.eq_of_getLsbD_eq
  intro i hi
  cases c <;> simp only [cycleWord, BitVec.getLsbD_or, BitVec.getLsbD_and, BitVec.getLsbD_not, BitVec.getLsbD_one] <;>
    by_cases h0 : i = 0 <;> simp [h0, hi]

end BasicTRB

theorem one_sub_cycleWord (c : Bool) : 1#32 - cycleWord c = cycleWord (!c) := by
  cases c <;> decide

/-! ## The driver's side -/

namespace TransferRequestBlockRing

variable {N : Nat} {r : TransferRequestBlockRing N}

/-- What `Push` with the cycle state `c` does. -/
structure Pushes (r r' : TransferRequestBlockRing N) (c : Bool) : Prop where
  payload : ∀ i, (r'.entry i).payload = (r.entry i).payload
  cycleBit : ∀ i, (r'.entry i).cycleBit =
    if i = r.nextEnqueueIdx ∨ (i = N ∧ r.nextEnqueueIdx + 1 = N) then c else (r.entry i).cycleBit
  next : r'.nextEnqueueIdx = if r.nextEnqueueIdx + 1 = N then 0 else r.nextEnqueueIdx + 1
  cycle : r'.currentCycleState = cycleWord (if r.nextEnqueueIdx + 1 = N then !c else c)
  paddr : r'.paddr = r.paddr

variable {c : Bool}

section

variable (hc : r.currentCycleState = cycleWord c)

include hc

theorem payload_advance (i : Nat) : (r.advanceEnqueueIndexAndUpdateCycleBit.entry i).payload = (r.entry i).payload :=
  field_update BasicTRB.payload (by rw [hc, BasicTRB.payload_setCycle]) i

theorem cycleBit_advance (i : Nat) :
    (r.advanceEnqueueIndexAndUpdateCycleBit.entry i).cycleBit = if i =
    r.nextEnqueueIdx then c else (r.entry i).cycleBit := by
  unfold advanceEnqueueIndexAndUpdateCycleBit
  dsimp only
  rw [hc]
  by_cases hi : i = r.nextEnqueueIdx
  · subst hi
    rw [update_self, BasicTRB.cycleBit_setCycle, if_pos rfl]
  · rw [update_of_ne hi, if_neg hi]

theorem push_pushes : Pushes r r.push.2 c := by
  by_cases hlast : r.nextEnqueueIdx + 1 = N
  · -- the last entry, and then the link
    have hpush : r.push.2 = { r.advanceEnqueueIndexAndUpdateCycleBit.advanceEnqueueIndexAndUpdateCycleBit with
        nextEnqueueIdx := 0, currentCycleState := 1#32 - r.currentCycleState } := by
      unfold push
      rw [if_pos (show r.advanceEnqueueIndexAndUpdateCycleBit.nextEnqueueIdx = N from hlast)]
      rfl
    have hc' : r.advanceEnqueueIndexAndUpdateCycleBit.currentCycleState = cycleWord c := hc
    rw [hpush]
    refine ⟨fun i => ?_, fun i => ?_, ?_, ?_, rfl⟩
    · exact (payload_advance hc' i).trans (payload_advance hc i)
    · refine (cycleBit_advance hc' i).trans ?_
      rw [cycleBit_advance hc i]
      show (if i = r.nextEnqueueIdx + 1 then c else _) = _
      split_ifs <;> first | rfl | omega
    · rw [if_pos hlast]
    · rw [if_pos hlast, hc, one_sub_cycleWord]
  · have hpush : r.push.2 = r.advanceEnqueueIndexAndUpdateCycleBit := by
      unfold push
      rw [if_neg (show ¬ r.advanceEnqueueIndexAndUpdateCycleBit.nextEnqueueIdx = N from hlast)]
    rw [hpush]
    refine ⟨payload_advance hc, fun i => ?_, ?_, ?_, rfl⟩
    · rw [cycleBit_advance hc i]
      exact if_congr (by omega) rfl rfl
    · rw [if_neg hlast]
      rfl
    · rw [if_neg hlast]
      exact hc

end

/-- The loop of `Init`, from any entry on: it ends at the first entry, with all the cycle bits it came to cleared. -/
theorem pushLoop_clears : ∀ (k : Nat) {r : TransferRequestBlockRing N}, r.nextEnqueueIdx + (k + 1) = N →
    r.currentCycleState = cycleWord false → (∀ i, ((pushLoop (k + 1) r).entry i).payload = (r.entry i).payload) ∧
      (∀ i, ((pushLoop (k + 1) r).entry i).cycleBit = if r.nextEnqueueIdx ≤ i ∧
      i ≤ N then false else (r.entry i).cycleBit) ∧ (pushLoop (k + 1) r).nextEnqueueIdx = 0 ∧
      (pushLoop (k + 1) r).currentCycleState = cycleWord true ∧ (pushLoop (k + 1) r).paddr = r.paddr
  | 0, r, hk, hc => by
    have h := push_pushes hc
    refine ⟨h.payload, fun i => ?_, ?_, ?_, h.paddr⟩
    · rw [pushLoop, pushLoop, h.cycleBit]
      exact if_congr (by omega) rfl rfl
    · rw [pushLoop, pushLoop, h.next, if_pos hk]
    · rw [pushLoop, pushLoop, h.cycle, if_pos hk, Bool.not_false]
  | k + 1, r, hk, hc => by
    have h := push_pushes hc
    have hnext : r.push.2.nextEnqueueIdx = r.nextEnqueueIdx + 1 := by rw [h.next, if_neg (by omega)]
    have hcycle : r.push.2.currentCycleState = cycleWord false := by rw [h.cycle, if_neg (by omega)]
    obtain ⟨hpayload, hbits, hzero, htrue, hpaddr⟩ := pushLoop_clears k (r := r.push.2) (by omega) hcycle
    rw [pushLoop]
    refine ⟨fun i => (hpayload i).trans (h.payload i), fun i => ?_, hzero, htrue, hpaddr.trans h.paddr⟩
    rw [hbits, h.cycleBit, hnext]
    split_ifs <;> first | rfl | omega

end TransferRequestBlockRing

/-! ## Both sides -/

namespace System

open TransferRequestBlockRing

variable {N : Nat} {paddr : Word} {s s' : System N}

/-- The entry `j` places after the entry `k`. -/
def place (N k j : Nat) : Nat := if k + j < N then k + j else k + j - N

/-- The consumer is at the entry `k` with the cycle state `c`, or at the link before the first entry; the driver gives
the cycle state `p`; `pending` are the TRBs in between. The driver is in the consumer's lap, or one lap ahead. -/
structure InvAt (paddr : Word) (s : System N) (k : Nat) (c p : Bool) (pending : List BasicTRB) : Prop where
  next : s.ring.nextEnqueueIdx < N
  cycle : s.ring.currentCycleState = cycleWord p
  base : s.ring.paddr = paddr
  link : (s.ring.entry N).payload = (linkTrb paddr).payload
  linkBit : (s.ring.entry N).cycleBit = !p
  bits : ∀ i < N, (s.ring.entry i).cycleBit = if i < s.ring.nextEnqueueIdx then p else !p
  idx : k < N
  consumer : s.consumer = ⟨k, c⟩ ∨ k = 0 ∧ s.consumer = ⟨N, !c⟩
  laps : p = c ∧ k + pending.length = s.ring.nextEnqueueIdx ∨
    p = !c ∧ k + pending.length = N + s.ring.nextEnqueueIdx ∧ s.ring.nextEnqueueIdx ≤ k
  pushed : s.pushed = s.received ++ pending
  places : ∀ j < pending.length, pending[j]? = some (s.ring.entry (place N k j)).payload

def Inv (paddr : Word) (s : System N) : Prop := ∃ k c p pending, InvAt paddr s k c p pending

variable {k : Nat} {c p : Bool} {pending : List BasicTRB}

theorem InvAt.outstanding_eq (h : InvAt paddr s k c p pending) : s.outstanding = pending.length := by
  unfold outstanding
  rw [h.pushed, length_append]
  omega

theorem InvAt.outstanding_le (h : InvAt paddr s k c p pending) : s.outstanding ≤ N := by
  have hnext := h.next
  rw [h.outstanding_eq]
  rcases h.laps with ⟨-, hlen⟩ | ⟨-, hlen, hle⟩ <;> omega

theorem inv_start (hN : 1 ≤ N) (r : TransferRequestBlockRing N) (paddr : Word) : Inv paddr (start r paddr) := by
  obtain ⟨k, rfl⟩ : ∃ k, N = k + 1 := ⟨N - 1, by omega⟩
  obtain ⟨hpayload, hbits, hzero, htrue, hpaddr⟩ :=
    pushLoop_clears k (r := ⟨update r.entry (k + 1) (linkTrb paddr), 0, 0#32, paddr⟩) (zero_add _) rfl
  refine ⟨0, true, true, [], ?_, htrue, hpaddr, ?_, ?_, fun i hi => ?_, succ_pos k, .inl rfl, .inl ⟨rfl, hzero.symm⟩,
    rfl, fun j hj => absurd hj (not_lt_zero j)⟩
  · show (pushLoop (k + 1) _).nextEnqueueIdx < k + 1
    rw [hzero]
    exact succ_pos k
  · refine (hpayload (k + 1)).trans ?_
    dsimp only
    rw [update_self]
  · refine (hbits _).trans ?_
    rw [if_pos ⟨zero_le _, le_refl _⟩]
    rfl
  · refine (hbits i).trans ?_
    rw [if_pos ⟨zero_le i, hi.le⟩, if_neg]
    · rfl
    · show ¬ i < (pushLoop (k + 1) _).nextEnqueueIdx
      rw [hzero]
      exact not_lt_zero i

/-- The entries that are pending are not the one that is filled next. -/
theorem InvAt.place_ne (h : InvAt paddr s k c p pending)
    (hroom : pending.length < N) {j : Nat} (hj : j < pending.length) : place N k j ≠ s.ring.nextEnqueueIdx := by
  unfold place
  rcases h.laps with ⟨-, hlen⟩ | ⟨-, hlen, hle⟩ <;> split_ifs <;> omega

theorem InvAt.place_last (h : InvAt paddr s k c p pending) : place N k pending.length = s.ring.nextEnqueueIdx := by
  have hnext := h.next
  unfold place
  rcases h.laps with ⟨-, hlen⟩ | ⟨-, hlen, hle⟩ <;> split_ifs <;> omega

theorem Inv.produce (h : Inv paddr s) (hstep : Produce s s') : Inv paddr s' := by
  obtain ⟨k, c, p, pending, h⟩ := h
  have hnext := h.next
  cases hstep with
  | fill t hroom hcycle =>
    rw [h.outstanding_eq] at hroom
    have hN : N ≠ s.ring.nextEnqueueIdx := by omega
    refine ⟨k, c, p, pending, h.next, h.cycle, h.base, ?_, ?_, fun i hi => ?_, h.idx, h.consumer, h.laps,
      h.pushed, fun j hj => ?_⟩
    · dsimp only
      rw [update_of_ne hN]
      exact h.link
    · dsimp only
      rw [update_of_ne hN]
      exact h.linkBit
    · dsimp only
      by_cases he : i = s.ring.nextEnqueueIdx
      · subst he
        rw [update_self, hcycle]
        exact h.bits _ hi
      · rw [update_of_ne he]
        exact h.bits i hi
    · dsimp only
      rw [update_of_ne (h.place_ne hroom hj)]
      exact h.places j hj
  | push hroom =>
    rw [h.outstanding_eq] at hroom
    have hp := push_pushes h.cycle
    have hidx := h.idx
    have hplaces : ∀ j < (pending ++ [s.nextEntry.payload]).length,
        (pending ++ [s.nextEntry.payload])[j]? = some (s.ring.push.2.entry (place N k j)).payload := by
      intro j hj
      rw [length_append, length_singleton] at hj
      rw [hp.payload]
      rcases lt_or_ge j pending.length with hlt | hge
      · rw [getElem?_append_left hlt]
        exact h.places j hlt
      · obtain rfl : j = pending.length := by omega
        rw [getElem?_concat_length, h.place_last]
        rfl
    have hpushed : s.pushed ++ [s.nextEntry.payload] = s.received ++ (pending ++ [s.nextEntry.payload]) := by
      rw [h.pushed, append_assoc]
    have hlen : (pending ++ [s.nextEntry.payload]).length = pending.length + 1 := by simp
    by_cases hlast : s.ring.nextEnqueueIdx + 1 = N
    · -- the driver begins a new lap
      have hzero : s.ring.push.2.nextEnqueueIdx = 0 := by rw [hp.next, if_pos hlast]
      have hlap : p = c ∧ k + pending.length = s.ring.nextEnqueueIdx := by
        rcases h.laps with hlap | ⟨-, hlen, hle⟩
        · exact hlap
        · omega
      refine ⟨k, c, !p, pending ++ [s.nextEntry.payload], ?_, ?_, hp.paddr.trans h.base, (hp.payload N).trans h.link,
        ?_, fun i hi => ?_, hidx, h.consumer, .inr ⟨by rw [hlap.1], ?_, ?_⟩, hpushed, hplaces⟩
      · dsimp only
        omega
      · rw [hp.cycle, if_pos hlast]
      · rw [hp.cycleBit, if_pos (.inr ⟨rfl, hlast⟩), Bool.not_not]
      · rw [hp.cycleBit, h.bits i hi, hzero, if_neg (not_lt_zero i), Bool.not_not]
        split_ifs <;> first | rfl | omega
      · dsimp only
        omega
      · dsimp only
        omega
    · have hsucc : s.ring.push.2.nextEnqueueIdx = s.ring.nextEnqueueIdx + 1 := by rw [hp.next, if_neg hlast]
      refine ⟨k, c, p, pending ++ [s.nextEntry.payload], ?_, ?_, hp.paddr.trans h.base, (hp.payload N).trans h.link, ?_,
        fun i hi => ?_, hidx, h.consumer, ?_, hpushed, hplaces⟩
      · dsimp only
        omega
      · rw [hp.cycle, if_neg hlast]
      · rw [hp.cycleBit, if_neg (by omega)]
        exact h.linkBit
      · rw [hp.cycleBit, h.bits i hi, hsucc]
        split_ifs <;> first | rfl | omega
      · dsimp only
        rcases h.laps with ⟨he, hlap⟩ | ⟨he, hlap, hle⟩
        · exact .inl ⟨he, by omega⟩
        · exact .inr ⟨he, by omega, by omega⟩

theorem control_payload (t : BasicTRB) : t.payload.control.getLsbD 1 = t.control.getLsbD 1 := by
  simp [BasicTRB.payload, BasicTRB.setCycle]

/-- The link leads to the first entry and toggles the cycle state. -/
theorem InvAt.link_leads (h : InvAt paddr s k c p pending) :
    ((s.ring.entry N).data - s.ring.paddr).toNat / 16 = 0 ∧ (s.ring.entry N).control.getLsbD 1 = true := by
  have hdata : (s.ring.entry N).data = paddr := congrArg BasicTRB.data h.link
  constructor
  · rw [hdata, h.base, BitVec.sub_self]
    rfl
  · rw [← control_payload, h.link, control_payload]
    show ((kTRBTypeLink <<< 10) ||| 2#32).getLsbD 1 = true
    decide

/-- The consumer's state is on the entry it looks at exactly if there is something to take. -/
theorem InvAt.takes_iff (h : InvAt paddr s k c p pending) : (s.ring.entry k).cycleBit = c ↔ pending ≠ [] := by
  rw [h.bits k h.idx, ← length_pos_iff]
  rcases h.laps with ⟨rfl, hlen⟩ | ⟨rfl, hlen, hle⟩
  · split_ifs with hk
    · simp only [true_iff]
      omega
    · simp only [Bool.not_eq_self, false_iff]
      omega
  · rw [if_neg (by omega), Bool.not_not]
    have hidx := h.idx
    simp only [true_iff]
    omega

theorem InvAt.take {t : BasicTRB} {rest : List BasicTRB} (h : InvAt paddr s k c p (t :: rest))
    (hk : s.consumer = ⟨k, c⟩) : ∃ k' c', InvAt paddr { s with
      consumer := { s.consumer with idx := s.consumer.idx + 1 }
      received := s.received ++ [(s.ring.entry s.consumer.idx).payload] } k' c' p rest := by
  have hnext := h.next
  have hidx := h.idx
  have hlen : (t :: rest).length = rest.length + 1 := rfl
  have hfirst : t = (s.ring.entry k).payload := by
    have := h.places 0 (succ_pos _)
    rw [getElem?_cons_zero, Option.some.injEq] at this
    rw [this, place, if_pos (by omega), add_zero]
  have hpushed : s.pushed = (s.received ++ [(s.ring.entry k).payload]) ++ rest := by
    rw [h.pushed, ← hfirst, append_assoc]
    rfl
  have hplaces : ∀ j < rest.length, rest[j]? = some (s.ring.entry (place N k (j + 1))).payload := fun j hj =>
    h.places (j + 1) (succ_lt_succ hj)
  rw [hk]
  by_cases hlast : k + 1 = N
  · -- the consumer is now at the link, which counts as being before the first entry
    refine ⟨0, !c, h.next, h.cycle, h.base, h.link, h.linkBit,
      h.bits, by omega, .inr ⟨rfl, ?_⟩, ?_, hpushed, fun j hj => ?_⟩
    · rw [Bool.not_not]
      exact congrArg (Consumer.mk · c) hlast
    · rcases h.laps with ⟨-, hlap⟩ | ⟨he, hlap, -⟩
      · omega
      · exact .inl ⟨he, show 0 + rest.length = s.ring.nextEnqueueIdx by omega⟩
    · have hplace : place N 0 j = place N k (j + 1) := by
        unfold place
        rcases h.laps with ⟨-, hlap⟩ | ⟨-, hlap, -⟩ <;> split_ifs <;> omega
      rw [hplace]
      exact hplaces j hj
  · refine ⟨k + 1, c, h.next, h.cycle, h.base, h.link, h.linkBit,
      h.bits, by omega, .inl rfl, ?_, hpushed, fun j hj => ?_⟩
    · rcases h.laps with ⟨he, hlap⟩ | ⟨he, hlap, hle⟩
      · exact .inl ⟨he, show k + 1 + rest.length = s.ring.nextEnqueueIdx by omega⟩
      · exact .inr ⟨he, show k + 1 + rest.length = N + s.ring.nextEnqueueIdx by omega, le_succ_of_le hle⟩
    · have hplace : place N (k + 1) j = place N k (j + 1) := by
        unfold place
        rw [add_right_comm k 1 j, add_assoc k j 1]
      rw [hplace]
      exact hplaces j hj

theorem InvAt.follow (h : InvAt paddr s 0 c p pending) (hk : s.consumer = ⟨N, !c⟩) :
    InvAt paddr { s with consumer :=
      ⟨((s.ring.entry N).data - s.ring.paddr).toNat / 16, xor ((s.ring.entry N).control.getLsbD 1) s.consumer.cycle⟩ }
      0 c p pending := by
  refine { h with consumer := .inl ?_ }
  rw [h.link_leads.1, h.link_leads.2, hk, Bool.true_xor, Bool.not_not]

theorem Inv.consume (h : Inv paddr s) (hstep : Consume s s') : Inv paddr s' := by
  obtain ⟨_, c, p, pending, h⟩ := h
  have hidx := h.idx
  cases hstep with
  | take hlt hcycle =>
    rcases h.consumer with hk | ⟨-, hk⟩
    · rw [hk] at hcycle
      obtain ⟨_, rest, rfl⟩ := exists_cons_of_ne_nil (h.takes_iff.mp hcycle)
      obtain ⟨k', c', h'⟩ := h.take hk
      exact ⟨k', c', p, rest, h'⟩
    · rw [hk] at hlt
      exact absurd hlt (lt_irrefl N)
  | follow hN =>
    rcases h.consumer with hk | ⟨rfl, hk⟩
    · rw [hk] at hN
      exact absurd hN hidx.ne
    · exact ⟨0, c, p, pending, h.follow hk⟩

theorem Runs.inv {r : TransferRequestBlockRing N} (hN : 1 ≤ N) (hs : Runs r paddr s) : Inv paddr s := by
  induction hs with
  | start => exact inv_start hN r paddr
  | produce _ hstep ih => exact ih.produce hstep
  | consume _ hstep ih => exact ih.consume hstep

/-! ## The ring is a queue -/

/-- If the consumer is at the link, it can follow it. -/
theorem InvAt.to_entry (h : InvAt paddr s k c p pending) :
    ∃ s', Relation.ReflTransGen Consume s s' ∧ s'.pushed = s.pushed ∧ InvAt paddr s' k c p pending ∧
      s'.consumer = ⟨k, c⟩ := by
  rcases h.consumer with hk | ⟨rfl, hk⟩
  · exact ⟨s, .refl, rfl, h, hk⟩
  · refine ⟨_, .single (.follow (by rw [hk])), rfl, h.follow hk, ?_⟩
    rw [h.link_leads.1, h.link_leads.2, hk, Bool.true_xor, Bool.not_not]

/-- On its own the consumer comes to everything that was pushed. -/
theorem InvAt.drains : ∀ (pending : List BasicTRB) {s : System N} {k : Nat} {c p : Bool}, InvAt paddr s k c p pending →
    ∃ s', Relation.ReflTransGen Consume s s' ∧ s'.pushed = s.pushed ∧ s'.received = s.pushed
  | [], s, _, _, _, h => ⟨s, .refl, rfl, by rw [h.pushed, append_nil]⟩
  | t :: rest, s, k, c, p, h => by
    obtain ⟨s1, hsteps1, hpushed1, h1, hk⟩ := h.to_entry
    have htake : (s1.ring.entry k).cycleBit = c := h1.takes_iff.mpr (cons_ne_nil t rest)
    obtain ⟨_, _, h2⟩ := h1.take hk
    obtain ⟨s', hsteps, hpushed, hreceived⟩ := InvAt.drains rest h2
    have hstep := Consume.take (s := s1) (by rw [hk]; exact h1.idx) (by rw [hk]; exact htake)
    exact ⟨s', hsteps1.trans (.head hstep hsteps), hpushed.trans hpushed1, hreceived.trans hpushed1⟩

/-- At the link the consumer finds its cycle state, unless the driver has gone round the whole ring before it follows.
-/
theorem InvAt.linkBit_eq (h : InvAt paddr s k c p pending) (hend : s.consumer.idx = N) (hroom : s.outstanding < N) :
    (s.ring.entry N).cycleBit = s.consumer.cycle := by
  have hidx := h.idx
  have hnext := h.next
  rw [h.outstanding_eq] at hroom
  rcases h.consumer with hk | ⟨rfl, hk⟩
  · rw [hk] at hend
    exact absurd hend hidx.ne
  · rw [hk, h.linkBit]
    rcases h.laps with ⟨rfl, -⟩ | ⟨-, hlen, hle⟩
    · rfl
    · omega

/-- Right after it took the last entry, the consumer finds its cycle state on the link. -/
theorem Runs.linkBit_of_take {r : TransferRequestBlockRing N} (hN : 1 ≤ N) (hs : Runs r paddr s) (hstep : Consume s s')
    (hend : s'.consumer.idx = N) : (s'.ring.entry N).cycleBit = s'.consumer.cycle := by
  obtain ⟨k, c, p, pending, h⟩ := hs.inv hN
  obtain ⟨k', c', p', pending', h'⟩ := (hs.consume hstep).inv hN
  refine h'.linkBit_eq hend ?_
  cases hstep with
  | take =>
    have hroom := h.outstanding_le
    unfold outstanding at hroom ⊢
    dsimp only
    rw [length_append, length_singleton]
    omega
  | follow =>
    have : (0 : Nat) = N := h.link_leads.1.symm.trans hend
    omega

/-- In every interleaving the driver stays in the ring, and what the consumer has received are the first of the TRBs
that were pushed, at most `N` of which are outstanding. The consumer finds its cycle state on an entry exactly when
there is one to receive, it is never stuck before it has received all, and its own steps lead there. `Consume.follow`
does not look at the cycle bit of the link; a consumer that does, and follows the link right after it took the last
entry, finds its own state there. -/
theorem trbRing_refines_queue (hN : 1 ≤ N) (r : TransferRequestBlockRing N) (paddr : Word) {s : System N}
    (hs : Runs r paddr s) :
    s.ring.nextEnqueueIdx < N ∧ s.received <+: s.pushed ∧ s.outstanding ≤ N ∧
      (s.consumer.idx < N → ((s.ring.entry s.consumer.idx).cycleBit = s.consumer.cycle ↔ s.received ≠ s.pushed)) ∧
      ((∀ s', ¬ Consume s s') → s.received = s.pushed) ∧
      (s.consumer.idx = N → s.outstanding < N → (s.ring.entry N).cycleBit = s.consumer.cycle) ∧
      (∀ s', Consume s s' → s'.consumer.idx = N → (s'.ring.entry N).cycleBit = s'.consumer.cycle) ∧
      ∃ s', Relation.ReflTransGen Consume s s' ∧ s'.pushed = s.pushed ∧ s'.received = s.pushed := by
  obtain ⟨k, c, p, pending, h⟩ := hs.inv hN
  have hidx := h.idx
  have hpending : pending ≠ [] ↔ s.received ≠ s.pushed := by
    simp [h.pushed]
  have htakes : s.consumer.idx < N →
      ((s.ring.entry s.consumer.idx).cycleBit = s.consumer.cycle ↔ s.received ≠ s.pushed) := by
    intro hlt
    rcases h.consumer with hk | ⟨-, hk⟩
    · rw [hk]
      exact h.takes_iff.trans hpending
    · rw [hk] at hlt
      exact absurd hlt (lt_irrefl N)
  refine ⟨h.next, ⟨pending, h.pushed.symm⟩, h.outstanding_le, htakes, fun hstuck => ?_, h.linkBit_eq,
    fun _ => hs.linkBit_of_take hN, InvAt.drains pending h⟩
  by_contra hne
  rcases h.consumer with hk | ⟨-, hk⟩
  · have hlt : s.consumer.idx < N := by rw [hk]; exact hidx
    exact hstuck _ (.take hlt ((htakes hlt).mpr hne))
  · exact hstuck _ (.follow (by rw [hk]))

/-- A ring of two entries before `Init`. -/
def twoEntries : TransferRequestBlockRing 2 := ⟨fun _ => ⟨0#64, 0#32, 0#32⟩, 0, 0#32, 0#64⟩

/-- Two TRBs go through the ring, a third one is put in the first entry again, and the consumer follows the link to
it. -/
theorem trbRing_refines_queue_three : ∃ s, Runs twoEntries 0x1000#64 s ∧ s.pushed.map (·.data) = [1#64, 2#64, 3#64] ∧
    s.received.map (·.data) = [1#64, 2#64] ∧ s.consumer = ⟨0, false⟩ ∧ s.received <+: s.pushed ∧
    (s.ring.entry 0).cycleBit = false := by
  have hpush : ∀ {s} (t : BasicTRB), Runs twoEntries 0x1000#64 s → s.outstanding < 2 → t.cycleBit =
    s.nextEntry.cycleBit →
      Runs twoEntries 0x1000#64 _ := fun t hs hroom hcycle =>
      .produce (.produce hs (.fill t hroom hcycle)) (.push hroom)
  have h2 := hpush ⟨2#64, 0#32, 0#32⟩ (hpush ⟨1#64, 0#32, 0#32⟩ .start (by decide) (by decide)) (by decide) (by decide)
  have htaken := (h2.consume (.take (by decide) (by decide))).consume (.take (by decide) (by decide))
  have hs := (hpush ⟨3#64, 0#32, 1#32⟩ htaken (by decide) (by decide)).consume (.follow rfl)
  obtain ⟨-, hprefix, -, htakes, -⟩ := trbRing_refines_queue (by decide) twoEntries 0x1000#64 hs
  exact ⟨_, hs, by decide, by decide, rfl, hprefix, (htakes (by decide)).2 (by decide)⟩

end System

end Liumos.XHCI
