/-
Transmission: the driver fills buffers and publishes them, the device takes what is published at its own
free-running index. The index `SendPacket` publishes is that of the ring entry plus one, and not the number
of packets sent: the two agree as long as the cursor has not passed the end of the ring. Until then the
device takes each packet once and in order.
Sources: virtio_net.h (`GetNextTXPacketBuf`), virtio_net.cc (`SendPacket`).
-/
import Liumos.Virtio.Queue

namespace Liumos.Virtio

open List Nat

/-! ## Runs -/

/-- A packet as the device sees it. -/
structure Packet where
  len : BitVec 32
  page : Nat → Byte

def Virtqueue.packet (q : Virtqueue) (idx : Nat) : Packet := ⟨(q.desc idx).len, (q.desc idx).page⟩

/-- Driver and device, with the packets sent and the packets taken so far. `opened` is the buffer that was
handed out and not sent yet. -/
structure TxState where
  net : Net
  seen : BitVec 16
  sent : List Packet
  consumed : List Packet
  opened : Option Nat

/-- `GetNextTXPacketBuf`, stores to the buffer it returned, `SendPacket`, or a packet taken by the device. -/
inductive TxEvent where
  | getBuf (size : Word)
  | fill (page : Nat → Byte)
  | send
  | consume

/-- The number of packets that the device has not taken yet. -/
def TxState.outstanding (s : TxState) : Nat := s.sent.length - s.consumed.length

/-- One event. Buffers are filled and sent after they were handed out; a buffer is handed out while less than
`n` packets are outstanding. -/
inductive TxStep (s : TxState) : TxEvent → TxState → Prop
  | getBuf {size : Word} {idx : Nat} {net : Net} : s.opened = none → s.outstanding < s.net.txq.queueSize →
      (getNextTXPacketBuf size).run s.net = .ok idx net → TxStep s (.getBuf size)
      { s with net := net, opened := some idx }
  | fill {page : Nat → Byte} {idx : Nat} : s.opened = some idx →
      TxStep s (.fill page)
        { s with net := { s.net with txq := s.net.txq.setDesc idx { s.net.txq.desc idx with page := page } } }
  | send {idx : Nat} {net : Net} : s.opened = some idx → sendPacket.run s.net = .ok () net →
      TxStep s .send { s with net := net, sent := s.sent ++ [net.txq.packet idx], opened := none }
  | consume : s.seen ≠ s.net.txq.index →
      TxStep s .consume { s with
        seen := s.seen + 1#16
        consumed := s.consumed ++
          [s.net.txq.packet (s.net.txq.ring (s.seen.toNat % s.net.txq.queueSize)).toNat] }

/-- The runs after `Init` in which every `SendPacket` meets `C`. -/
inductive TxRun (n : Nat) (C : Net → Prop) : TxState → Prop
  | init {net : Net} : net.txq.queueSize = n → net.txCursor = 0#16 → net.txq.index = 0#16 →
      TxRun n C ⟨net, 0#16, [], [], none⟩
  | step {s s' : TxState} {e : TxEvent} : TxRun n C s → (e = .send → C s.net) → TxStep s e s' → TxRun n C s'

/-- The device has taken the packets in the order in which they were sent, each once, and it has taken all of
them when nothing more is published. -/
def TxState.ExactlyOnce (s : TxState) : Prop :=
  s.consumed <+: s.sent ∧ (s.seen = s.net.txq.index → s.consumed = s.sent)

/-- The cursor has not passed the end of the ring. -/
def FirstRound (net : Net) : Prop := net.txCursor.toNat < net.txq.queueSize

/-! ## The first round -/

/-- The packets that are not taken yet lie in the descriptors of their numbers. -/
structure TxInv (n : Nat) (s : TxState) : Prop where
  queueSize : s.net.txq.queueSize = n
  sent_le : s.sent.length ≤ n
  cursor : s.net.txCursor.toNat = s.sent.length
  index : s.net.txq.index = s.net.txCursor
  seen : s.seen.toNat = s.consumed.length
  consumed : s.consumed <+: s.sent
  pending : ∀ j (p : Packet), s.consumed.length ≤ j → s.sent[j]? = some p →
    s.net.txq.ring j = BitVec.ofNat 16 j ∧ s.net.txq.packet j = p
  opened : ∀ idx, s.opened = some idx → idx = s.sent.length % n ∧ s.outstanding < n

variable {n : Nat} {s s' : TxState} {e : TxEvent}

section

variable (h : TxInv n s)

include h

/-- A buffer that is handed out is not that of a packet which is not taken yet. -/
theorem TxInv.fresh (ho : s.outstanding < n) {j : Nat} (hj : s.consumed.length ≤ j) (hlt : j < s.sent.length) :
    j ≠ s.sent.length % n := by
  have := h.sent_le
  unfold TxState.outstanding at ho
  rcases lt_or_ge s.sent.length n with hl | hl
  · rw [mod_eq_of_lt hl]
    omega
  · have : s.sent.length = n := by omega
    rw [this, mod_self]
    omega

variable {idx : Nat}

/-- A change of the buffer that is handed out. -/
theorem TxInv.setDesc (ho : s.outstanding < n) (d : Descriptor) (hidx : idx = s.sent.length % n) :
    TxInv n { s with net := { s.net with txq := s.net.txq.setDesc idx d }, opened := some idx } where
  queueSize := h.queueSize
  sent_le := h.sent_le
  cursor := h.cursor
  index := h.index
  seen := h.seen
  consumed := h.consumed
  pending := by
    intro j p hj hp
    obtain ⟨hring, hpacket⟩ := h.pending j p hj hp
    have hne : j ≠ idx := hidx ▸ h.fresh ho hj (List.getElem?_eq_some_iff.1 hp).1
    refine ⟨hring, ?_⟩
    rw [← hpacket]
    simp [Virtqueue.packet, Virtqueue.setDesc, hne]
  opened := by
    intro i hi
    cases hi
    exact ⟨hidx, ho⟩

theorem TxInv.getBuf {size : Word} {net : Net} (ho : s.outstanding < s.net.txq.queueSize)
    (hrun : (getNextTXPacketBuf size).run s.net = .ok idx net) : TxInv n { s with net := net, opened := some idx } := by
  obtain ⟨-, -, rfl, -, rfl⟩ := run_getNextTXPacketBuf_ok hrun
  refine h.setDesc (h.queueSize ▸ ho) _ ?_
  rw [Net.txIdx, h.cursor, h.queueSize]

theorem TxInv.fill (hi : s.opened = some idx) (page : Nat → Byte) :
    TxInv n { s with net := { s.net with txq := s.net.txq.setDesc idx { s.net.txq.desc idx with page := page } } } := by
  obtain ⟨hidx, ho⟩ := h.opened idx hi
  have h' := h.setDesc ho { s.net.txq.desc idx with page := page } hidx
  rw [← hi] at h'
  exact h'

theorem TxInv.send (hn : n ≤ 256) {net : Net} (hi : s.opened = some idx) (hC : FirstRound s.net)
    (hrun : sendPacket.run s.net = .ok () net) :
    TxInv n { s with net := net, sent := s.sent ++ [net.txq.packet idx], opened := none } := by
  obtain ⟨-, rfl⟩ := run_sendPacket_ok hrun
  obtain ⟨hidx, ho⟩ := h.opened idx hi
  have hlt : s.sent.length < n := by
    have := h.cursor
    have := h.queueSize
    unfold FirstRound at hC
    omega
  have hslot : s.net.txIdx = s.sent.length := by
    rw [Net.txIdx, h.cursor, h.queueSize, mod_eq_of_lt hlt]
  have hidx' : idx = s.sent.length := by rw [hidx, mod_eq_of_lt hlt]
  subst hidx'
  rw [Net.published, hslot]
  exact {
    queueSize := h.queueSize
    sent_le := by
      simp only [length_append, length_singleton]
      omega
    cursor := by
      have := h.cursor
      simp only [length_append, length_singleton, BitVec.toNat_add, BitVec.toNat_ofNat]
      omega
    index := by
      -- the entry of the ring and the cursor are the same number
      apply BitVec.eq_of_toNat_eq
      have := h.cursor
      simp only [Virtqueue.setIndex, BitVec.toNat_add, BitVec.toNat_ofInt, BitVec.toNat_ofNat]
      omega
    seen := h.seen
    consumed := h.consumed.trans (prefix_append _ _)
    pending := by
      intro j p hj hp
      rcases lt_or_ge j s.sent.length with hjl | hjl
      · rw [getElem?_append_left hjl] at hp
        obtain ⟨hring, hpacket⟩ := h.pending j p hj hp
        have hne : j ≠ s.sent.length := by omega
        rw [← hring, ← hpacket]
        simp [Virtqueue.packet, Virtqueue.setDesc, Virtqueue.setRing, Virtqueue.setIndex, hne]
      · have hj' : j = s.sent.length := by
          have := (List.getElem?_eq_some_iff.1 hp).1
          simp only [length_append, length_singleton] at this
          omega
        subst hj'
        rw [getElem?_concat_length] at hp
        cases hp
        simp [Virtqueue.packet, Virtqueue.setDesc, Virtqueue.setRing, Virtqueue.setIndex]
    opened := nofun }

theorem TxInv.available (hne : s.seen ≠ s.net.txq.index) : s.consumed.length < s.sent.length := by
  have hle := h.consumed.length_le
  rcases lt_or_ge s.consumed.length s.sent.length with hlt | hge
  · exact hlt
  · exfalso
    refine hne (BitVec.eq_of_toNat_eq ?_)
    rw [h.index, h.cursor, h.seen]
    omega

theorem TxInv.consume (hn : n ≤ 256) (hne : s.seen ≠ s.net.txq.index) : TxInv n { s with
      seen := s.seen + 1#16
      consumed := s.consumed ++ [s.net.txq.packet (s.net.txq.ring (s.seen.toNat % s.net.txq.queueSize)).toNat] } := by
  have hlt := h.available hne
  have hle := h.sent_le
  obtain ⟨rest, hrest⟩ := h.consumed
  obtain ⟨p, rest, rfl⟩ : ∃ p rest', rest = p :: rest' := by
    cases rest with
    | nil =>
      rw [append_nil] at hrest
      rw [hrest] at hlt
      exact absurd hlt (lt_irrefl _)
    | cons p rest => exact ⟨p, rest, rfl⟩
  have hslot : s.seen.toNat % s.net.txq.queueSize = s.consumed.length := by
    rw [h.seen, h.queueSize, mod_eq_of_lt (by omega)]
  have hget : s.sent[s.consumed.length]? = some p := by
    rw [← hrest, getElem?_append_right (le_refl _), Nat.sub_self]
    rfl
  obtain ⟨hring, hpacket⟩ := h.pending _ _ (le_refl _) hget
  have hdesc : (BitVec.ofNat 16 s.consumed.length).toNat = s.consumed.length := by
    rw [BitVec.toNat_ofNat]
    omega
  rw [hslot, hring, hdesc, hpacket]
  exact {
    queueSize := h.queueSize
    sent_le := h.sent_le
    cursor := h.cursor
    index := h.index
    seen := by
      have := h.seen
      simp only [length_append, length_singleton, BitVec.toNat_add, BitVec.toNat_ofNat]
      omega
    consumed := ⟨rest, by rw [append_assoc]; exact hrest⟩
    pending := fun j p hj hp => h.pending j p (by simp only [length_append, length_singleton] at hj; omega) hp
    opened := by
      intro idx hi
      obtain ⟨hidx, ho⟩ := h.opened idx hi
      refine ⟨hidx, lt_of_le_of_lt ?_ ho⟩
      simp only [TxState.outstanding, length_append, length_singleton]
      omega }

theorem TxInv.step (hn : n ≤ 256) (hC : e = .send → FirstRound s.net) (hs : TxStep s e s') : TxInv n s' := by
  cases hs with
  | getBuf _ ho hrun => exact h.getBuf ho hrun
  | fill hi => exact h.fill hi _
  | send hi hrun => exact h.send hn hi (hC rfl) hrun
  | consume hne => exact h.consume hn hne

end

theorem TxRun.inv (hn : n ≤ 256) (h : TxRun n FirstRound s) : TxInv n s := by
  induction h with
  | init hsize hcursor hindex =>
    exact ⟨hsize, zero_le _, by rw [hcursor]; rfl, by rw [hindex, hcursor], rfl, prefix_refl _, nofun, nofun⟩
  | step _ hC hs ih => exact ih.step hn hC hs

/-- In every run in which each `SendPacket` finds the cursor before the end of the ring, the device takes each
packet exactly once and in order, however its steps are interleaved with those of the driver. -/
theorem transmit_exactlyOnce (hn : n ≤ 256) (h : TxRun n FirstRound s) : s.ExactlyOnce := by
  have hi := h.inv hn
  refine ⟨hi.consumed, fun hseen => ?_⟩
  refine hi.consumed.eq_of_length ?_
  rw [← hi.seen, hseen, hi.index, hi.cursor]

/-- With two descriptors: the device takes the first of two packets while the second one is filled. -/
theorem transmit_exactlyOnce_two :
    ∃ s, TxRun 2 FirstRound s ∧ s.sent.length = 2 ∧ s.seen = s.net.txq.index ∧ s.consumed = s.sent := by
  have h0 : TxRun 2 FirstRound ⟨initialNet 2, 0#16, [], [], none⟩ := .init rfl rfl rfl
  have h1 := h0.step (e := .getBuf 42#64) nofun (.getBuf rfl (by decide) rfl)
  have h2 := h1.step (e := .send) (fun _ => show 0 < 2 by decide) (.send rfl rfl)
  have h3 := h2.step (e := .getBuf 60#64) nofun (.getBuf rfl (by decide) rfl)
  have h4 := h3.step (e := .consume) nofun (.consume (by decide))
  have h5 := h4.step (e := .send) (fun _ => show 1 < 2 by decide) (.send rfl rfl)
  have h6 := h5.step (e := .consume) nofun (.consume (by decide))
  exact ⟨_, h6, rfl, rfl, (transmit_exactlyOnce (by decide) h6).2 rfl⟩

/-- With one descriptor, the second packet publishes the index of the first again: the device never takes it. -/
theorem second_packet_lost : ∃ s, TxRun 1 (fun _ => True) s ∧ s.sent.length = 2 ∧ s.consumed.length = 1 ∧
    s.seen = s.net.txq.index ∧ ¬ s.ExactlyOnce := by
  have h0 : TxRun 1 (fun _ => True) ⟨initialNet 1, 0#16, [], [], none⟩ := .init rfl rfl rfl
  have h1 := h0.step (e := .getBuf 42#64) nofun (.getBuf rfl (by decide) rfl)
  have h2 := h1.step (e := .send) (fun _ => trivial) (.send rfl rfl)
  have h3 := h2.step (e := .consume) nofun (.consume (by decide))
  have h4 := h3.step (e := .getBuf 42#64) nofun (.getBuf rfl (by decide) rfl)
  have h5 := h4.step (e := .send) (fun _ => trivial) (.send rfl rfl)
  refine ⟨_, h5, rfl, rfl, rfl, fun h => ?_⟩
  exact absurd (congrArg length (h.2 rfl)) (by decide)

end Liumos.Virtio
