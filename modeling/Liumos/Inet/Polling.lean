/-
The index that the driver publishes in the available ring of the receive queue, over runs of any number of
`PollRXQueue` calls after `Init`, with any device.
Source: virtio_net.cc (`PollRXQueue`, `Init`).
-/
import Liumos.Inet.Handlers

namespace Liumos.Inet

open Virtio BitVec

/-! ## What a packet leaves alone -/

/-- The receive queue and its cursor. -/
def rx (s : NetState) : Virtqueue × BitVec 16 := (s.net.rxq, s.net.rxCursor)

theorem keeps_onNet {β : Type} {x : KM Net β}
    (h : ∀ net b net', x.run net = .ok b net' → net'.rxq = net.rxq ∧ net'.rxCursor = net.rxCursor) :
    Keeps rx (onNet x) := by
  intro s b s' hrun
  obtain ⟨_, hx, rfl⟩ := of_run_onNet hrun
  obtain ⟨h1, h2⟩ := h _ _ _ hx
  exact Prod.ext h1 h2

theorem keeps_transmit (size : Word) (fill : Net → Frame → Frame) : Keeps rx (transmit size fill) := by
  refine .bind (keeps_onNet fun net idx net' h => ?_) fun idx => .bind .get fun s =>
    .bind (.modify fun s => rfl) fun _ =>
    keeps_onNet fun net u net' h => ?_
  · obtain ⟨-, -, -, -, rfl⟩ := run_getNextTXPacketBuf_ok h
    exact ⟨rfl, rfl⟩
  · obtain ⟨-, rfl⟩ := run_sendPacket_ok h
    exact ⟨rfl, rfl⟩

theorem keeps_arpPacketHandler (frame : Frame) (size : Word) : Keeps rx (arpPacketHandler frame size) := by
  refine .ite (.pure _) (.ite (.pure _) ?_)
  cases getOperation frame with
  | unknown => exact .pure _
  | reply => exact .bind (.modify fun _ => rfl) fun _ => .pure _
  | request => exact .bind .get fun s => .ite (.pure _) (.bind (keeps_transmit _ _) fun _ => .pure _)

theorem keeps_icmpPacketHandler (frame : Frame) (size : Word) : Keeps rx (icmpPacketHandler frame size) := by
  have hreply : Keeps rx (sendICMPEchoReply frame size) :=
    .ite (.pure _) (.bind (keeps_transmit _ _) fun _ => keeps_transmit _ _)
  exact .ite (.pure _) (.ite (.pure _) (.ite (.bind hreply fun _ => .pure _) (.pure _)))

theorem keeps_ipv4PacketHandler (frame : Frame) (size : Word) : Keeps rx (ipv4PacketHandler frame size) :=
  .ite (.pure _) (.ite (.pure _) (.bind (keeps_icmpPacketHandler _ _) fun _ => .ite (.pure _)
    (.bind (keeps_udpPacketHandler ⟨fun _ _ => rfl, fun _ _ => rfl, fun _ _ => rfl, fun _ _ => rfl⟩ _ _) fun _ =>
      .ite (.pure _) (.pure _))))

theorem keeps_processPacket (page : Nat → Byte) (bufSize : Word) : Keeps rx (processPacket page bufSize) := by
  have hpush : Keeps rx (pushToRXBuffer (frameOf page) (bufSize - BitVec.ofNat 64 sizeofPacketBufHeader)) :=
    .bind (.assert _ _) fun _ => .bind (.assert _ _) fun _ => .modify fun _ => rfl
  exact .bind (keeps_arpPacketHandler _ _) fun _ => .ite (.bind (keeps_ipv4PacketHandler _ _) fun _ => hpush) hpush

/-! ## One call -/

/-- What the loop does to the queue: the cursor moves by the number of packets, the published index stays. -/
theorem pollLoop_rx {device : Nat → Completion} : ∀ {fuel k : Nat} {s s' : NetState} {n : Nat},
    (pollLoop device fuel k).run s = .ok n s' →
    s'.net.rxCursor = s.net.rxCursor + BitVec.ofNat 16 n ∧ s'.net.rxq.index = s.net.rxq.index
  | 0, _, _, _, _, h => by cases h
  | fuel + 1, k, s, s', n, h => by
    rw [pollLoop, run_getUsedRingIndex_bind, run_get_bind] at h
    dsimp only at h
    split_ifs at h with hused
    · cases h
      exact ⟨by simp [Completion.apply], rfl⟩
    · obtain ⟨_, h⟩ := of_run_assert_bind h
      obtain ⟨_, t, hpacket, h⟩ := run_bind_ok h
      have hkept := keeps_processPacket _ _ _ _ _ hpacket
      obtain ⟨_, _, hset, h⟩ := run_bind_ok h
      cases hset
      obtain ⟨m, _, hloop, h⟩ := run_bind_ok h
      obtain ⟨rfl, rfl⟩ := run_pure_ok h
      obtain ⟨hcursor, hindex⟩ := pollLoop_rx hloop
      have h1 : t.net.rxCursor = s.net.rxCursor := congrArg Prod.snd hkept
      have h2 : t.net.rxq.index = s.net.rxq.index := congrArg (fun r => r.1.index) hkept
      refine ⟨?_, hindex.trans h2⟩
      rw [hcursor]
      show t.net.rxCursor + 1#16 + BitVec.ofNat 16 m = _
      rw [h1, BitVec.ofNat_add, BitVec.add_assoc, BitVec.add_comm 1#16]

theorem ofInt_pred (x : BitVec 16) : BitVec.ofInt 16 (x.toNat - 1) = x - 1#16 := by
  rw [Int.sub_eq_add_neg, ofInt_add, ofInt_natCast, ofNat_toNat, setWidth_eq, sub_eq_add_neg]
  rfl

variable {k n processed : Nat} {s : NetState}

/-- A call that finds nothing leaves the queue alone; any other one publishes the cursor less one. -/
theorem pollRXQueue_rx {device : Nat → Completion} {fuel : Nat} {s' : NetState}
    (h : (pollRXQueue device fuel).run s = .ok k s') :
    ((device 0).usedIndex = s.net.rxCursor ∧ k = 0 ∧ s'.net.rxCursor = s.net.rxCursor ∧ s'.net.rxq.index =
      s.net.rxq.index) ∨ ((device 0).usedIndex ≠ s.net.rxCursor ∧ s'.net.rxCursor = s.net.rxCursor + BitVec.ofNat 16 k ∧
      s'.net.rxq.index = s'.net.rxCursor - 1#16) := by
  rw [pollRXQueue, run_getUsedRingIndex_bind, run_get_bind] at h
  split_ifs at h with hused
  · cases h
    exact Or.inl ⟨hused, rfl, rfl, rfl⟩
  · obtain ⟨_, _, hloop, h⟩ := run_bind_ok h
    obtain ⟨_, _, hset, h⟩ := run_bind_ok h
    cases hset
    obtain ⟨rfl, rfl⟩ := run_pure_ok h
    exact Or.inr ⟨hused, (pollLoop_rx hloop).1, ofInt_pred _⟩

/-! ## Runs -/

/-- The receive queue as `Init` leaves it for a device with `n` buffers. -/
structure Initial (n : Nat) (s : NetState) : Prop where
  populated : ∃ page net, net.rxq.queueSize = n ∧ s.net.rxq = (populateRX page n 0 net).rxq
  cursor : s.net.rxCursor = 0#16

/-- One call: the device during it, the states before and after it, and how many buffers the driver had processed. -/
structure RxStep where
  device : Nat → Completion
  before : NetState
  after : NetState
  processed : Nat

/-- The calls since `Init`, the last one first, the state after them, and the number of buffers processed. -/
inductive RxRun (n : Nat) : List RxStep → NetState → Nat → Prop
  | init {s : NetState} (h : Initial n s) : RxRun n [] s 0
  | poll {path : List RxStep} {s s' : NetState} {processed k : Nat} {device : Nat → Completion} {fuel : Nat}
      (hrun : RxRun n path s processed) (h : (pollRXQueue device fuel).run s = .ok k s') :
      RxRun n (⟨device, s, s', processed + k⟩ :: path) s' (processed + k)

/-- The published index is the number of buffers the device got at first and those that were processed since. -/
def Published (n : Nat) (s : NetState) (processed : Nat) : Prop := s.net.rxq.index = BitVec.ofNat 16 (n + processed)

/-- A call that finds no completed buffer. -/
def RxStep.Idle (step : RxStep) : Prop := (step.device 0).usedIndex = step.before.net.rxCursor

theorem index_populateRX (page : Nat → Nat → Byte) : ∀ n i net, 0 < n →
    (populateRX page n i net).rxq.index = BitVec.ofNat 16 (i + n)
  | 1, i, net, _ => by
    show BitVec.ofInt 16 ((i : Int) + 1) = _
    rw [← Int.natCast_succ, ofInt_natCast]
  | n + 2, i, net, _ => by
    rw [populateRX, index_populateRX page (n + 1) (i + 1) _ (by omega), show i + 1 + (n + 1) = i + (n + 2) by omega]

theorem Initial.published (h : Initial n s) (hn : 0 < n) : Published n s 0 := by
  obtain ⟨page, net, -, hrx⟩ := h.populated
  rw [Published, hrx, index_populateRX page n 0 net hn, Nat.zero_add, Nat.add_zero]

/-- The cursor counts the buffers that were processed. -/
theorem RxRun.cursor {n : Nat} {path : List RxStep} {s : NetState} {processed : Nat} (h : RxRun n path s processed) :
    s.net.rxCursor = BitVec.ofNat 16 processed := by
  induction h with
  | init h => exact h.cursor
  | poll hrun h ih =>
    rcases pollRXQueue_rx h with ⟨-, rfl, hcursor, -⟩ | ⟨-, hcursor, -⟩
    · exact hcursor.trans ih
    · rw [hcursor, ih, ofNat_add]

/-- The cursor less one is never the number that should be published. -/
theorem ofNat_pred_ne (hn : n ≤ 256) : BitVec.ofNat 16 k - 1#16 ≠ BitVec.ofNat 16 (n + k) := by
  intro h
  have := congrArg BitVec.toNat h
  simp only [toNat_sub, toNat_ofNat] at this
  omega

variable {path : List RxStep}

/-- As long as no call finds a completed buffer, the index stays what it was. -/
theorem RxRun.published_of_idle (hn : 0 < n)
    (hrun : RxRun n path s processed) (hidle : ∀ step ∈ path, step.Idle) : Published n s processed := by
  induction hrun with
  | init h => exact h.published hn
  | poll hrun h ih =>
    have hlast := hidle _ List.mem_cons_self
    rcases pollRXQueue_rx h with ⟨-, rfl, -, hindex⟩ | ⟨hused, -, -⟩
    · exact hindex.trans (ih fun step hstep => hidle step (List.mem_cons_of_mem _ hstep))
    · exact absurd hlast hused

/-- After a call that found one the index is wrong. -/
theorem RxRun.idle_of_published (hn : n ≤ 256)
    (hrun : RxRun n path s processed) : ∀ step ∈ path, Published n step.after step.processed → step.Idle := by
  induction hrun with
  | init h => simp
  | poll hrun h ih =>
    intro step hstep hpub
    rcases List.mem_cons.1 hstep with rfl | hstep
    · rcases pollRXQueue_rx h with ⟨hused, -⟩ | ⟨-, hcursor, hindex⟩
      · exact hused
      · rw [hcursor, hrun.cursor, ← BitVec.ofNat_add] at hindex
        exact absurd (hindex.symm.trans hpub) (ofNat_pred_ne hn)
    · exact ih step hstep hpub

/-- The path up to each of its calls is a run of its own. -/
theorem RxRun.of_mem (hrun : RxRun n path s processed) :
    ∀ step ∈ path, ∃ path' ⊆ path, RxRun n path' step.after step.processed := by
  induction hrun with
  | init h => simp
  | poll hrun h ih =>
    intro step hstep
    rcases List.mem_cons.1 hstep with rfl | hstep
    · exact ⟨_, fun _ h => h, .poll hrun h⟩
    · obtain ⟨path', hsub, hpath'⟩ := ih step hstep
      exact ⟨path', fun _ h => List.mem_cons_of_mem _ (hsub h), hpath'⟩

/-- The published index is right after `Init`, and after every call of a run exactly if none of the calls found a
completed buffer. -/
theorem rx_published_iff {n : Nat} (hn : 0 < n) (hn' : n ≤ 256) {path : List RxStep} {s : NetState} {processed : Nat}
    (hrun : RxRun n path s processed) : (path = [] → Published n s processed) ∧
    ((∀ step ∈ path, Published n step.after step.processed) ↔ ∀ step ∈ path, step.Idle) := by
  refine ⟨?_, ?_, ?_⟩
  · rintro rfl
    exact hrun.published_of_idle hn (by simp)
  · intro hpub step hstep
    exact hrun.idle_of_published hn' step hstep (hpub step hstep)
  · intro hidle step hstep
    obtain ⟨_, hsub, hrun'⟩ := hrun.of_mem step hstep
    exact hrun'.published_of_idle hn fun step' h => hidle step' (hsub h)

/-- A driver with `n` receive buffers after `Init`. -/
def rxBuffers (n : Nat) : NetState where
  net := populateRX (fun _ _ => 0#8) n 0 (initialNet n)
  network :=
    { arpTable := fun _ => none
      rxBuffer := ⟨fun _ => ⟨0, fun _ => 0#8⟩, 0, 0⟩
      sockets := []
      gateway := ⟨10#8, 0#8, 2#8, 2#8⟩
      netmask := ⟨255#8, 255#8, 255#8, 0#8⟩ }

abbrev oneRxBuffer : NetState := rxBuffers 1

theorem oneRxBuffer_initial : Initial 1 oneRxBuffer := ⟨⟨_, _, rfl, rfl⟩, rfl⟩

/-- A call before anything has arrived. -/
theorem rx_published_oneRxBuffer :
    ∃ k s', (pollRXQueue (fun _ => ⟨0#16, fun _ _ => 0#8, fun _ => 0#32⟩) 1).run oneRxBuffer = .ok k s' ∧
    Published 1 s' k := by
  refine ⟨0, _, rfl, ?_⟩
  exact (rx_published_iff Nat.one_pos (by decide) (.poll (.init oneRxBuffer_initial)
    (rfl : (pollRXQueue (fun _ => ⟨0#16, fun _ _ => 0#8, fun _ => 0#32⟩) 1).run oneRxBuffer = .ok 0 _))).2.2
    (by simp [RxStep.Idle]; rfl) _ List.mem_cons_self

/-- The device completes its buffer with a frame of 60 bytes. The index goes from 1 back to 0. -/
theorem rx_index_moves_back :
    ∃ path s', RxRun 1 path s' 1 ∧ oneRxBuffer.net.rxq.index = 1#16 ∧ s'.net.rxq.index = 0#16 ∧
    ¬Published 1 s' 1 := by
  obtain ⟨s', hrun, hindex⟩ : ∃ s', (pollRXQueue (fun _ => ⟨1#16, fun _ _ => 0#8, fun _ => 70#32⟩) 2).run oneRxBuffer =
    .ok 1 s' ∧ s'.net.rxq.index = 0#16 := ⟨_, rfl, rfl⟩
  refine ⟨_, s', .poll (.init oneRxBuffer_initial) hrun, rfl, hindex, ?_⟩
  rw [Published, hindex]
  decide

end Liumos.Inet
