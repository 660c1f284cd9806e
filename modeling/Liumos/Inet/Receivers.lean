/-
Several processes that receive: all sockets read one buffer of packets, and a call drops what is not for its
socket.
Sources: syscall.cc (`sys_recvfrom`), network.h (`PushToRXBuffer`, `PopFromRXBuffer`), ring_buffer.h.
-/
import Liumos.Inet.Sending
import Liumos.Inet.Handlers
import Liumos.Lib.SharedQueue

namespace Liumos.Inet

open Virtio SharedQueue List

/-! ## What a call takes from the buffer -/

/-- The packets for which `sys_recvfrom` waits on a socket. -/
def wantedBy (sock : Socket) : PacketContainer → Bool :=
  match sock.type with
  | .icmpRaw | .icmpDatagram => isICMPPacket
  | .udp => isUDPPacketToPort sock.listenPort

/-- What it returns for such a packet. -/
def receivedBy (sock : Socket) (packet : PacketContainer) (bufSize : Nat) : Received :=
  match sock.type with
  | .icmpDatagram => receive packet sizeofIPv4Packet bufSize (some (readAddr packet.data ipSrc)) none
  | .icmpRaw => receive packet sizeofEtherFrame bufSize none none
  | .udp => receive packet sizeofIPv4UDPPacket bufSize (some (readAddr packet.data ipSrc))
      (some (packet.data udpSrcPort, packet.data (udpSrcPort + 1)))

/-- A call goes through the buffer, again after every `Sleep()`, until it meets a packet for its socket. -/
theorem run_sysRecvfrom {sleep : Nat → NetState → NetState} {fuel : Nat} {pid : Word} {sockfd : Int} {bufSize : Nat}
    {s : NetState} {sock : Socket} (h : s.network.findSocket pid sockfd = some sock) :
    (sysRecvfrom sleep fuel pid sockfd bufSize).run s =
      (do
        let packet ← waitFor sleep (wantedBy sock) fuel
        return receivedBy sock packet bufSize : KM NetState Received).run s := by
  rw [sysRecvfrom, run_get_bind, h]
  unfold wantedBy receivedBy
  cases htype : sock.type <;> simp only [htype]

section

variable {s : NetState}

/-- One pass over the buffer is a scan of what it holds. -/
theorem run_popWanted_scan (wanted : PacketContainer → Bool) (n : Nat) (h : s.network.rxBuffer.WellFormed) :
    ∃ rest : RingBuffer PacketContainer kRXBufferSize, rest.WellFormed ∧
      rest.contents = (scan wanted n s.network.rxBuffer.contents).2 ∧
      (popWanted wanted n).run s = .ok (scan wanted n s.network.rxBuffer.contents).1
        { s with network := { s.network with rxBuffer := rest } } := by
  induction n generalizing s with
  | zero => exact ⟨s.network.rxBuffer, h, rfl, rfl⟩
  | succ n ih =>
    by_cases hempty : s.network.rxBuffer.contents = []
    · refine ⟨s.network.rxBuffer, h, ?_, ?_⟩
      · rw [hempty]
        rfl
      · rw [popWanted, run_get_bind, if_pos (h.isEmpty_iff.2 hempty), hempty]
        rfl
    · have hpop := h.contents_pop hempty
      have hne : ¬s.network.rxBuffer.isEmpty = true := fun h' => hempty (h.isEmpty_iff.1 h')
      rw [popWanted, run_get_bind, if_neg hne, hpop, scan]
      by_cases hwanted : wanted s.network.rxBuffer.pop.1 = true
      · refine ⟨s.network.rxBuffer.pop.2, h.pop, ?_, ?_⟩
        · rw [if_pos hwanted]
        · rw [if_pos hwanted]
          exact run_set_bind.trans (congrArg (EStateM.run · _) (if_pos hwanted))
      · obtain ⟨rest, hwf, hrest, hrun⟩ :=
          ih (s := { s with network := { s.network with rxBuffer := s.network.rxBuffer.pop.2 } }) h.pop
        rw [if_neg hwanted]
        refine ⟨rest, hwf, hrest, ?_⟩
        exact (run_set_bind.trans (congrArg (EStateM.run · _) (if_neg hwanted))).trans hrun

theorem run_pushToRXBuffer {frame : Frame} {size : Word} {s' : NetState} {u : Unit}
    (h : (pushToRXBuffer frame size).run s = .ok u s') :
    s' = { s with network := { s.network with rxBuffer := s.network.rxBuffer.push ⟨size.toNat, frame⟩ } } := by
  obtain ⟨-, h⟩ := of_run_assert_bind h
  obtain ⟨-, h⟩ := of_run_assert_bind h
  cases h
  rfl

end

/-! ## Runs -/

/-- The machine, what arrived, and what the calls on each socket returned. -/
structure Receivers (ι : Type) where
  state : NetState
  arrived : List PacketContainer
  returned : ι → List PacketContainer

/-- A frame arrives, or a call on a socket goes through the buffer, until it returns, finds it empty, or is
interrupted after `n` packets. -/
inductive ReceiverEvent (ι : Type) where
  | arrive (frame : Frame) (size : Word)
  | recv (i : ι) (n : Nat)

section

variable {ι : Type} [DecidableEq ι] {socks : ι → Socket}

/-- Any interleaving of arrivals and of calls on the sockets, in which the buffer does not overflow. -/
inductive ReceiverRun (socks : ι → Socket) : Receivers ι → List (ReceiverEvent ι) → Receivers ι → Prop
  | nil (r : Receivers ι) : ReceiverRun socks r [] r
  | arrive {r r' : Receivers ι} {es : List (ReceiverEvent ι)} {frame : Frame} {size : Word} {s' : NetState}
      (hpush : (pushToRXBuffer frame size).run r.state = .ok () s')
      (hroom : r.state.network.rxBuffer.contents.length + 1 < kRXBufferSize)
      (hrest : ReceiverRun socks { r with state := s', arrived := r.arrived ++ [⟨size.toNat, frame⟩] } es r') :
      ReceiverRun socks r (.arrive frame size :: es) r'
  | recv {r r' : Receivers ι} {es : List (ReceiverEvent ι)} {i : ι} {n : Nat}
      {packet : Option PacketContainer} {s' : NetState}
      (hsock : r.state.network.findSocket (socks i).pid (socks i).fd = some (socks i))
      (hpop : (popWanted (wantedBy (socks i)) n).run r.state = .ok packet s')
      (hrest : ReceiverRun socks
        { r with state := s', returned := Function.update r.returned i (r.returned i ++ packet.toList) } es r') :
      ReceiverRun socks r (.recv i n :: es) r'

/-- Before anything arrived. -/
structure Receivers.Start (r : Receivers ι) : Prop where
  buffer : r.state.network.rxBuffer.WellFormed
  empty : r.state.network.rxBuffer.contents = []
  arrived : r.arrived = []
  returned : ∀ i, r.returned i = []

/-- The buffer as a queue. -/
def Receivers.queue (r : Receivers ι) : State ι PacketContainer :=
  ⟨r.state.network.rxBuffer.contents, r.arrived, r.returned⟩

def ReceiverEvent.queueEvent : ReceiverEvent ι → Event ι PacketContainer
  | .arrive frame size => .arrive ⟨size.toNat, frame⟩
  | .recv i n => .scan i n

/-- The calls on each socket returned the frames for it that arrived, each once and in the order of arrival, up to
those that still wait in the buffer. -/
def Receivers.Delivered (socks : ι → Socket) (r : Receivers ι) : Prop :=
  ∀ i, r.arrived.filter (wantedBy (socks i)) = r.returned i ++ r.state.network.rxBuffer.contents.filter
    (wantedBy (socks i))

/-- No call took a frame off the buffer that is for another of the sockets. -/
def NothingStolen (socks : ι → Socket) (r : Receivers ι) (es : List (ReceiverEvent ι)) : Prop :=
  HonestRun (fun i => wantedBy (socks i)) r.queue (es.map ReceiverEvent.queueEvent)

/-- A run of the machine is a run of the queue. -/
theorem ReceiverRun.queue {r r' : Receivers ι} {es : List (ReceiverEvent ι)} (hrun : ReceiverRun socks r es r')
    (h : r.state.network.rxBuffer.WellFormed) :
    r'.queue = (es.map ReceiverEvent.queueEvent).foldl (step fun i => wantedBy (socks i)) r.queue := by
  induction hrun with
  | nil r => rfl
  | @arrive r r' es frame size s' hpush hroom _ ih =>
    have hs := run_pushToRXBuffer hpush
    subst hs
    rw [ih (h.push _), map_cons, foldl_cons]
    refine congrArg (foldl _ · _) ?_
    simp only [Receivers.queue, ReceiverEvent.queueEvent, step, h.contents_push hroom]
  | @recv r r' es i n packet s' _ hpop _ ih =>
    obtain ⟨_, hwf, hrest, hrun⟩ := run_popWanted_scan (wantedBy (socks i)) n h
    rw [hpop] at hrun
    cases hrun
    rw [ih hwf, map_cons, foldl_cons]
    refine congrArg (foldl _ · _) ?_
    simp only [Receivers.queue, ReceiverEvent.queueEvent, step, hrest]

/-- Over any interleaving, every socket gets its frames exactly if no call takes a frame that is for another socket. -/
theorem receivers_delivered_iff {r r' : Receivers ι} {es : List (ReceiverEvent ι)} (hstart : r.Start)
    (hrun : ReceiverRun socks r es r') : r'.Delivered socks ↔ NothingStolen socks r es := by
  have h0 : ∀ i, DeliveredTo (fun i => wantedBy (socks i)) r.queue i := by
    intro i
    simp [DeliveredTo, Receivers.queue, hstart.arrived, hstart.empty, hstart.returned]
  rw [NothingStolen, ← deliveredTo_iff h0, ← hrun.queue hstart.buffer]
  rfl

end

/-- Sockets of two processes, for the ports 1000 and 2000. -/
def twoSockets : Bool → Socket
  | false => ⟨2#64, 3, 1000#16, .udp⟩
  | true => ⟨3#64, 3, 2000#16, .udp⟩

/-- A machine with these sockets. -/
def twoReceivers : Receivers Bool where
  state := oneBuffer [twoSockets false, twoSockets true] fun _ => 0#8
  arrived := []
  returned := fun _ => []

/-- A datagram to port 2000. -/
def toSecond : PacketContainer :=
  ⟨42, put (put (put (fun _ => 0#8) ethType kTypeIPv4) ipProtocol [kUDP]) udpDstPort (be16 2000#16)⟩

theorem twoReceivers_start : twoReceivers.Start := ⟨⟨by decide, by decide⟩, rfl, rfl, fun _ => rfl⟩

/-- The datagram arrives, and one of the two receives. -/
theorem run_toSecond (i : Bool) :
    ∃ r', ReceiverRun twoSockets twoReceivers [.arrive toSecond.data 42#64, .recv i kRXBufferSize] r' ∧ r'.arrived =
      [toSecond] ∧ r'.returned = Function.update (fun _ => []) i
      (scan (wantedBy (twoSockets i)) kRXBufferSize [toSecond]).1.toList ∧ r'.state.network.rxBuffer.contents =
      (scan (wantedBy (twoSockets i)) kRXBufferSize [toSecond]).2 := by
  have hpush : (pushToRXBuffer toSecond.data 42#64).run twoReceivers.state = .ok () { twoReceivers.state with
      network := { twoReceivers.state.network with rxBuffer := twoReceivers.state.network.rxBuffer.push toSecond } } :=
      rfl
  have hbuffer := twoReceivers_start.buffer
  obtain ⟨_, -, hrest, hpop⟩ := run_popWanted_scan (wantedBy (twoSockets i)) kRXBufferSize
    (s := { twoReceivers.state with network :=
      { twoReceivers.state.network with rxBuffer := twoReceivers.state.network.rxBuffer.push toSecond } })
    (hbuffer.push toSecond)
  have hsock : ∀ i, twoReceivers.state.network.findSocket (twoSockets i).pid (twoSockets i).fd =
    some (twoSockets i) := by decide
  exact ⟨_, .arrive hpush (by rw [twoReceivers_start.empty]; decide) (.recv (hsock i) hpop (.nil _)), rfl, rfl, hrest⟩

/-- The datagram is received by the process it is for. -/
theorem receivers_delivered_second :
    ∃ r', ReceiverRun twoSockets twoReceivers [.arrive toSecond.data 42#64, .recv true kRXBufferSize] r' ∧
      r'.Delivered twoSockets := by
  obtain ⟨r', hrun, -⟩ := run_toSecond true
  refine ⟨r', hrun, (receivers_delivered_iff twoReceivers_start hrun).2 ⟨trivial, ?_, trivial⟩⟩
  have hother : ∀ j, j ≠ true → wantedBy (twoSockets j) toSecond = false := by decide
  intro x hx
  obtain rfl : x = toSecond := mem_singleton.1 hx
  exact hother

/-- The other process receives first: it takes the datagram and drops it. -/
theorem packet_stolen : ∃ r', twoReceivers.Start ∧ (twoSockets false).pid ≠ (twoSockets true).pid ∧
    (twoSockets false).listenPort ≠ (twoSockets true).listenPort ∧
    ReceiverRun twoSockets twoReceivers [.arrive toSecond.data 42#64, .recv false kRXBufferSize] r' ∧
      ¬r'.Delivered twoSockets := by
  obtain ⟨r', hrun, harrived, hreturned, hcontents⟩ := run_toSecond false
  refine ⟨r', twoReceivers_start, by decide, by decide, hrun, fun hdelivered => ?_⟩
  have h := congrArg length (hdelivered true)
  rw [harrived, hreturned, hcontents] at h
  exact absurd h (by decide)

end Liumos.Inet
