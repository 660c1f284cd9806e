/-
UDP from one socket to another: what `sys_sendto` puts on the wire, what the receiver makes of the frame, and
what `sys_recvfrom` returns.
Sources: syscall.cc (`sys_sendto`, `sys_recvfrom`), virtio_net.cc (`ProcessPacket`).
-/
import Liumos.Inet.DhcpOptions
import Liumos.Inet.Receivers

namespace Liumos.Inet

open Virtio BitVec Nat

/-! ## Lengths and ports -/

theorem toNat_roundEven {x : Word} (h : x.toNat + 1 < 2 ^ 64) : (roundEven x).toNat = (x.toNat + 1) / 2 * 2 := by
  rw [roundEven, show ~~~1#64 = ~~~lowMask 1 from rfl, toNat_and_not_lowMask, toNat_add, toNat_ofNat]
  omega

theorem roundEven_eq_self_iff {x : Word} (h : x.toNat + 1 < 2 ^ 64) : roundEven x = x ↔ x.toNat % 2 = 0 := by
  rw [← toNat_inj, toNat_roundEven h]
  omega

/-- A port in the order of the network, read back. -/
theorem portOf_eq (x : BitVec 16) : portOf x = x.setWidth 8 ++ (x >>> 8).setWidth 8 := by
  apply eq_of_getLsbD_eq
  intro i hi
  simp only [portOf, getLsbD_or, getLsbD_and, getLsbD_append, getLsbD_setWidth, getLsbD_ushiftRight, getLsbD_shiftLeft]
  interval_cases i <;> simp

/-! ## The headers of a UDP packet -/

section

variable {p : Frame} {dstEth srcEth : EtherAddr} {srcIp dstIp : IPv4Addr} {srcPort sinPort : BitVec 16}
  {buf : Nat → Byte} {len : Word}

variable {dataLength : BitVec 16} {protocol : Byte} {i : Nat}

theorem fillIPv4_ethType (hi : i < 2) :
    fillIPv4 p dstEth srcEth dataLength protocol srcIp dstIp (ethType + i) = kTypeIPv4[i] := by
  have ht : ethType + i < 14 := Nat.add_lt_add_left hi 12
  simp only [fillIPv4, calcAndSetChecksum, setDataLength]
  iterate 11 rw [put_of_lt (lt_of_lt_of_le ht (by decide))]
  exact put_add hi

theorem fillIPv4_protocol : fillIPv4 p dstEth srcEth dataLength protocol srcIp dstIp ipProtocol = protocol := by
  simp only [fillIPv4, calcAndSetChecksum, setDataLength]
  iterate 4 rw [put_of_lt (by decide)]
  exact put_add (l := [protocol]) (i := 0) (by simp)

/-- Up to the UDP header a packet is what `fillIPv4` made. -/
theorem fillUDP_of_lt {o : Nat} (h : o < sizeofIPv4Packet) :
    fillUDP p dstEth srcEth srcIp dstIp srcPort sinPort buf len o = fillIPv4 p dstEth srcEth
      ((BitVec.ofNat 64 sizeofIPv4UDPPacket + len - BitVec.ofNat 64 sizeofIPv4Packet).setWidth 16) kUDP
      srcIp dstIp o := by
  have ho : o < 34 := h
  simp only [fillUDP, setDataSize]
  rw [put_of_lt (by simp [udpCsum]; omega), put_of_lt (by simp [udpLength]; omega),
    put_of_lt (by simp [udpDstPort]; omega), put_of_lt (by simp [udpSrcPort]; omega), copyIn,
    if_neg (by simp [sizeofIPv4UDPPacket]; omega)]

theorem fillUDP_dstPort (hi : i < 2) :
    fillUDP p dstEth srcEth srcIp dstIp srcPort sinPort buf len (udpDstPort + i) = (le16 sinPort)[i] := by
  have ht : udpDstPort + i < 38 := Nat.add_lt_add_left hi 36
  simp only [fillUDP, setDataSize]
  iterate 2 rw [put_of_lt (lt_of_lt_of_le ht (by decide))]
  exact put_add hi

/-- What the receiver reads from the headers of a UDP packet. -/
structure UDPTo (frame : Frame) (port : BitVec 16) : Prop where
  ethType : hasEthType frame kTypeIPv4 = true
  protocol : frame ipProtocol = kUDP
  dstPort : readBe16 frame udpDstPort = port

theorem udpTo_fillUDP {frame : Frame}
    (h : ∀ o < sizeofIPv4UDPPacket, frame o = fillUDP p dstEth srcEth srcIp dstIp srcPort sinPort buf len o) :
    UDPTo frame (portOf sinPort) := by
  have htype : ∀ i (hi : i < 2), frame (ethType + i) = kTypeIPv4[i] := by
    intro i hi
    have ht : ethType + i < 14 := Nat.add_lt_add_left hi 12
    rw [h _ (lt_of_lt_of_le ht (by decide)), fillUDP_of_lt (lt_of_lt_of_le ht (by decide)), fillIPv4_ethType hi]
  have hport : ∀ i (hi : i < 2), frame (udpDstPort + i) = (le16 sinPort)[i] := by
    intro i hi
    have ht : udpDstPort + i < 38 := Nat.add_lt_add_left hi 36
    rw [h _ (lt_of_lt_of_le ht (by decide)), fillUDP_dstPort hi]
  refine ⟨?_, ?_, ?_⟩
  · rw [hasEthType, htype 1 (by decide), show frame ethType = _ from htype 0 (by decide)]
    rfl
  · rw [h _ (by decide), fillUDP_of_lt (by decide), fillIPv4_protocol]
  · rw [readBe16, hport 1 (by decide), show frame udpDstPort = _ from hport 0 (by decide), portOf_eq]
    rfl

end

theorem UDPTo.isUDPPacketToPort {frame : Frame} {port : BitVec 16} (h : UDPTo frame port) {size : Nat}
    (hsize : sizeofIPv4UDPPacket ≤ size) : isUDPPacketToPort port ⟨size, frame⟩ = true := by
  simp only [Inet.isUDPPacketToPort, h.ethType, h.protocol, h.dstPort, beq_self_eq_true, Bool.and_true,
    decide_eq_true hsize]

variable {frame : Frame} {port : BitVec 16} {n m : Nat} {t s' : NetState} {r size len : Word} {padded : Bool}

theorem UDPTo.not_arp (h : UDPTo frame port) : hasEthType frame kTypeARP = false := by
  have := h.ethType
  rw [hasEthType, beq_iff_eq] at this
  rw [hasEthType, this]
  rfl

/-! ## The receiver -/

/-- What a handler of a UDP packet leaves alone: the packets that wait for a socket, and the sockets. -/
def pending (s : NetState) : RingBuffer PacketContainer kRXBufferSize × List Socket :=
  (s.network.rxBuffer, s.network.sockets)

section

variable {frame : Frame} {port : BitVec 16} {size : Word} {u : NetState}

theorem run_arpPacketHandler (hudp : UDPTo frame port) : (arpPacketHandler frame size).run u = .ok false u := by
  rw [arpPacketHandler]
  split_ifs with h1 h2
  · rfl
  · rfl
  · rw [hudp.not_arp] at h2
    exact absurd rfl h2

theorem run_ipv4PacketHandler (hudp : UDPTo frame port) (hsize : sizeofIPv4UDPPacket ≤ size.toNat) :
    (ipv4PacketHandler frame size).run u =
    (do let _ ← udpPacketHandler frame size; return true : KM NetState Bool).run u := by
  have hsize' : ¬size.toNat < sizeofIPv4Packet := not_lt.2 (le_trans (by decide) hsize)
  have hicmp : (icmpPacketHandler frame size).run u = .ok false u := by
    rw [icmpPacketHandler, if_pos (by rw [hudp.protocol]; decide)]
    rfl
  rw [ipv4PacketHandler, if_neg hsize', if_neg (by rw [hudp.ethType]; decide), run_bind_eq hicmp]
  simp only [Bool.false_eq_true, if_false, ite_self]

/-- A UDP packet goes to the handler for DHCP, and then to the buffer for sockets. -/
theorem run_processPacket {page : Nat → Byte} (hudp : UDPTo (frameOf page) port) {m : Nat}
    (hm : sizeofIPv4UDPPacket ≤ m) (hm' : m < 2 ^ 32) {u' : NetState} {x : Unit} :
    (processPacket page (BitVec.ofNat 64 (sizeofPacketBufHeader + m))).run u = .ok x u' ↔
    m ≤ kPacketContainerSize ∧ ∃ b t, (udpPacketHandler (frameOf page) (BitVec.ofNat 64 m)).run u = .ok b t ∧
      u' = { t with network := { t.network with rxBuffer := t.network.rxBuffer.push ⟨m, frameOf page⟩ } } := by
  have hsize : BitVec.ofNat 64 (sizeofPacketBufHeader + m) - BitVec.ofNat 64 sizeofPacketBufHeader =
      BitVec.ofNat 64 m := by
    rw [BitVec.ofNat_add, BitVec.add_comm, BitVec.add_sub_cancel]
  have hnat : (BitVec.ofNat 64 m).toNat = m := by
    rw [toNat_ofNat]
    omega
  have hpos : 0 < m := lt_of_lt_of_le (by decide) hm
  have hrun : (processPacket page (BitVec.ofNat 64 (sizeofPacketBufHeader + m))).run u = (do
      let _ ← udpPacketHandler (frameOf page) (BitVec.ofNat 64 m)
      pushToRXBuffer (frameOf page) (BitVec.ofNat 64 m) : KM NetState Unit).run u := by
    rw [processPacket, hsize, run_bind_eq (run_arpPacketHandler hudp)]
    refine (run_bind_congr (run_ipv4PacketHandler hudp (by rw [hnat]; exact hm))).trans ?_
    rw [bind_assoc]
    rfl
  rw [hrun]
  constructor
  · intro h
    obtain ⟨b, t, hhandler, h⟩ := run_bind_ok h
    obtain ⟨_, h⟩ := of_run_assert_bind h
    obtain ⟨hle, h⟩ := of_run_assert_bind h
    cases h
    rw [hnat] at hle ⊢
    exact ⟨of_decide_eq_true hle, b, t, hhandler, rfl⟩
  · rintro ⟨hle, _, _, hhandler, rfl⟩
    rw [run_bind_eq hhandler, pushToRXBuffer, hnat, run_bind_eq (run_assert_true (decide_eq_true hpos) _ _),
      run_bind_eq (run_assert_true (decide_eq_true hle) _ _)]
    rfl

end

/-- Packets that are not wanted are dropped, up to the first one that is. -/
theorem run_popWanted {wanted : PacketContainer → Bool} {packet : PacketContainer} (hpacket : wanted packet = true)
    {l : List PacketContainer} {s : NetState} (hwf : s.network.rxBuffer.WellFormed)
    (hcont : s.network.rxBuffer.contents = l ++ [packet]) (hl : ∀ x ∈ l, wanted x = false) (hn : l.length < n) :
    ∃ s', (popWanted wanted n).run s = .ok (some packet) s' := by
  obtain ⟨_, -, -, hrun⟩ := run_popWanted_scan wanted n hwf
  rw [hcont, SharedQueue.scan_append_cons hpacket [] hl hn] at hrun
  exact ⟨_, hrun⟩

/-! ## The round trip -/

/-- A call of `sys_sendto`. -/
structure Sending where
  state : NetState
  sleep : Nat → NetState → NetState
  pid : Word
  sockfd : Int
  buf : Nat → Byte
  len : Word
  destAddr : SockaddrIn

def Sending.call (x : Sending) : KM NetState Word := sysSendto x.sleep x.pid x.sockfd x.buf x.len x.destAddr

/-- The bytes of the payload. -/
def Sending.payload (x : Sending) : List Byte := (List.range x.len.toNat).map x.buf

/-- A UDP socket, a destination that resolves, after which the state is `t`, and a packet below the limit of the
buffer. -/
structure Sending.Sends (x : Sending) (t : NetState) : Prop where
  udp : ∃ sock, x.state.network.findSocket x.pid x.sockfd = some sock ∧ sock.type = .udp
  resolves : ∃ dstEth, (resolveIPv4WithTimeout x.sleep x.destAddr.sinAddr).run x.state = .ok (some dstEth) t
  initialized : t.net.initialized = true
  queue : 0 < t.net.txq.queueSize
  limit : sizeofPacketBufHeader + sizeofIPv4UDPPacket + x.len.toNat < Virtio.kPageSize

variable {x : Sending}

theorem Sending.Sends.lt_max (h : x.Sends t) : x.len.toNat + 1 < 2 ^ 64 := by
  have hlimit : 52 + x.len.toNat < 4096 := h.limit
  omega

/-- A call of `sys_recvfrom`. -/
structure Receiving where
  state : NetState
  sleep : Nat → NetState → NetState
  fuel : Nat
  pid : Word
  sockfd : Int
  bufSize : Nat

def Receiving.call (y : Receiving) : KM NetState Received := sysRecvfrom y.sleep y.fuel y.pid y.sockfd y.bufSize

/-- A socket bound to the port, room for one more packet, and none for the port that waits already. -/
structure Receiving.Listens (y : Receiving) (port : BitVec 16) (len : Nat) : Prop where
  socket : ∃ sock, y.state.network.findSocket y.pid y.sockfd = some sock ∧ sock.type = .udp ∧ sock.listenPort = port
  wellFormed : y.state.network.rxBuffer.WellFormed
  room : y.state.network.rxBuffer.contents.length + 1 < kRXBufferSize
  fresh : ∀ packet ∈ y.state.network.rxBuffer.contents, isUDPPacketToPort port packet = false
  fuel : 0 < y.fuel
  bufSize : len ≤ y.bufSize

/-- The size of the frame that a descriptor hands to the device. -/
def frameSize (d : Descriptor) : Nat := d.len.toNat - sizeofPacketBufHeader

/-- The size on arrival: the frame may be padded to the minimum of Ethernet. -/
def deliveredSize (padded : Bool) (n : Nat) : Nat := if padded then max n 60 else n

/-- The page of a receive buffer that holds the frame of a descriptor. -/
def Delivers (d : Descriptor) (page : Nat → Byte) : Prop := ∀ o < frameSize d, frameOf page o = frameOf d.page o

/-- The page of a receive buffer to which the frame of a call was delivered. -/
def Carries (x : Sending) (t : NetState) (page : Nat → Byte) : Prop :=
  ∀ r s', x.call.run x.state = .ok r s' → Delivers (s'.net.txq.desc t.net.txIdx) page

/-- The sender is told that the payload was sent, and the receiver gets it. -/
def RoundTrips (x : Sending) (t : NetState) (padded : Bool) (page : Nat → Byte) (y : Receiving) : Prop :=
  ∃ s', x.call.run x.state = .ok x.len s' ∧
    ∃ u', (processPacket page (BitVec.ofNat 64 (sizeofPacketBufHeader +
        deliveredSize padded (frameSize (s'.net.txq.desc t.net.txIdx))))).run y.state = .ok () u' ∧
      ∃ r v, y.call.run u' = .ok r v ∧ r.ret = x.len ∧ r.buf = x.payload

/-- What a call that returns has sent. -/
theorem Sending.Sends.sent (h : x.Sends t) (hrun : x.call.run x.state = .ok r s') :
    r = roundEven x.len ∧ frameSize (s'.net.txq.desc t.net.txIdx) = sizeofIPv4UDPPacket + (roundEven x.len).toNat ∧
      ∃ p dstEth srcEth srcIp srcPort, frameOf (s'.net.txq.desc t.net.txIdx).page =
        fillUDP p dstEth srcEth srcIp x.destAddr.sinAddr srcPort x.destAddr.sinPort x.buf (roundEven x.len) := by
  obtain ⟨sock, hsock, hudp⟩ := h.udp
  obtain ⟨dstEth, hres⟩ := h.resolves
  rw [Sending.call, run_sysSendto hsock hres] at hrun
  obtain ⟨-, rfl, rfl⟩ := run_sendtoResolved_iff.1 hrun
  have hlimit : 52 + x.len.toNat < 4096 := h.limit
  have hround := toNat_roundEven h.lt_max
  refine ⟨by rw [hudp]; rfl, ?_, frameOf (t.net.txq.desc t.net.txIdx).page, dstEth, t.net.macAddr, t.net.selfIp,
    sock.listenPort, ?_⟩
  · have hlen : ((sentNet t.net (packetSize sock.type x.len)
      (fillPacket sock t.net x.buf x.len x.destAddr dstEth)).txq.desc t.net.txIdx).len =
        (BitVec.ofNat 64 sizeofPacketBufHeader + packetSize .udp x.len).setWidth 32 := by
      rw [hudp]
      show (Function.update t.net.txq.desc t.net.txIdx _ t.net.txIdx).len = _
      rw [Function.update_self]
    rw [frameSize, hlen, packetSize]
    simp only [sizeofPacketBufHeader, sizeofIPv4UDPPacket, toNat_setWidth, toNat_add, toNat_ofNat, hround]
    omega
  · refine frameOf_sentNet.trans ?_
    unfold fillPacket
    rw [hudp]

/-- A payload of even length is sent. -/
theorem Sending.Sends.returns (h : x.Sends t) (heven : x.len.toNat % 2 = 0) :
    ∃ s', x.call.run x.state = .ok x.len s' := by
  obtain ⟨_, hsock, hudp⟩ := h.udp
  obtain ⟨_, hres⟩ := h.resolves
  have hlimit : 52 + x.len.toNat < 4096 := h.limit
  have hround : roundEven x.len = x.len := (roundEven_eq_self_iff h.lt_max).2 heven
  have hneeded : bytesNeeded .udp x.len = 52 + x.len.toNat := by
    rw [bytesNeeded, sentLen, hround]
    rfl
  rw [Sending.call, run_sysSendto hsock hres]
  refine ⟨_, run_sendtoResolved_iff.2 ⟨⟨h.initialized, ?_, h.queue⟩, ?_, rfl⟩⟩
  · rw [hudp, fitsPage_iff, hneeded]
    exact lt_of_le_of_lt (mod_le _ _) hlimit
  · rw [hudp]
    exact hround.symm

/-- A packet that arrives for a socket is the next one it receives. -/
theorem Receiving.Listens.receives {y : Receiving} {len : Nat} (h : y.Listens port len) (hudp : UDPTo frame port)
    (hm : sizeofIPv4UDPPacket ≤ m) {b : Bool} (hhandler : (udpPacketHandler frame size).run y.state = .ok b t) :
    ∃ srcAddr srcPort v, y.call.run { t with network :=
      { t.network with rxBuffer := t.network.rxBuffer.push ⟨m, frame⟩ } } =
      .ok (receive ⟨m, frame⟩ sizeofIPv4UDPPacket y.bufSize srcAddr srcPort) v := by
  obtain ⟨sock, hsock, htype, hport⟩ := h.socket
  have hpending : OutsideDHCP pending := ⟨fun _ _ => rfl, fun _ _ => rfl, fun _ _ => rfl, fun _ _ => rfl⟩
  have hkept := keeps_udpPacketHandler hpending frame size _ _ _ hhandler
  have hring : t.network.rxBuffer = y.state.network.rxBuffer := congrArg Prod.fst hkept
  have hsockets : t.network.sockets = y.state.network.sockets := congrArg Prod.snd hkept
  obtain ⟨fuel, hfuel⟩ : ∃ fuel, y.fuel = fuel + 1 := ⟨y.fuel - 1, by have := h.fuel; omega⟩
  obtain ⟨v, hpop⟩ := run_popWanted (hudp.isUDPPacketToPort hm) (n := kRXBufferSize)
    (l := y.state.network.rxBuffer.contents)
    (s := { t with network := { t.network with rxBuffer := t.network.rxBuffer.push ⟨m, frame⟩ } })
    (by rw [hring]; exact h.wellFormed.push _) (by rw [hring]; exact h.wellFormed.contents_push h.room _) h.fresh
    (by have := h.room; omega)
  have hwait : (waitFor y.sleep (isUDPPacketToPort port) (fuel + 1)).run
      { t with network := { t.network with rxBuffer := t.network.rxBuffer.push ⟨m, frame⟩ } } = .ok ⟨m, frame⟩ v := by
    rw [waitFor, run_bind_eq hpop]
    rfl
  have hfind : ({ t.network with rxBuffer := t.network.rxBuffer.push ⟨m, frame⟩ } : Network).findSocket y.pid
      y.sockfd = some sock := by
    rw [Network.findSocket, hsockets]
    exact hsock
  refine ⟨some (readAddr frame ipSrc), some (frame udpSrcPort, frame (udpSrcPort + 1)), v, ?_⟩
  rw [Receiving.call, sysRecvfrom, run_get_bind, hfind]
  dsimp only
  rw [htype, hport, hfuel]
  exact run_bind_eq hwait

/-- What the receiver finds in the frame of a call that returned. -/
theorem Sending.Sends.delivered (h : x.Sends t) (hrun : x.call.run x.state = .ok r s') {page : Nat → Byte}
    (hpage : Delivers (s'.net.txq.desc t.net.txIdx) page) : UDPTo (frameOf page) (portOf x.destAddr.sinPort) ∧
      ∀ i < (roundEven x.len).toNat, frameOf page (sizeofIPv4UDPPacket + i) = x.buf i := by
  obtain ⟨-, hsize, _, _, _, _, _, hframe⟩ := h.sent hrun
  rw [Delivers, hsize, hframe] at hpage
  refine ⟨udpTo_fillUDP fun o ho => hpage o (by omega), fun i hi => ?_⟩
  rw [hpage _ (by omega), fillUDP_of_ge (by omega), if_pos (by omega), Nat.add_sub_cancel_left]

theorem le_deliveredSize (padded : Bool) (n : Nat) : n ≤ deliveredSize padded n := by
  unfold deliveredSize
  split <;> omega

theorem deliveredSize_le_iff {k : Nat} (hk : 60 ≤ k) : deliveredSize padded n ≤ k ↔ n ≤ k := by
  unfold deliveredSize
  split <;> omega

theorem deliveredSize_eq_iff : deliveredSize padded n = n ↔ (padded = true → 60 ≤ n) := by
  unfold deliveredSize
  cases padded <;> simp

/-- The returned length is that of the payload exactly if the frame was not padded. -/
theorem ret_receive_eq_iff {bufSize : Nat} {srcAddr : Option IPv4Addr} {srcPort : Option (Byte × Byte)}
    (hm : sizeofIPv4UDPPacket ≤ m) (hm' : m < 2 ^ 32) :
    (receive ⟨m, frame⟩ sizeofIPv4UDPPacket bufSize srcAddr srcPort).ret = len ↔
    m = sizeofIPv4UDPPacket + len.toNat := by
  simp only [receive, sizeofIPv4UDPPacket] at hm ⊢
  rw [← toNat_inj, toNat_sub, toNat_ofNat, toNat_ofNat]
  omega

theorem returned_handler_iff {u : NetState} (hm' : m < 2 ^ 32) :
    returned ((udpPacketHandler frame (BitVec.ofNat 64 m)).run u) = true ↔ OptionsOk frame m u.net.macAddr := by
  rw [returned_udpPacketHandler_iff, toNat_ofNat, mod_eq_of_lt (by omega)]

section

variable {x : Sending} {t : NetState} {padded : Bool} {page : Nat → Byte} {y : Receiving}

/-- The frame has the size of its headers at least, and is small for a 32-bit number. -/
theorem Sending.Sends.deliveredSize_bounds (hx : x.Sends t) (padded : Bool) :
    sizeofIPv4UDPPacket ≤ deliveredSize padded (sizeofIPv4UDPPacket + x.len.toNat) ∧
      deliveredSize padded (sizeofIPv4UDPPacket + x.len.toNat) < 2 ^ 32 := by
  have hlimit : 52 + x.len.toNat < 4096 := hx.limit
  have hhead : sizeofIPv4UDPPacket = 42 := rfl
  exact ⟨le_trans (le_add_right _ _) (le_deliveredSize padded _),
    lt_of_le_of_lt ((deliveredSize_le_iff (k := 4096) (by omega)).2 (by omega)) (by norm_num)⟩

theorem padded_iff : deliveredSize padded (sizeofIPv4UDPPacket + x.len.toNat) = sizeofIPv4UDPPacket + x.len.toNat ↔
    (padded = true → 18 ≤ x.len.toNat) := by
  have hhead : sizeofIPv4UDPPacket = 42 := rfl
  exact deliveredSize_eq_iff.trans (imp_congr_right fun _ => by omega)

/-- What a round trip takes. -/
theorem RoundTrips.conditions (h : RoundTrips x t padded page y) (hx : x.Sends t)
    (hy : y.Listens (portOf x.destAddr.sinPort) x.len.toNat) (hpage : Carries x t page) :
    x.len.toNat % 2 = 0 ∧ (padded = true → 18 ≤ x.len.toNat) ∧ sizeofIPv4UDPPacket + x.len.toNat ≤
      kPacketContainerSize ∧ OptionsOk (frameOf page) (deliveredSize padded (sizeofIPv4UDPPacket + x.len.toNat))
      y.state.net.macAddr := by
  obtain ⟨_, hsend, _, hproc, _, _, hrecv, hret, -⟩ := h
  obtain ⟨hm, hm'⟩ := hx.deliveredSize_bounds padded
  obtain ⟨hlen, hsize, -⟩ := hx.sent hsend
  obtain ⟨hudp, -⟩ := hx.delivered hsend (hpage _ _ hsend)
  rw [hsize, ← hlen] at hproc
  obtain ⟨hle, _, _, hhandler, rfl⟩ := (run_processPacket hudp hm hm').1 hproc
  obtain ⟨_, _, _, hrecv'⟩ := hy.receives hudp hm hhandler
  cases hrecv.symm.trans hrecv'
  refine ⟨(roundEven_eq_self_iff hx.lt_max).1 hlen.symm, padded_iff.1 ((ret_receive_eq_iff hm hm').1 hret),
    (deliveredSize_le_iff (by decide)).1 hle, (returned_handler_iff hm').1 ?_⟩
  rw [hhandler]
  rfl

/-- A payload makes the round trip exactly if its length is even, the frame is not padded, or long enough already, the
receiver has room for the whole frame, and, if the frame is a DHCP reply for it (so for port 68), the options in it that
set an address have four bytes. -/
theorem udp_roundTrips_iff (hx : x.Sends t) (hy : y.Listens (portOf x.destAddr.sinPort) x.len.toNat)
    (hpage : Carries x t page) : RoundTrips x t padded page y ↔
      x.len.toNat % 2 = 0 ∧ (padded = true → 18 ≤ x.len.toNat) ∧
      sizeofIPv4UDPPacket + x.len.toNat ≤ kPacketContainerSize ∧ OptionsOk (frameOf page)
        (deliveredSize padded (sizeofIPv4UDPPacket + x.len.toNat)) y.state.net.macAddr := by
  refine ⟨fun h => h.conditions hx hy hpage, ?_⟩
  rintro ⟨heven, hpad, hroom, hopts⟩
  obtain ⟨hm, hm'⟩ := hx.deliveredSize_bounds padded
  obtain ⟨s', hsend⟩ := hx.returns heven
  obtain ⟨hlen, hsize, -⟩ := hx.sent hsend
  obtain ⟨hudp, hdata⟩ := hx.delivered hsend (hpage _ _ hsend)
  obtain ⟨b, u, hhandler⟩ := exists_of_returned ((returned_handler_iff hm').2 hopts)
  obtain ⟨_, _, v, hrecv⟩ := hy.receives hudp hm hhandler
  refine ⟨s', hsend, _, ?_, _, v, hrecv, (ret_receive_eq_iff hm hm').2 (padded_iff.2 hpad), ?_⟩
  · rw [hsize, ← hlen]
    exact (run_processPacket hudp hm hm').2 ⟨(deliveredSize_le_iff (by decide)).2 hroom, b, u, hhandler, rfl⟩
  · rw [padded_iff.2 hpad, Sending.payload]
    rw [← hlen] at hdata
    have hmin : min (sizeofIPv4UDPPacket + x.len.toNat - sizeofIPv4UDPPacket) y.bufSize = x.len.toNat := by
      have := hy.bufSize
      omega
    simp only [receive, hmin]
    exact List.map_congr_left fun i hi => hdata i (List.mem_range.1 hi)

/-- A call has one result at most, so that there is a page that holds its frame. -/
theorem exists_carries (x : Sending) (t : NetState) : ∃ page, Carries x t page := by
  cases hrun : x.call.run x.state with
  | ok r s' =>
    refine ⟨(s'.net.txq.desc t.net.txIdx).page, fun r1 s1 h => ?_⟩
    cases hrun.symm.trans h
    exact fun _ _ => rfl
  | error e s' => exact ⟨fun _ => 0#8, fun r1 s1 h => nomatch hrun.symm.trans h⟩

end

/-- A payload for port 80 of the gateway. -/
def toPort80 (len : Word) : Sending := ⟨emptyBuffer, fun _ s => s, 2#64, 3, fun _ => 0x41#8, len, toGateway⟩

/-- A process that listens to port 80. -/
def onPort80 : Receiving := ⟨oneBuffer [⟨2#64, 3, 80#16, .udp⟩] fun _ => 0#8, fun _ s => s, 1, 2#64, 3, 64⟩

theorem toPort80_sends (h : sizeofPacketBufHeader + sizeofIPv4UDPPacket + len.toNat < Virtio.kPageSize) :
    (toPort80 len).Sends emptyBuffer :=
  ⟨⟨udpSocket, findSocket_oneBuffer _, rfl⟩, ⟨_, run_resolve_toGateway _ _ _⟩, rfl, one_pos, h⟩

theorem onPort80_listens {len : Nat} (h : len ≤ 64) : onPort80.Listens (portOf toGateway.sinPort) len :=
  ⟨⟨_, rfl, rfl, by decide⟩,
    ⟨by decide, by decide⟩, by
    decide, by simp [onPort80, oneBuffer, RingBuffer.contents, RingBuffer.size], by decide, h⟩

/-- 18 bytes fill a frame of 60 bytes. -/
theorem udp_roundTrips_18 : ∃ page, Carries (toPort80 18#64) emptyBuffer page ∧
    RoundTrips (toPort80 18#64) emptyBuffer true page onPort80 := by
  have hx : (toPort80 18#64).Sends emptyBuffer := toPort80_sends (by decide)
  obtain ⟨page, hpage⟩ := exists_carries (toPort80 18#64) emptyBuffer
  obtain ⟨_, hsend⟩ := hx.returns (by decide)
  have hport := (hx.delivered hsend (hpage _ _ hsend)).1.dstPort
  refine ⟨page, hpage, (udp_roundTrips_iff hx (onPort80_listens (by decide)) hpage).2
    ⟨by decide, by decide, by decide, ?_⟩⟩
  exact fun hreply => absurd (hport.symm.trans hreply.port) (by decide)

/-- One byte comes back as two, and two bytes in a padded frame come back as 18. -/
theorem udp_roundTrips_fails : (∃ page, Carries (toPort80 1#64) emptyBuffer page ∧
      ¬RoundTrips (toPort80 1#64) emptyBuffer false page onPort80) ∧ ∃ page, Carries (toPort80 2#64) emptyBuffer page ∧
      ¬RoundTrips (toPort80 2#64) emptyBuffer true page onPort80 := by
  obtain ⟨page, hpage⟩ := exists_carries (toPort80 1#64) emptyBuffer
  obtain ⟨page', hpage'⟩ := exists_carries (toPort80 2#64) emptyBuffer
  refine ⟨⟨page, hpage, fun h => ?_⟩, page', hpage', fun h => ?_⟩
  · obtain ⟨heven, -⟩ := h.conditions (toPort80_sends (by decide)) (onPort80_listens (by decide)) hpage
    exact absurd heven (by decide)
  · obtain ⟨-, hpad, -⟩ := h.conditions (toPort80_sends (by decide)) (onPort80_listens (by decide)) hpage'
    exact absurd (hpad rfl) (by decide)

end Liumos.Inet
