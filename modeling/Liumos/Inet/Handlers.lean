/-
What happens to a packet that arrives: the handlers for ARP, ICMP echo and DHCP, the buffer from which
sockets read, and the loop that takes packets from the receive queue.
Source: virtio_net.cc. Frame sizes are `size_t`. The texts printed to the console are left out.
-/
import Liumos.Inet.Socket

namespace Liumos.Inet

open Virtio

/-! ## ARP -/

/-- `ARPPacket::Operation`. -/
inductive ARPOperation where
  | unknown
  | request
  | reply
  deriving DecidableEq, Repr

def arpOp : Nat := 20
def arpSenderEth : Nat := 22
def arpSenderProto : Nat := 28
def arpTargetProto : Nat := 38

/-- `GetOperation()`. -/
def getOperation (p : Frame) : ARPOperation :=
  if p arpOp ≠ 0#8 then .unknown
  else if p (arpOp + 1) = 1#8 then .request
  else if p (arpOp + 1) = 2#8 then .reply
  else .unknown

def readEther (p : Frame) (off : Nat) : EtherAddr :=
  ⟨p off, p (off + 1), p (off + 2), p (off + 3), p (off + 4), p (off + 5)⟩

/-- `ARPPacket::SetupReply(target_ip, src_ip, target_mac, src_mac)`. -/
def setupARPReply (p : Frame) (targetIp srcIp : IPv4Addr) (targetMac srcMac : EtherAddr) : Frame :=
  let p := put p ethDst targetMac.toList
  let p := put p ethSrc srcMac.toList
  let p := put p 32 targetMac.toList
  let p := put p arpSenderEth srcMac.toList
  let p := put p arpSenderProto srcIp.toList
  let p := put p arpTargetProto targetIp.toList
  let p := put p ethType kTypeARP
  put p 14 [0x00#8, 0x01#8, 0x08#8, 0x00#8, 6#8, 4#8, 0x00#8, 0x02#8]

/-- `RegisterARPResolution(ip_addr, eth_addr)`. -/
def registerARPResolution (ip : IPv4Addr) (eth : EtherAddr) : KM NetState Unit :=
  modify fun s => { s with network := { s.network with arpTable := Function.update s.network.arpTable ip (some eth) } }

/-- `ARPPacketHandler(frame_data, frame_size)`. -/
def arpPacketHandler (frame : Frame) (size : Word) : KM NetState Bool := do
  if size.toNat < sizeofARPPacket then return false
  else if !hasEthType frame kTypeARP then return false
  else match getOperation frame with
    | .reply =>
      registerARPResolution (readAddr frame arpSenderProto) (readEther frame arpSenderEth)
      return true
    | .unknown => return false
    | .request =>
      if readAddr frame arpTargetProto ≠ (← get).net.selfIp then return true
      else
        transmit (BitVec.ofNat 64 sizeofARPPacket) fun net p =>
          setupARPReply p (readAddr frame arpSenderProto) net.selfIp (readEther frame arpSenderEth) net.macAddr
        return true

/-! ## ICMP -/

def kEchoReply : Byte := 0#8
def kEchoRequest : Byte := 8#8
def icmpCsum : Nat := 36

/-- The reply of `SendICMPEchoReply`, made from the request. The checksum of the IP header is computed up to the
end of the frame. -/
def fillEchoReply (req : Frame) (size : Nat) (self : EtherAddr) (p : Frame) : Frame :=
  let p := copyIn p 0 size req
  let p := put p icmpType [kEchoReply]
  let p := put p icmpCsum [0#8, 0#8]
  let p := put p icmpCsum (calcChecksum p icmpType size)
  let p := put p ipDst (readAddr req ipSrc).toList
  let p := put p ipSrc (readAddr req ipDst).toList
  let p := put p ipCsum [0#8, 0#8]
  let p := put p ipCsum (calcChecksum p versionAndIhl size)
  let p := put p ethDst (readEther req ethSrc).toList
  put p ethSrc self.toList

/-- The text that follows an echo reply. -/
def hello : List Byte := "Hello! This is liumOS. Are you there?\n".toList.map fun c => BitVec.ofNat 8 c.toNat

/-- `(sizeof(IPv4UDPPacket) + strlen(s) + 1) & ~1`. -/
def helloPacketSize : Nat := (sizeofIPv4UDPPacket + hello.length + 1) / 2 * 2

/-- The UDP packet that follows an echo reply, made from the request. -/
def fillHello (req : Frame) (self : EtherAddr) (p : Frame) : Frame :=
  let p := copyIn p 0 helloPacketSize req
  let p := put p sizeofIPv4UDPPacket hello
  let p := put p udpDstPort (be16 11111#16)
  let p := put p udpSrcPort (be16 12345#16)
  let p := setDataSize p (BitVec.ofNat 16 hello.length)
  let p := put p udpCsum [0#8, 0#8]
  let p := put p udpCsum (calcUDPChecksum p udpSrcPort helloPacketSize (readAddr req ipDst) (readAddr req ipSrc)
    (readBe16 p udpLength))
  let p := put p ipProtocol [kUDP]
  let p := setDataLength p (BitVec.ofNat 16 (helloPacketSize - sizeofIPv4Packet))
  let p := put p ipDst (readAddr req ipSrc).toList
  let p := put p ipSrc (readAddr req ipDst).toList
  let p := put p ipCsum [0#8, 0#8]
  let p := put p ipCsum (calcChecksum p versionAndIhl sizeofIPv4Packet)
  let p := put p ethDst (readEther req ethSrc).toList
  put p ethSrc self.toList

/-- `SendICMPEchoReply(req, req_frame_size)`. -/
def sendICMPEchoReply (req : Frame) (size : Word) : KM NetState Unit := do
  if size.toNat < sizeofICMPPacket then return ()
  else
    transmit size fun net => fillEchoReply req size.toNat net.macAddr
    transmit (BitVec.ofNat 64 helloPacketSize) fun net => fillHello req net.macAddr

/-- `ICMPPacketHandler(p, frame_size)`. -/
def icmpPacketHandler (frame : Frame) (size : Word) : KM NetState Bool := do
  if frame ipProtocol ≠ kICMP then return false
  else if size.toNat < sizeofICMPPacket then return false
  else
    if frame icmpType = kEchoRequest then sendICMPEchoReply frame size
    return true

/-! ## DHCP -/

def dhcpOp : Nat := 42
def dhcpYiaddr : Nat := 58
def dhcpChaddr : Nat := 70
def dhcpCookie : Nat := 278
def sizeofDHCPPacket : Nat := 282

/-- `SetSelfIPv4Addr(addr)`. -/
def setSelfIPv4Addr (addr : IPv4Addr) : KM NetState Unit := do
  modify fun s => { s with net := { s.net with selfIp := addr } }
  if addr = ⟨0#8, 0#8, 0#8, 0#8⟩ then return ()
  else registerARPResolution addr (← get).net.macAddr

/-- The loop over the options, from `i` on. The position grows by two at least, so that `n` rounds are enough for a
frame of `n` bytes. -/
def dhcpOptions (frame : Frame) (size : Nat) : Nat → Nat → KM NetState Unit
  | 0, _ => throw .diverges
  | n + 1, i => do
    if size ≤ i then return ()
    else
      let option := frame i
      let optionDataLen := frame (i + 1)
      if optionDataLen = 0#8 then return ()
      else
        if option = 3#8 then
          assert (optionDataLen == 4#8) "option_data_len == 4"
          modify fun s => { s with network := { s.network with gateway := readAddr frame (i + 2) } }
        if option = 1#8 then
          assert (optionDataLen == 4#8) "option_data_len == 4"
          modify fun s => { s with network := { s.network with netmask := readAddr frame (i + 2) } }
        dhcpOptions frame size n (i + 2 + optionDataLen.toNat)

/-- `UDPPacketHandler(p, frame_size)`. -/
def udpPacketHandler (frame : Frame) (size : Word) : KM NetState Bool := do
  if frame ipProtocol ≠ kUDP then return false
  else if size.toNat < sizeofIPv4UDPPacket then return false
  else if readBe16 frame udpDstPort ≠ 68#16 then return false
  else if frame dhcpOp ≠ 2#8 ∨ readEther frame dhcpChaddr ≠ (← get).net.macAddr then return false
  else
    setSelfIPv4Addr (readAddr frame dhcpYiaddr)
    if readAddr frame dhcpCookie ≠ ⟨99#8, 130#8, 83#8, 99#8⟩ then return true
    else
      dhcpOptions frame size.toNat (size.toNat + 1) sizeofDHCPPacket
      return true

/-- A part of the state that DHCP does not set. -/
structure OutsideDHCP {τ : Type} (f : NetState → τ) : Prop where
  selfIp : ∀ s addr, f { s with net := { s.net with selfIp := addr } } = f s
  arpTable : ∀ s table, f { s with network := { s.network with arpTable := table } } = f s
  gateway : ∀ s addr, f { s with network := { s.network with gateway := addr } } = f s
  netmask : ∀ s addr, f { s with network := { s.network with netmask := addr } } = f s

section

variable {τ : Type} {f : NetState → τ}

theorem keeps_dhcpOptions (hf : OutsideDHCP f) (frame : Frame) (size n i : Nat) :
    Keeps f (dhcpOptions frame size n i) := by
  induction n generalizing i with
  | zero => exact .throw _
  | succ n ih =>
    have hrest := ih (i + 2 + (frame (i + 1)).toNat)
    have hmask : Keeps f (do
        if frame i = 1#8 then
          assert (frame (i + 1) == 4#8) "option_data_len == 4"
          modify fun s => { s with network := { s.network with netmask := readAddr frame (i + 2) } }
        dhcpOptions frame size n (i + 2 + (frame (i + 1)).toNat)) :=
      .ite (.bind (.assert _ _) fun _ => .bind (.modify fun _ => hf.netmask _ _) fun _ => hrest) hrest
    exact .ite (.pure _) (.ite (.pure _)
      (.ite (.bind (.assert _ _) fun _ => .bind (.modify fun _ => hf.gateway _ _) fun _ => hmask) hmask))

theorem keeps_udpPacketHandler (hf : OutsideDHCP f) (frame : Frame) (size : Word) :
    Keeps f (udpPacketHandler frame size) := by
  have hset : ∀ addr, Keeps f (setSelfIPv4Addr addr) := fun addr =>
    .bind (.modify fun _ => hf.selfIp _ _) fun _ =>
      .ite (.pure _) (.bind .get fun _ => .modify fun _ => hf.arpTable _ _)
  exact .ite (.pure _) (.ite (.pure _) (.ite (.pure _) (.bind .get fun _ => .ite (.pure _) (.bind (hset _) fun _ =>
    .ite (.pure _) (.bind (keeps_dhcpOptions hf _ _ _ _) fun _ => .pure _)))))

end

/-! ## Receiving a packet -/

/-- `IPv4PacketHandler(frame_data, frame_size)`. -/
def ipv4PacketHandler (frame : Frame) (size : Word) : KM NetState Bool := do
  if size.toNat < sizeofIPv4Packet then return false
  else if !hasEthType frame kTypeIPv4 then return false
  else if ← icmpPacketHandler frame size then return true
  else if ← udpPacketHandler frame size then return true
  else return true

/-- `PushToRXBuffer(frame_data, 0, frame_size)`. -/
def pushToRXBuffer (frame : Frame) (size : Word) : KM NetState Unit := do
  assert (decide (0 < size.toNat)) "begin < end"
  assert (decide (size.toNat ≤ kPacketContainerSize)) "buf.size <= kPacketContainerSize"
  modify fun s => { s with network := { s.network with rxBuffer := s.network.rxBuffer.push ⟨size.toNat, frame⟩ } }

/-- `ProcessPacket(buf, buf_size)`, for the page that starts at `buf`. -/
def processPacket (page : Nat → Byte) (bufSize : Word) : KM NetState Unit := do
  let size := bufSize - BitVec.ofNat 64 sizeofPacketBufHeader
  let frame := frameOf page
  if !(← arpPacketHandler frame size) then
    let _ ← ipv4PacketHandler frame size
  pushToRXBuffer frame size

/-! ## The receive queue -/

/-- What the device has written when the driver looks: the index of the used ring, and the pages and lengths of
the buffers. -/
structure Completion where
  usedIndex : BitVec 16
  page : Nat → Nat → Byte
  usedLen : Nat → BitVec 32

/-- The receive queue as the device left it. -/
def Completion.apply (c : Completion) (s : NetState) : NetState :=
  { s with net := { s.net with rxq := { s.net.rxq with
      desc := fun i => { s.net.rxq.desc i with page := c.page i }
      usedLen := c.usedLen } } }

/-- `GetUsedRingIndex()`, with what the device did before it. -/
def getUsedRingIndex (c : Completion) : KM NetState (BitVec 16) := do
  modify c.apply
  return c.usedIndex

theorem run_getUsedRingIndex_bind {β : Type} (c : Completion) (f : BitVec 16 → KM NetState β) (s : NetState) :
    (getUsedRingIndex c >>= f).run s = (f c.usedIndex).run (c.apply s) := rfl

/-- `while (rxq.GetUsedRingIndex() != rxq_cursor_) {...}`, cut off after a number of rounds. The device goes on
between two rounds. The number of packets that were processed is returned, which the source does not count. -/
def pollLoop (device : Nat → Completion) : Nat → Nat → KM NetState Nat
  | 0, _ => throw .diverges
  | fuel + 1, k => do
    let used ← getUsedRingIndex (device k)
    let net := (← get).net
    if used = net.rxCursor then return 0
    else
      let idx := net.rxCursor.toNat % net.rxq.queueSize
      assertIdx net.rxq idx
      processPacket (net.rxq.desc idx).page ((net.rxq.usedLen idx).setWidth 64)
      modify fun s => { s with net := { s.net with
        rxq := { s.net.rxq with usedLen := Function.update s.net.rxq.usedLen idx 0#32 }
        rxCursor := s.net.rxCursor + 1#16 } }
      return (← pollLoop device fuel (k + 1)) + 1

/-- `PollRXQueue()`. -/
def pollRXQueue (device : Nat → Completion) (fuel : Nat) : KM NetState Nat := do
  let used ← getUsedRingIndex (device 0)
  if used = (← get).net.rxCursor then return 0
  else
    let processed ← pollLoop device fuel 1
    modify fun s => { s with net := { s.net with rxq := s.net.rxq.setIndex (s.net.rxCursor.toNat - 1) } }
    return processed

end Liumos.Inet
