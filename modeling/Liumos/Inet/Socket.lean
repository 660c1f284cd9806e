/-
Sockets: the system calls that send and receive packets.
Sources: network.h (`Network`), syscall.cc (`sys_sendto`, `sys_recvfrom`, `ResolveIPv4WithTimeout`), network.cc
(`SendARPRequest`). A call that sleeps lets other processes run; what they do to the state is the parameter
`sleep`, for each time the call sleeps. The texts printed to the console are left out.
-/
import Liumos.Inet.Packet
import Liumos.Machine.RingBuffer

namespace Liumos.Inet

open Virtio

/-! ## The state -/

inductive SocketType where
  | icmpRaw
  | icmpDatagram
  | udp
  deriving DecidableEq, Repr

structure Socket where
  pid : Word
  fd : Int
  listenPort : BitVec 16
  type : SocketType
  deriving DecidableEq, Repr

/-- A received frame. -/
structure PacketContainer where
  size : Nat
  data : Frame

def kPacketContainerSize : Nat := 2048
def kRXBufferSize : Nat := 32

structure Network where
  arpTable : IPv4Addr → Option EtherAddr
  rxBuffer : RingBuffer PacketContainer kRXBufferSize
  sockets : List Socket
  gateway : IPv4Addr
  netmask : IPv4Addr

/-- The network stack and the driver below it. -/
structure NetState where
  net : Net
  network : Network

section

variable {β : Type}

def onNet (x : KM Net β) : KM NetState β := fun s =>
  match x s.net with
  | .ok b net => .ok b { s with net := net }
  | .error e net => .error e { s with net := net }

variable {x : KM Net β} {b : β} {s : NetState}

theorem run_onNet_ok {net : Net} (h : x.run s.net = .ok b net) : (onNet x).run s = .ok b { s with net := net } := by
  show (match x s.net with | .ok b net => _ | .error e net => _) = _
  rw [show x s.net = .ok b net from h]

theorem of_run_onNet {s' : NetState} (h : (onNet x).run s = .ok b s') :
    ∃ net, x.run s.net = .ok b net ∧ s' = { s with net := net } := by
  replace h : (match x s.net with
    | .ok b net => .ok b { s with net := net }
    | .error e net => .error e { s with net := net }) = EStateM.Result.ok b s' := h
  cases hx : x s.net with
  | ok b' net =>
    rw [hx] at h
    cases h
    exact ⟨net, hx, rfl⟩
  | error e net =>
    rw [hx] at h
    cases h

end

/-- The bytes of a page after the `PacketBufHeader`. -/
def frameOf (page : Nat → Byte) : Frame := fun o => page (sizeofPacketBufHeader + o)

/-- The page with another frame in it. -/
def withFrame (page : Nat → Byte) (p : Frame) : Nat → Byte :=
  fun o => if o < sizeofPacketBufHeader then page o else p (o - sizeofPacketBufHeader)

/-- Stores to the packet in the buffer of descriptor `idx`. -/
def storeFrame (net : Net) (idx : Nat) (f : Frame → Frame) : Net :=
  { net with txq := net.txq.setDesc idx { net.txq.desc idx with
      page := withFrame (net.txq.desc idx).page (f (frameOf (net.txq.desc idx).page)) } }

def modifyFrame (idx : Nat) (f : Frame → Frame) : KM NetState Unit :=
  modify fun s => { s with net := storeFrame s.net idx f }

/-- One packet to transmit: the buffer for `size` bytes, the stores to it, and `SendPacket`. -/
def transmit (size : Word) (fill : Net → Frame → Frame) : KM NetState Unit := do
  let idx ← onNet (getNextTXPacketBuf size)
  let net := (← get).net
  modifyFrame idx (fill net)
  onNet sendPacket

/-! ## Addresses -/

/-- `IsInSameSubnet(another, mask)`. -/
def isInSameSubnet (x another mask : IPv4Addr) : Bool :=
  ((x.a ^^^ another.a) &&& mask.a == 0#8) && ((x.b ^^^ another.b) &&& mask.b == 0#8) &&
    ((x.c ^^^ another.c) &&& mask.c == 0#8) && ((x.d ^^^ another.d) &&& mask.d == 0#8)

/-- `SendARPRequest(ip_addr)`. -/
def sendARPRequest (ip : IPv4Addr) : KM NetState Unit :=
  transmit (BitVec.ofNat 64 sizeofARPPacket) fun net p => setupARPRequest p ip net.selfIp net.macAddr

/-- The loop of `ResolveIPv4WithTimeout`, with `n` tries left. -/
def resolveLoop (sleep : Nat → NetState → NetState) (nexthop : IPv4Addr) : Nat → KM NetState (Option EtherAddr)
  | 0 => pure none
  | n + 1 => do
    match (← get).network.arpTable nexthop with
    | some eth => return some eth
    | none =>
      sendARPRequest nexthop
      modify (sleep n)
      resolveLoop sleep nexthop n

/-- `ResolveIPv4WithTimeout(dst_ip_addr, 1000)`: a try every 200ms. -/
def resolveIPv4WithTimeout (sleep : Nat → NetState → NetState) (dst : IPv4Addr) : KM NetState (Option EtherAddr) := do
  let network := (← get).network
  let nexthop := if isInSameSubnet dst network.gateway network.netmask then dst else network.gateway
  resolveLoop sleep nexthop 5

variable {s : NetState}

/-- An address that is known needs no request. -/
theorem run_resolve_of_known {sleep : Nat → NetState → NetState} {dst : IPv4Addr} {eth : EtherAddr}
    (h : s.network.arpTable (if isInSameSubnet dst s.network.gateway s.network.netmask then dst
      else s.network.gateway) = some eth) : (resolveIPv4WithTimeout sleep dst).run s = .ok (some eth) s := by
  rw [resolveIPv4WithTimeout, run_get_bind]
  rw [resolveLoop, run_get_bind, h]
  rfl

/-! ## Sockets -/

/-- `it.pid == pid && it.fd == fd`. -/
def Socket.isOf (pid : Word) (fd : Int) (it : Socket) : Bool := it.pid == pid && it.fd == fd

/-- `FindSocket(pid, fd)`. -/
def Network.findSocket (network : Network) (pid : Word) (fd : Int) : Option Socket :=
  network.sockets.find? (Socket.isOf pid fd)

/-- The fields of `sockaddr_in` that are used. -/
structure SockaddrIn where
  sinPort : BitVec 16
  sinAddr : IPv4Addr
  deriving DecidableEq, Repr

/-- The port that `sys_bind` takes from a `sin_port`, whose upper byte comes first. -/
def portOf (sinPort : BitVec 16) : BitVec 16 := ((sinPort >>> 8) &&& 0xff#16) ||| (sinPort <<< 8)

/-! ## Sending -/

/-- The part of `sys_sendto` after the destination is resolved. -/
def sendtoResolved (sock : Socket) (buf : Nat → Byte) (len : Word) (destAddr : SockaddrIn) (dstEth : EtherAddr) :
    KM NetState Word :=
  match sock.type with
  | .icmpRaw | .icmpDatagram => do
    transmit (BitVec.ofNat 64 sizeofIPv4Packet + len) fun net p =>
      fillICMP p dstEth net.macAddr net.selfIp destAddr.sinAddr buf len
    return len
  | .udp => do
    let len := roundEven len
    transmit (BitVec.ofNat 64 sizeofIPv4UDPPacket + len) fun net p =>
      fillUDP p dstEth net.macAddr net.selfIp destAddr.sinAddr sock.listenPort destAddr.sinPort buf len
    return len

/-- `sys_sendto(sockfd, buf, len, flags, dest_addr, addrlen)` of the process `pid`. -/
def sysSendto (sleep : Nat → NetState → NetState) (pid : Word) (sockfd : Int) (buf : Nat → Byte) (len : Word)
    (destAddr : SockaddrIn) : KM NetState Word := do
  match (← get).network.findSocket pid sockfd with
  | none => return -1#64
  | some sock =>
    match ← resolveIPv4WithTimeout sleep destAddr.sinAddr with
    | none => return -1#64
    | some dstEth => sendtoResolved sock buf len destAddr dstEth

/-! ## Receiving -/

def isICMPPacket (p : PacketContainer) : Bool :=
  decide (sizeofIPv4Packet ≤ p.size) && hasEthType p.data kTypeIPv4 && (p.data ipProtocol == kICMP)

def isUDPPacketToPort (port : BitVec 16) (p : PacketContainer) : Bool :=
  decide (sizeofIPv4UDPPacket ≤ p.size) && hasEthType p.data kTypeIPv4 && (p.data ipProtocol == kUDP) &&
    (readBe16 p.data udpDstPort == port)

/-- `while (network.HasPacketInRXBuffer())`: the first packet that is wanted; those before it are dropped. The
buffer never holds 32 packets. -/
def popWanted (wanted : PacketContainer → Bool) : Nat → KM NetState (Option PacketContainer)
  | 0 => pure none
  | n + 1 => do
    let s ← get
    if s.network.rxBuffer.isEmpty then return none
    else
      let (packet, rest) := s.network.rxBuffer.pop
      set { s with network := { s.network with rxBuffer := rest } }
      if wanted packet then return some packet else popWanted wanted n

/-- `for (;;) {...; Sleep(); }`, cut off after a number of rounds. -/
def waitFor (sleep : Nat → NetState → NetState) (wanted : PacketContainer → Bool) : Nat → KM NetState PacketContainer
  | 0 => throw .diverges
  | n + 1 => do
    match ← popWanted wanted kRXBufferSize with
    | some packet => return packet
    | none =>
      modify (sleep n)
      waitFor sleep wanted n

/-- What `sys_recvfrom` returns and stores: the bytes at `buf`, and the fields of `recv_addr` that it sets. -/
structure Received where
  ret : Word
  buf : List Byte
  srcAddr : Option IPv4Addr
  srcPort : Option (Byte × Byte)

/-- The part of a packet from `off` on, as far as the buffer goes. -/
def receive (packet : PacketContainer) (off bufSize : Nat) (srcAddr : Option IPv4Addr)
    (srcPort : Option (Byte × Byte)) : Received where
  ret := BitVec.ofNat 64 packet.size - BitVec.ofNat 64 off
  buf := (List.range (min (packet.size - off) bufSize)).map fun i => packet.data (off + i)
  srcAddr := srcAddr
  srcPort := srcPort

/-- `sys_recvfrom(sockfd, buf, buf_size, flags, recv_addr, addrlen)` of the process `pid`. -/
def sysRecvfrom (sleep : Nat → NetState → NetState) (fuel : Nat) (pid : Word) (sockfd : Int) (bufSize : Nat) :
    KM NetState Received := do
  match (← get).network.findSocket pid sockfd with
  | none => return ⟨-1#64, [], none, none⟩
  | some sock =>
    match sock.type with
    | .icmpDatagram =>
      let packet ← waitFor sleep isICMPPacket fuel
      return receive packet sizeofIPv4Packet bufSize (some (readAddr packet.data ipSrc)) none
    | .icmpRaw =>
      let packet ← waitFor sleep isICMPPacket fuel
      return receive packet sizeofEtherFrame bufSize none none
    | .udp =>
      let packet ← waitFor sleep (isUDPPacketToPort sock.listenPort) fuel
      return receive packet sizeofIPv4UDPPacket bufSize (some (readAddr packet.data ipSrc))
        (some (packet.data udpSrcPort, packet.data (udpSrcPort + 1)))

end Liumos.Inet
