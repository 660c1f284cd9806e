/-
Packets in memory: Ethernet, IPv4, ICMP, UDP and ARP headers at their offsets, and the Internet checksum.
Sources: network.h; syscall.cc (`sys_sendto`) for the order in which the fields of a packet are set. A frame
is a function of the offset from the start of the Ethernet header.
-/
import Liumos.Virtio.Queue
import Liumos.Lib.OnesComplement

namespace Liumos.Inet

open Virtio

/-- The bytes from the Ethernet header on. -/
abbrev Frame := Nat → Byte

/-! ## Access to the bytes -/

/-- Consecutive bytes, stored from `off` on. -/
def put (p : Frame) (off : Nat) (l : List Byte) : Frame := fun o => if off ≤ o then l.getD (o - off) (p o) else p o

/-- `memcpy(&p[off], src, len)`. -/
def copyIn (p : Frame) (off len : Nat) (src : Nat → Byte) : Frame :=
  fun o => if off ≤ o ∧ o < off + len then src (o - off) else p o

/-- A 16-bit number as the network has it, its upper byte first. -/
def be16 (x : BitVec 16) : List Byte := [(x >>> 8).setWidth 8, x.setWidth 8]

/-- A 16-bit number as the processor stores it. -/
def le16 (x : BitVec 16) : List Byte := [x.setWidth 8, (x >>> 8).setWidth 8]

def readBe16 (p : Frame) (off : Nat) : BitVec 16 := p off ++ p (off + 1)

def readAddr (p : Frame) (off : Nat) : IPv4Addr := ⟨p off, p (off + 1), p (off + 2), p (off + 3)⟩

/-! ## Offsets -/

def ethDst : Nat := 0
def ethSrc : Nat := 6
def ethType : Nat := 12
/-- `sizeof(EtherFrame)`. -/
def sizeofEtherFrame : Nat := 14
def versionAndIhl : Nat := 14
def dscpAndEcn : Nat := 15
def ipLength : Nat := 16
def ipIdent : Nat := 18
def ipFlags : Nat := 20
def ipTtl : Nat := 22
def ipProtocol : Nat := 23
def ipCsum : Nat := 24
def ipSrc : Nat := 26
def ipDst : Nat := 30
def sizeofIPv4Packet : Nat := 34
def icmpType : Nat := 34
def sizeofICMPPacket : Nat := 42
def udpSrcPort : Nat := 34
def udpDstPort : Nat := 36
def udpLength : Nat := 38
def udpCsum : Nat := 40
def sizeofIPv4UDPPacket : Nat := 42
def sizeofARPPacket : Nat := 42

def kTypeARP : List Byte := [0x08#8, 0x06#8]
def kTypeIPv4 : List Byte := [0x08#8, 0x00#8]

/-- `IPv4Packet::Protocol`. -/
def kICMP : Byte := 1#8
def kUDP : Byte := 17#8

/-- `HasEthType`. -/
def hasEthType (p : Frame) (etype : List Byte) : Bool := [p ethType, p (ethType + 1)] == etype

/-! ## Checksums -/

/-- `static_cast<uint16_t>(p[i]) << 8 | p[i + 1]`. -/
def word (p : Frame) (i : Nat) : Nat := (p i).toNat * 256 + (p (i + 1)).toNat

/-- `n` rounds of `sum += ...; i += 2` on a `uint32_t`. -/
def sumLoop (p : Frame) : Nat → Nat → Nat → Nat
  | 0, _, sum => sum
  | n + 1, i, sum => sumLoop p n (i + 2) ((sum + word p i) % 2 ^ 32)

/-- The rounds of `for (i = start; i < end; i += 2)`. -/
def numOfWords (start stop : Nat) : Nat := (stop - start + 1) / 2

/-- `while (sum >> 16) sum = (sum & 0xffff) + (sum >> 16)`, which takes two rounds at most, and the two bytes of
`~sum`. -/
def finishChecksum (sum : Nat) : List Byte := be16 (~~~BitVec.ofNat 16 (OnesComplement.fold 65536 2 sum))

/-- `InternetChecksum::Calc(buf, start, end)`. -/
def calcChecksum (p : Frame) (start stop : Nat) : List Byte :=
  finishChecksum (sumLoop p (numOfWords start stop) start 0)

def addrSum (x : IPv4Addr) : Nat := (x.a.toNat * 256 + x.b.toNat) + (x.c.toNat * 256 + x.d.toNat)

/-- `CalcUDPChecksum(buf, start, end, src_addr, dst_addr, udp_length)`. -/
def calcUDPChecksum (p : Frame) (start stop : Nat) (srcAddr dstAddr : IPv4Addr) (length : BitVec 16) : List Byte :=
  finishChecksum (sumLoop p (numOfWords start stop) start (addrSum srcAddr + addrSum dstAddr + length.toNat + 17))

/-! ## Setting the fields -/

/-- `size = (size + 1) & ~1`. -/
def roundEven {w : Nat} (size : BitVec w) : BitVec w := (size + 1#w) &&& ~~~1#w

/-- `IPv4Packet::SetDataLength(size)`. -/
def setDataLength (p : Frame) (size : BitVec 16) : Frame := put p ipLength (be16 (roundEven (size + 20#16)))

/-- `CalcAndSetChecksum()`. -/
def calcAndSetChecksum (p : Frame) : Frame :=
  let p := put p ipCsum [0#8, 0#8]
  put p ipCsum (calcChecksum p versionAndIhl sizeofIPv4Packet)

/-- `IPv4UDPPacket::SetDataSize(size)`. -/
def setDataSize (p : Frame) (size : BitVec 16) : Frame := put p udpLength (be16 (roundEven (size + 8#16)))

/-- The Ethernet and IPv4 headers as `sys_sendto` sets them. -/
def fillIPv4 (p : Frame) (dstEth srcEth : EtherAddr) (dataLength : BitVec 16) (protocol : Byte)
    (srcIp dstIp : IPv4Addr) : Frame :=
  let p := put p ethDst dstEth.toList
  let p := put p ethSrc srcEth.toList
  let p := put p ethType kTypeIPv4
  let p := put p versionAndIhl [0x45#8]
  let p := put p dscpAndEcn [0#8]
  let p := setDataLength p dataLength
  let p := put p ipIdent [0#8, 0#8]
  let p := put p ipFlags [0#8, 0#8]
  let p := put p ipTtl [0xff#8]
  let p := put p ipProtocol [protocol]
  let p := put p ipSrc srcIp.toList
  let p := put p ipDst dstIp.toList
  calcAndSetChecksum p

/-- An ICMP packet as `sys_sendto` sets it up: from the type on it is what the process passed. -/
def fillICMP (p : Frame) (dstEth srcEth : EtherAddr) (srcIp dstIp : IPv4Addr) (buf : Nat → Byte) (len : Word) : Frame :=
  let p := fillIPv4 p dstEth srcEth (BitVec.ofNat 16 (sizeofICMPPacket - sizeofIPv4Packet)) kICMP srcIp dstIp
  copyIn p icmpType len.toNat buf

/-- A UDP packet as `sys_sendto` sets it up. Its `csum` is not cleared before the checksum is computed. -/
def fillUDP (p : Frame) (dstEth srcEth : EtherAddr) (srcIp dstIp : IPv4Addr) (srcPort sinPort : BitVec 16)
    (buf : Nat → Byte) (len : Word) : Frame :=
  let p := fillIPv4 p dstEth srcEth
    ((BitVec.ofNat 64 sizeofIPv4UDPPacket + len - BitVec.ofNat 64 sizeofIPv4Packet).setWidth 16)
    kUDP srcIp dstIp
  let p := copyIn p sizeofIPv4UDPPacket len.toNat buf
  let p := put p udpSrcPort (be16 srcPort)
  let p := put p udpDstPort (le16 sinPort)
  let p := setDataSize p (len.setWidth 16)
  put p udpCsum (calcUDPChecksum p udpSrcPort (BitVec.ofNat 64 sizeofIPv4UDPPacket + len).toNat (readAddr p ipSrc)
    (readAddr p ipDst) (readBe16 p udpLength))

/-- `ARPPacket::SetupRequest(target_ip, src_ip, src_mac)`. -/
def setupARPRequest (p : Frame) (targetIp srcIp : IPv4Addr) (srcMac : EtherAddr) : Frame :=
  let p := put p ethDst (List.replicate 6 0xff#8)
  let p := put p 32 (List.replicate 6 0#8)
  let p := put p ethSrc srcMac.toList
  let p := put p 22 srcMac.toList
  let p := put p 28 srcIp.toList
  let p := put p 38 targetIp.toList
  let p := put p ethType kTypeARP
  put p 14 [0x00#8, 0x01#8, 0x08#8, 0x00#8, 6#8, 4#8, 0x00#8, 0x01#8]

end Liumos.Inet
