/-
What `sys_sendto` leaves in the transmit buffer: where it writes, and whether the checksum of a UDP datagram
is valid.
Sources: syscall.cc (`sys_sendto`), virtio_net.h (`GetNextTXPacketBuf`), network.h (`CalcUDPChecksum`).
-/
import Liumos.Inet.Socket
import Mathlib.Algebra.BigOperators.Intervals

namespace Liumos.Inet

open Virtio List Nat Function
open BitVec (ofNat toNat_setWidth toNat_add toNat_ofNat)

/-! ## Stores to a frame -/

variable {p : Frame} {off o i : Nat} {l : List Byte} {dstEth srcEth : EtherAddr} {srcIp dstIp : IPv4Addr}
  {buf : Nat → Byte} {len : Word}

theorem put_of_lt (h : o < off) : put p off l o = p o := if_neg (by omega)

theorem put_of_ge (h : off + l.length ≤ o) : put p off l o = p o := by
  rw [put, if_pos (by omega), getD_eq_getElem?_getD, getElem?_eq_none (by omega), Option.getD_none]

/-- The bytes that were put. -/
theorem put_add (h : i < l.length) : put p off l (off + i) = l[i] := by
  rw [put, if_pos (by omega), Nat.add_sub_cancel_left, getD_eq_getElem _ _ h]

/-- They do not depend on what stood there. -/
theorem put_eq_put (p q : Frame) (h : off ≤ o) (h' : o < off + l.length) : put p off l o = put q off l o := by
  rw [put, put, if_pos h, if_pos h, getD_eq_getElem _ _ (by omega), getD_eq_getElem _ _ (by omega)]

@[simp] theorem length_be16 (x : BitVec 16) : (be16 x).length = 2 := rfl
@[simp] theorem length_le16 (x : BitVec 16) : (le16 x).length = 2 := rfl
@[simp] theorem length_finishChecksum (sum : Nat) : (finishChecksum sum).length = 2 := rfl
@[simp] theorem length_calcChecksum (p : Frame) (i j : Nat) : (calcChecksum p i j).length = 2 := rfl
@[simp] theorem length_calcUDPChecksum (p : Frame) (i j : Nat) (x y : IPv4Addr) (l : BitVec 16) :
    (calcUDPChecksum p i j x y l).length = 2 := rfl
@[simp] theorem length_toList_ip (x : IPv4Addr) : x.toList.length = 4 := rfl
@[simp] theorem length_toList_eth (x : EtherAddr) : x.toList.length = 6 := rfl

/-- The headers end where the data starts. -/
theorem fillIPv4_of_ge {dataLength : BitVec 16} {protocol : Byte} (h : sizeofIPv4Packet ≤ o) :
    fillIPv4 p dstEth srcEth dataLength protocol srcIp dstIp o = p o := by
  have ho : 34 ≤ o := h
  simp only [fillIPv4, calcAndSetChecksum, setDataLength]
  repeat rw [put_of_ge (by simp [ipCsum, ipDst, ipSrc, ipProtocol, ipTtl, ipFlags, ipIdent, ipLength, dscpAndEcn,
    versionAndIhl, ethType, ethSrc, ethDst, kTypeIPv4]; omega)]

theorem fillICMP_of_ge (h : sizeofIPv4Packet ≤ o) : fillICMP p dstEth srcEth srcIp dstIp buf len o =
      if o < sizeofIPv4Packet + len.toNat then buf (o - sizeofIPv4Packet) else p o := by
  simp only [fillICMP, copyIn]
  refine if_congr ⟨fun h' => h'.2, fun h' => ⟨h, h'⟩⟩ rfl (fillIPv4_of_ge h)

theorem fillUDP_of_ge {srcPort sinPort : BitVec 16} (h : sizeofIPv4UDPPacket ≤ o) :
    fillUDP p dstEth srcEth srcIp dstIp srcPort sinPort buf len o =
      if o < sizeofIPv4UDPPacket + len.toNat then buf (o - sizeofIPv4UDPPacket) else p o := by
  have ho : 42 ≤ o := h
  simp only [fillUDP, setDataSize]
  rw [put_of_ge (by simp [udpCsum]; omega), put_of_ge (by simp [udpLength]; omega),
    put_of_ge (by simp [udpDstPort]; omega), put_of_ge (by simp [udpSrcPort]; omega), copyIn]
  refine if_congr ⟨fun h' => h'.2, fun h' => ⟨h, h'⟩⟩ rfl (fillIPv4_of_ge (by simp [sizeofIPv4Packet]; omega))

/-! ## The page of a descriptor -/

@[simp] theorem frameOf_withFrame (page : Nat → Byte) (p : Frame) : frameOf (withFrame page p) = p := by
  funext o
  simp [frameOf, withFrame]

@[simp] theorem frameOf_clearHeader (page : Nat → Byte) : frameOf (clearHeader page) = frameOf page := by
  funext o
  simp [frameOf, clearHeader]

/-- From the header on, a page is its frame. -/
theorem eq_frameOf (page : Nat → Byte) (h : sizeofPacketBufHeader ≤ o) :
    page o = frameOf page (o - sizeofPacketBufHeader) := by
  rw [frameOf, Nat.add_sub_cancel' h]

/-! ## One packet -/

/-- The size that is passed to `GetNextTXPacketBuf` for a payload of `len` bytes. -/
def packetSize : SocketType → Word → Word
  | .icmpRaw, len | .icmpDatagram, len => BitVec.ofNat 64 sizeofIPv4Packet + len
  | .udp, len => BitVec.ofNat 64 sizeofIPv4UDPPacket + roundEven len

/-- What `sys_sendto` returns for it. -/
def sentLen : SocketType → Word → Word
  | .icmpRaw, len | .icmpDatagram, len => len
  | .udp, len => roundEven len

/-- What it stores in the frame. -/
def fillPacket (sock : Socket) (net : Net) (buf : Nat → Byte) (len : Word) (destAddr : SockaddrIn) (dstEth : EtherAddr)
    (p : Frame) : Frame :=
  match sock.type with
  | .icmpRaw | .icmpDatagram => fillICMP p dstEth net.macAddr net.selfIp destAddr.sinAddr buf len
  | .udp => fillUDP p dstEth net.macAddr net.selfIp destAddr.sinAddr sock.listenPort destAddr.sinPort
      buf (roundEven len)

section

variable {sock : Socket} {buf : Nat → Byte} {len : Word} {destAddr : SockaddrIn} {dstEth : EtherAddr}

theorem sendtoResolved_eq : sendtoResolved sock buf len destAddr dstEth = do
    transmit (packetSize sock.type len) fun net => fillPacket sock net buf len destAddr dstEth
    return sentLen sock.type len := by
  unfold sendtoResolved fillPacket
  cases sock.type <;> rfl

/-- The size check of `GetNextTXPacketBuf`. -/
def fitsPage (size : Word) : Prop :=
  ((BitVec.ofNat 64 sizeofPacketBufHeader + size).setWidth 32).toNat < Virtio.kPageSize

/-- A driver that hands out the buffer of descriptor `txIdx` for a packet. -/
structure Ready (net : Net) (size : Word) : Prop where
  initialized : net.initialized = true
  fits : fitsPage size
  queue : 0 < net.txq.queueSize

variable {net : Net} {size r : Word} {f : Net → Frame → Frame} {s s' t : NetState} {o : Nat}

theorem Ready.txIdx_lt (h : Ready net size) : net.txIdx < net.txq.queueSize := mod_lt _ h.queue

/-- The queue with the packet in the buffer of its descriptor, as `SendPacket` hands it to the device. -/
def sentNet (net : Net) (size : Word) (f : Frame → Frame) : Net :=
  let page := (net.txq.desc net.txIdx).page
  { net with
    txCursor := net.txCursor + 1#16
    txq := ((net.txq.setDesc net.txIdx
      { page := clearHeader (withFrame page (f (frameOf page)))
        len := (BitVec.ofNat 64 sizeofPacketBufHeader + size).setWidth 32
        flags := 0#16
        next := 0#16 }).setRing net.txIdx (BitVec.ofNat 16 net.txIdx)).setIndex (net.txIdx + 1) }

theorem setDesc_setDesc (q : Virtqueue) (i : Nat) (d d' : Descriptor) :
    (q.setDesc i d).setDesc i d' = q.setDesc i d' := by
  simp [Virtqueue.setDesc]

theorem setDesc_desc (q : Virtqueue) (i : Nat) (d : Descriptor) : (q.setDesc i d).desc i = d := by
  simp [Virtqueue.setDesc]

section

variable (hf : ∀ net net' : Net, net.macAddr = net'.macAddr → net.selfIp = net'.selfIp → f net = f net')

include hf

/-- The steps of sending a packet, one after the other. -/
theorem sentNet_eq (s : NetState) : ({ s with
      net := (storeFrame (s.net.prepared size) s.net.txIdx (f (s.net.prepared size))).published } : NetState) =
      { s with net := sentNet s.net size (f s.net) } := by
  have hidx : (storeFrame (s.net.prepared size) s.net.txIdx (f (s.net.prepared size))).txIdx = s.net.txIdx := rfl
  rw [Net.published, hidx, hf (s.net.prepared size) s.net rfl rfl]
  simp only [storeFrame, setDesc_desc, setDesc_setDesc, sentNet]

/-- Sending one packet, whichever way it is filled. -/
theorem run_transmit_iff {u : Unit} :
    (transmit size f).run s = .ok u s' ↔ Ready s.net size ∧ s' = { s with net := sentNet s.net size (f s.net) } := by
  constructor
  · intro h
    obtain ⟨idx, t, ht, h⟩ := run_bind_ok h
    obtain ⟨net, hbuf, rfl⟩ := of_run_onNet ht
    obtain ⟨hinit, hfits, rfl, hidx, rfl⟩ := run_getNextTXPacketBuf_ok hbuf
    obtain ⟨_, t, hset, h⟩ := run_bind_ok h
    cases hset
    obtain ⟨_, t, hset, h⟩ := run_bind_ok h
    cases hset
    obtain ⟨net, hsend, rfl⟩ := of_run_onNet h
    obtain ⟨-, rfl⟩ := run_sendPacket_ok hsend
    exact ⟨⟨hinit, hfits, by omega⟩, sentNet_eq hf s⟩
  · rintro ⟨hready, rfl⟩
    rw [transmit, run_bind_eq (run_onNet_ok (run_getNextTXPacketBuf hready.initialized hready.fits hready.txIdx_lt)),
      ← sentNet_eq hf s]
    refine (run_get_bind).trans ?_
    refine (run_bind_eq (rfl : (modifyFrame _ _).run _ = .ok () _)).trans ?_
    exact run_onNet_ok (run_sendPacket (by exact hready.txIdx_lt))

end

/-- Everything a `sys_sendto` does that gets as far as the packet. -/
theorem run_sendtoResolved_iff : (sendtoResolved sock buf len destAddr dstEth).run t = .ok r s' ↔
    Ready t.net (packetSize sock.type len) ∧ r = sentLen sock.type len ∧
      s' = { t with
        net := sentNet t.net (packetSize sock.type len) (fillPacket sock t.net buf len destAddr dstEth) } := by
  have hf : ∀ net net' : Net, net.macAddr = net'.macAddr → net.selfIp = net'.selfIp →
      fillPacket sock net buf len destAddr dstEth = fillPacket sock net' buf len destAddr dstEth := by
    intro net net' hmac hip
    unfold fillPacket
    rw [hmac, hip]
  rw [sendtoResolved_eq]
  constructor
  · intro h
    obtain ⟨_, _, htx, h⟩ := run_bind_ok h
    obtain ⟨hready, rfl⟩ := (run_transmit_iff hf).1 htx
    obtain ⟨rfl, rfl⟩ := run_pure_ok h
    exact ⟨hready, rfl, rfl⟩
  · rintro ⟨hready, rfl, rfl⟩
    exact run_bind_eq ((run_transmit_iff (u := ()) hf).2 ⟨hready, rfl⟩)

variable {sleep : Nat → NetState → NetState} {pid : Word} {sockfd : Int}

theorem run_sysSendto (hsock : s.network.findSocket pid sockfd = some sock)
    (hres : (resolveIPv4WithTimeout sleep destAddr.sinAddr).run s = .ok (some dstEth) t) :
    (sysSendto sleep pid sockfd buf len destAddr).run s = (sendtoResolved sock buf len destAddr dstEth).run t := by
  rw [sysSendto, run_get_bind, hsock]
  exact run_bind_eq hres

/-! ## Where a call writes -/

/-- The headers before the payload. -/
def headerSize : SocketType → Nat
  | .icmpRaw | .icmpDatagram => sizeofIPv4Packet
  | .udp => sizeofIPv4UDPPacket

/-- The bytes from the start of the buffer to the end of the packet. -/
def bytesNeeded (type : SocketType) (len : Word) : Nat :=
  sizeofPacketBufHeader + headerSize type + (sentLen type len).toNat

theorem fitsPage_iff {type : SocketType} :
    fitsPage (packetSize type len) ↔ bytesNeeded type len % 2 ^ 32 < Virtio.kPageSize := by
  unfold fitsPage bytesNeeded
  cases type <;> simp only [packetSize, headerSize, sentLen, sizeofPacketBufHeader, sizeofIPv4Packet,
    sizeofIPv4UDPPacket, toNat_setWidth, toNat_add, toNat_ofNat] <;> omega

theorem fillPacket_of_ge {p : Frame} (h : headerSize sock.type ≤ o) : fillPacket sock net buf len destAddr dstEth p o =
      if o < headerSize sock.type + (sentLen sock.type len).toNat then buf (o - headerSize sock.type) else p o := by
  unfold fillPacket
  cases htype : sock.type <;> rw [htype] at h
  · exact fillICMP_of_ge h
  · exact fillICMP_of_ge h
  · exact fillUDP_of_ge h

theorem sentNet_desc {f : Frame → Frame} (i : Nat) : ((sentNet net size f).txq.desc i).page =
    if i = net.txIdx then clearHeader (withFrame (net.txq.desc net.txIdx).page
      (f (frameOf (net.txq.desc net.txIdx).page))) else (net.txq.desc i).page := by
  show (update net.txq.desc net.txIdx _ i).page = _
  split_ifs with h
  · rw [h, update_self]
  · rw [update_of_ne h]

/-- The frame that is sent. -/
theorem frameOf_sentNet {f : Frame → Frame} :
    frameOf ((sentNet net size f).txq.desc net.txIdx).page = f (frameOf (net.txq.desc net.txIdx).page) := by
  rw [sentNet_desc, if_pos rfl, frameOf_clearHeader, frameOf_withFrame]

/-- Behind the end of its page a packet has written its payload and nothing else. -/
theorem page_sentNet_of_ge (h : Virtio.kPageSize ≤ o) :
    ((sentNet net size (fillPacket sock net buf len destAddr dstEth)).txq.desc net.txIdx).page o =
      if o < bytesNeeded sock.type len then buf (o - sizeofPacketBufHeader - headerSize sock.type)
      else (net.txq.desc net.txIdx).page o := by
  have ho : 4096 ≤ o := h
  have hhead : headerSize sock.type ≤ 42 := by cases sock.type <;> decide
  have hbuf : sizeofPacketBufHeader = 10 := rfl
  refine (eq_frameOf _ (by omega)).trans ?_
  rw [frameOf_sentNet, fillPacket_of_ge (by omega)]
  refine if_congr ?_ rfl (eq_frameOf _ (by omega)).symm
  unfold bytesNeeded
  omega

/-- A call that gets as far as the packet writes only to the page of the descriptor it selected, whatever it
sends. -/
def StaysInside (sleep : Nat → NetState → NetState) (pid : Word) (sockfd : Int) (len : Word) (destAddr : SockaddrIn)
    (s : NetState) : Prop :=
  ∀ buf sock dstEth t r s', s.network.findSocket pid sockfd = some sock →
    (resolveIPv4WithTimeout sleep destAddr.sinAddr).run s = .ok (some dstEth) t →
    (sysSendto sleep pid sockfd buf len destAddr).run s = .ok r s' →
    ∀ i o, i ≠ t.net.txIdx ∨ Virtio.kPageSize ≤ o → (s'.net.txq.desc i).page o = (t.net.txq.desc i).page o

/-- The size check sees the size of the packet: nothing is lost when it is narrowed to 32 bits, or what is left of
it is too large as well. -/
def SizeChecked (type : SocketType) (len : Word) : Prop :=
  bytesNeeded type len < 2 ^ 32 ∨ Virtio.kPageSize ≤ bytesNeeded type len % 2 ^ 32

theorem page_of_sizeChecked (hlen : SizeChecked sock.type len)
    (h : (sendtoResolved sock buf len destAddr dstEth).run t = .ok r s') (i o : Nat)
    (hio : i ≠ t.net.txIdx ∨ Virtio.kPageSize ≤ o) : (s'.net.txq.desc i).page o = (t.net.txq.desc i).page o := by
  obtain ⟨hready, -, rfl⟩ := run_sendtoResolved_iff.1 h
  have hfits := fitsPage_iff.1 hready.fits
  by_cases hi : i = t.net.txIdx
  · have ho : Virtio.kPageSize ≤ o := hio.resolve_left (not_not.2 hi)
    rw [hi]
    refine (page_sentNet_of_ge ho).trans (if_neg ?_)
    rcases hlen with hlen | hlen
    · omega
    · omega
  · exact congrFun ((sentNet_desc i).trans (if_neg hi)) o

/-- Otherwise there is a payload with a byte that ends up right behind the page. -/
theorem exists_outside (hlen : ¬SizeChecked sock.type len) (hinit : t.net.initialized = true)
    (hqueue : 0 < t.net.txq.queueSize) :
    ∃ buf r s', (sendtoResolved sock buf len destAddr dstEth).run t = .ok r s' ∧
      (s'.net.txq.desc t.net.txIdx).page Virtio.kPageSize ≠ (t.net.txq.desc t.net.txIdx).page Virtio.kPageSize := by
  rw [SizeChecked, not_or] at hlen
  have hpage : Virtio.kPageSize = 4096 := rfl
  refine ⟨fun _ => ~~~(t.net.txq.desc t.net.txIdx).page Virtio.kPageSize, _, _,
    run_sendtoResolved_iff.2 ⟨⟨hinit, fitsPage_iff.2 (by omega), hqueue⟩, rfl, rfl⟩, ?_⟩
  rw [page_sentNet_of_ge (le_refl _), if_pos (by omega)]
  have hne : ∀ x : Byte, ~~~x ≠ x := by decide
  exact hne _

/-- A call stays inside its buffer exactly if its size check sees the size of the packet, or if it does not get as
far as filling one. -/
theorem sendto_staysInside_iff (sleep : Nat → NetState → NetState) (pid : Word) (sockfd : Int) (len : Word)
    (destAddr : SockaddrIn) (s : NetState) :
    StaysInside sleep pid sockfd len destAddr s ↔ ∀ sock dstEth t, s.network.findSocket pid sockfd = some sock →
      (resolveIPv4WithTimeout sleep destAddr.sinAddr).run s = .ok (some dstEth) t →
      t.net.initialized = true → 0 < t.net.txq.queueSize → SizeChecked sock.type len := by
  constructor
  · intro hinside sock dstEth t hsock hres hinit hqueue
    by_contra hlen
    obtain ⟨buf, r, s', hrun, hne⟩ : ∃ buf r s', (sendtoResolved sock buf len destAddr dstEth).run t = .ok r s' ∧ _ :=
      exists_outside hlen hinit hqueue
    exact hne (hinside buf sock dstEth t r s' hsock hres ((run_sysSendto hsock hres).trans hrun) _ _
      (Or.inr (le_refl _)))
  · intro h buf sock dstEth t r s' hsock hres hrun
    rw [run_sysSendto hsock hres] at hrun
    obtain ⟨hready, -, -⟩ := run_sendtoResolved_iff.1 hrun
    exact page_of_sizeChecked (h sock dstEth t hsock hres hready.initialized hready.queue) hrun

end

def udpSocket : Socket := ⟨2#64, 3, 12345#16, .udp⟩

/-- A machine with sockets, one transmit buffer, and the address of its gateway. -/
def oneBuffer (sockets : List Socket) (page : Nat → Byte) : NetState where
  net := {
    initialized := true
    macAddr := ⟨0x52#8, 0x54#8, 0#8, 0x12#8, 0x34#8, 0x56#8⟩
    selfIp := ⟨10#8, 0#8, 2#8, 15#8⟩
    rxq := ⟨1, fun _ => ⟨fun _ => 0#8, 4096#32, 2#16, 0#16⟩, fun _ => 0#16, 1#16, fun _ => 0#32⟩
    txq := ⟨1, fun _ => ⟨page, 4096#32, 0#16, 0#16⟩, fun _ => 0#16, 0#16, fun _ => 0#32⟩
    rxCursor := 0#16
    txCursor := 0#16 }
  network := {
    arpTable := fun ip => if ip = ⟨10#8, 0#8, 2#8, 2#8⟩ then some ⟨0x52#8, 0x55#8, 10#8, 0#8, 2#8, 2#8⟩ else none
    rxBuffer := ⟨fun _ => ⟨0, fun _ => 0#8⟩, 0, 0⟩
    sockets := sockets
    gateway := ⟨10#8, 0#8, 2#8, 2#8⟩
    netmask := ⟨255#8, 255#8, 255#8, 0#8⟩ }

/-- The gateway, port 80. -/
def toGateway : SockaddrIn := ⟨0x5000#16, ⟨10#8, 0#8, 2#8, 2#8⟩⟩

abbrev emptyBuffer : NetState := oneBuffer [udpSocket] fun _ => 0#8

theorem findSocket_oneBuffer (page : Nat → Byte) :
    (oneBuffer [udpSocket] page).network.findSocket 2#64 3 = some udpSocket := rfl

theorem run_resolve_toGateway (sockets : List Socket) (page : Nat → Byte) (sleep : Nat → NetState → NetState) :
    (resolveIPv4WithTimeout sleep toGateway.sinAddr).run (oneBuffer sockets page) =
      .ok (some ⟨0x52#8, 0x55#8, 10#8, 0#8, 2#8, 2#8⟩) (oneBuffer sockets page) :=
  run_resolve_of_known (by simp [oneBuffer, toGateway, isInSameSubnet])

/-- A payload of 4 GiB passes the check as if it were empty. -/
theorem sendto_outside : ¬StaysInside (fun _ s => s) 2#64 3 0x100000000#64 toGateway emptyBuffer := by
  intro hinside
  have hlen : ¬SizeChecked udpSocket.type 0x100000000#64 := by simp only [SizeChecked]; decide
  obtain ⟨buf, r, s', hrun, hne⟩ := exists_outside (t := emptyBuffer) hlen rfl one_pos
  exact hne (hinside buf _ _ _ r s' (findSocket_oneBuffer _) (run_resolve_toGateway _ _ _)
    ((run_sysSendto (findSocket_oneBuffer _) (run_resolve_toGateway _ _ _)).trans hrun) _ _ (Or.inr (le_refl _)))

/-! ## The checksum of a datagram -/

/-- The words that the checksum of the datagram in a frame covers: the pseudo header, the header, and `len` bytes
of data. -/
def datagramWords (p : Frame) (len : Nat) : List Nat :=
  [word p ipSrc, word p (ipSrc + 2), word p ipDst, word p (ipDst + 2), word p udpLength, kUDP.toNat] ++
    (List.range (numOfWords udpSrcPort (sizeofIPv4UDPPacket + len))).map fun k => word p (udpSrcPort + 2 * k)

def ValidChecksum (p : Frame) (len : Nat) : Prop := OnesComplement.sum 65536 (datagramWords p len) = 0xFFFF

theorem word_lt (p : Frame) (i : Nat) : word p i < 65536 := by
  unfold word
  omega

theorem word_congr {q : Frame} (h1 : p i = q i) (h2 : p (i + 1) = q (i + 1)) : word p i = word q i := by
  rw [word, word, h1, h2]

theorem word_put_of_ne (hl : l.length = 2) (h : i + 2 ≤ off ∨ off + 2 ≤ i) : word (put p off l) i = word p i := by
  rcases h with h | h
  · exact word_congr (put_of_lt (by omega)) (put_of_lt (by omega))
  · exact word_congr (put_of_ge (by omega)) (put_of_ge (by omega))

/-- A number that was put in network order. -/
theorem word_put_be16 (p : Frame) (off : Nat) (x : BitVec 16) : word (put p off (be16 x)) off = x.toNat := by
  have h0 : put p off (be16 x) off = (x >>> 8).setWidth 8 := put_add (i := 0) (by simp)
  have h1 : put p off (be16 x) (off + 1) = x.setWidth 8 := put_add (i := 1) (by simp)
  rw [word, h0, h1, toNat_setWidth, toNat_setWidth, BitVec.toNat_ushiftRight, shiftRight_eq_div_pow]
  omega

theorem sumLoop_eq (p : Frame) : ∀ (n i sum : Nat), sum < 2 ^ 32 →
    sumLoop p n i sum = (sum + ((range n).map fun k => word p (i + 2 * k)).sum) % 2 ^ 32
  | 0, i, sum, h => by rw [sumLoop, range_zero, map_nil, sum_nil, add_zero, mod_eq_of_lt h]
  | n + 1, i, sum, h => by
    have hshift : (range n).map (fun k => word p (i + 2 + 2 * k)) =
      (range n).map ((fun k => word p (i + 2 * k)) ∘ succ) :=
      map_congr_left fun k _ => by rw [comp_apply, show i + 2 + 2 * k = i + 2 * k.succ by omega]
    rw [sumLoop, sumLoop_eq p n _ _ (mod_lt _ (by norm_num)), mod_add_mod, hshift, range_succ_eq_map, map_cons,
      map_map, sum_cons, mul_zero, add_zero, add_assoc]

/-- Two sums that differ in one summand. -/
theorem sum_range_replace {f g : Nat → Nat} {n k : Nat} (hk : k < n) (h : ∀ i ≠ k, g i = f i) :
    ∃ rest, ((range n).map f).sum = rest + f k ∧ ((range n).map g).sum = rest + g k := by
  have hmem : k ∈ Finset.range n := Finset.mem_range.2 hk
  have hlist : ∀ u : Nat → Nat, ((range n).map u).sum = ∑ i ∈ Finset.range n, u i := fun u => rfl
  refine ⟨∑ i ∈ (Finset.range n).erase k, f i, ?_, ?_⟩
  · rw [hlist, Finset.sum_erase_add _ _ hmem]
  · rw [hlist, ← Finset.sum_erase_add _ _ hmem]
    exact congrArg (· + g k) (Finset.sum_congr rfl fun i hi => h i (Finset.ne_of_mem_erase hi))

section

variable {p : Frame} {len : Nat}

/-- The sum of the pseudo header. -/
def pseudoSum (p : Frame) : Nat :=
  addrSum (readAddr p ipSrc) + addrSum (readAddr p ipDst) + (readBe16 p udpLength).toNat + 17

theorem addrSum_src (p : Frame) : addrSum (readAddr p ipSrc) = word p ipSrc + word p (ipSrc + 2) := rfl
theorem addrSum_dst (p : Frame) : addrSum (readAddr p ipDst) = word p ipDst + word p (ipDst + 2) := rfl

theorem toNat_readBe16 (p : Frame) (off : Nat) : (readBe16 p off).toNat = word p off := by
  rw [readBe16, word, BitVec.toNat_append, shiftLeft_eq]
  have h := (p (off + 1)).isLt
  rw [← shiftLeft_eq, ← shiftLeft_add_eq_or_of_lt h, shiftLeft_eq]

theorem sum_datagramWords (p : Frame) (len : Nat) : (datagramWords p len).sum =
    pseudoSum p + ((range (numOfWords udpSrcPort (sizeofIPv4UDPPacket + len))).map fun k =>
      word p (udpSrcPort + 2 * k)).sum := by
  rw [datagramWords, List.sum_append, pseudoSum, toNat_readBe16, addrSum_src, addrSum_dst]
  refine congrArg (· + _) ?_
  simp only [sum_cons, sum_nil, show kUDP.toNat = 17 from rfl]
  omega

theorem pseudoSum_le (p : Frame) : pseudoSum p ≤ 6 * 65535 := by
  have h1 := word_lt p ipSrc
  have h2 := word_lt p (ipSrc + 2)
  have h3 := word_lt p ipDst
  have h4 := word_lt p (ipDst + 2)
  rw [pseudoSum, addrSum_src, addrSum_dst]
  omega

/-- The checksum that `CalcUDPChecksum` computes, with whatever the frame holds in its place. -/
theorem calcUDPChecksum_eq (p : Frame) (len : Nat) :
    calcUDPChecksum p udpSrcPort (sizeofIPv4UDPPacket + len) (readAddr p ipSrc) (readAddr p ipDst)
      (readBe16 p udpLength) = finishChecksum ((datagramWords p len).sum % 2 ^ 32) := by
  rw [calcUDPChecksum, ← pseudoSum, sumLoop_eq _ _ _ _ ((pseudoSum_le p).trans_lt (by norm_num)), sum_datagramWords]

theorem validChecksum_iff : ValidChecksum p len ↔ 65535 ∣ (datagramWords p len).sum := by
  refine OnesComplement.sum_eq_top (b := 65536) (by norm_num) ?_ ?_
  · intro x hx
    simp only [datagramWords, mem_append, mem_cons, not_mem_nil, or_false, mem_map] at hx
    rcases hx with (rfl | rfl | rfl | rfl | rfl | rfl) | ⟨_, -, rfl⟩
    all_goals first | exact word_lt _ _ | decide
  · rw [sum_datagramWords, pseudoSum]
    omega

/-- With the checksum in place a datagram is valid exactly if what stood there before counted as the carries that
the 32-bit sum lost. -/
theorem validChecksum_put_iff (p : Frame) (len : Nat) :
    ValidChecksum (put p udpCsum (finishChecksum ((datagramWords p len).sum % 2 ^ 32))) len ↔
      word p udpCsum ≡ (datagramWords p len).sum / 2 ^ 32 [MOD 65535] := by
  let q := put p udpCsum (finishChecksum ((datagramWords p len).sum % 2 ^ 32))
  have hother : ∀ i, i + 2 ≤ 40 ∨ 42 ≤ i → word q i = word p i := fun i hi => word_put_of_ne rfl hi
  have hpseudo : pseudoSum q = pseudoSum p := by
    unfold pseudoSum
    rw [toNat_readBe16, toNat_readBe16, addrSum_src, addrSum_src, addrSum_dst, addrSum_dst]
    simp (disch := decide) only [hother]
  obtain ⟨rest, hp, hq⟩ := sum_range_replace (f := fun k => word p (udpSrcPort + 2 * k))
    (g := fun k => word q (udpSrcPort + 2 * k))
    (n := numOfWords udpSrcPort (sizeofIPv4UDPPacket + len)) (k := 3)
    (by simp only [numOfWords, udpSrcPort, sizeofIPv4UDPPacket]; omega)
    (fun i hi => hother _ (by simp only [udpSrcPort]; omega))
  have hsum : (datagramWords p len).sum = pseudoSum p + rest + word p udpCsum := by
    rw [sum_datagramWords, hp, add_assoc]
    rfl
  have hlt : OnesComplement.fold 65536 2 ((datagramWords p len).sum % 2 ^ 32) < 65536 :=
    OnesComplement.fold_lt (by norm_num) (mod_lt _ (by norm_num))
  have hcsum : word q udpCsum = 65535 - OnesComplement.fold 65536 2 ((datagramWords p len).sum % 2 ^ 32) := by
    rw [show q = put p udpCsum (be16 _) from rfl, word_put_be16, BitVec.toNat_not, toNat_ofNat, mod_eq_of_lt hlt]
  rw [validChecksum_iff, sum_datagramWords, hq, hpseudo, ← add_assoc,
    show udpSrcPort + 2 * 3 = udpCsum from rfl, hcsum, hsum]
  exact OnesComplement.dvd_complement (b := 65536) (by norm_num)

variable {dstEth srcEth : EtherAddr} {srcIp dstIp : IPv4Addr} {srcPort sinPort : BitVec 16} {buf : Nat → Byte}

/-- A UDP packet up to its checksum. The bytes of the checksum are those of the frame that was there before. -/
theorem exists_fillUDP {len : Word} (hlen : sizeofIPv4UDPPacket + len.toNat < 2 ^ 64) (p : Frame) :
    ∃ p0 : Frame, p0 udpCsum = p udpCsum ∧ p0 (udpCsum + 1) = p (udpCsum + 1) ∧
      fillUDP p dstEth srcEth srcIp dstIp srcPort sinPort buf len =
        put p0 udpCsum (finishChecksum ((datagramWords p0 len.toNat).sum % 2 ^ 32)) := by
  have hstop : (ofNat 64 sizeofIPv4UDPPacket + len).toNat = sizeofIPv4UDPPacket + len.toNat := by
    rw [toNat_add, toNat_ofNat]
    omega
  have hbytes : ∀ {q : Frame} {o : Nat}, 40 ≤ o → o < 42 →
      setDataSize (put (put (copyIn q sizeofIPv4UDPPacket len.toNat buf) udpSrcPort (be16 srcPort)) udpDstPort
        (le16 sinPort)) (len.setWidth 16) o = q o := by
    intro q o h1 h2
    rw [setDataSize, put_of_ge (by simp [udpLength]; omega), put_of_ge (by simp [udpDstPort]; omega),
      put_of_ge (by simp [udpSrcPort]; omega), copyIn, if_neg (by simp [sizeofIPv4UDPPacket]; omega)]
  refine ⟨setDataSize (put (put (copyIn (fillIPv4 p dstEth srcEth
      ((ofNat 64 sizeofIPv4UDPPacket + len - ofNat 64 sizeofIPv4Packet).setWidth 16) kUDP srcIp dstIp)
      sizeofIPv4UDPPacket len.toNat buf) udpSrcPort (be16 srcPort)) udpDstPort (le16 sinPort))
      (len.setWidth 16), ?_, ?_, ?_⟩
  · exact (hbytes (le_refl _) (by decide)).trans (fillIPv4_of_ge (by decide))
  · exact (hbytes (by decide) (by decide)).trans (fillIPv4_of_ge (by decide))
  · rw [fillUDP, hstop, calcUDPChecksum_eq]

/-- Putting back what stood somewhere. -/
theorem put_put_self (p : Frame) (off : Nat) {l : List Byte} (hl : l.length = 2) :
    put (put p off l) off [p off, p (off + 1)] = p := by
  funext o
  rcases lt_or_ge o off with h | h
  · rw [put_of_lt h, put_of_lt h]
  · rcases lt_or_ge o (off + 2) with h' | h'
    · obtain rfl | rfl : o = off ∨ o = off + 1 := by omega
      · exact put_add (i := 0) (by simp)
      · exact put_add (i := 1) (by simp)
    · rw [put_of_ge (by simp; omega), put_of_ge (by omega)]

/-- The carries that a 32-bit sum of the datagram loses, with the bytes that stood in place of its checksum before. -/
def lostCarries (before sent : Frame) (len : Nat) : Nat :=
  (datagramWords (put sent udpCsum [before udpCsum, before (udpCsum + 1)]) len).sum / 2 ^ 32

theorem sum_words_le (p : Frame) (start n : Nat) : ((range n).map fun k => word p (start + 2 * k)).sum ≤ n * 65535 := by
  refine (sum_le_card_nsmul _ 65535 ?_).trans ?_
  · intro x hx
    obtain ⟨_, -, rfl⟩ := mem_map.1 hx
    exact le_of_lt_succ (word_lt p _)
  · simp

theorem sum_datagramWords_lt (p : Frame) (h : len < 4096) : (datagramWords p len).sum < 2 ^ 32 := by
  have hwords := sum_words_le p udpSrcPort (numOfWords udpSrcPort (sizeofIPv4UDPPacket + len))
  have hnum : numOfWords udpSrcPort (sizeofIPv4UDPPacket + len) ≤ 2052 := by
    simp only [numOfWords, udpSrcPort, sizeofIPv4UDPPacket]
    omega
  have hpseudo := pseudoSum_le p
  rw [sum_datagramWords]
  omega

/-- The checksum of the packet that `fillUDP` makes of a frame. -/
theorem fillUDP_validChecksum_iff {len : Word} (hlen : sizeofIPv4UDPPacket + len.toNat < 2 ^ 64) (before : Frame) :
    let sent := fillUDP before dstEth srcEth srcIp dstIp srcPort sinPort buf len
    ValidChecksum sent len.toNat ↔ word before udpCsum ≡ lostCarries before sent len.toNat [MOD 65535] := by
  intro sent
  obtain ⟨p0, h0, h1, hsent⟩ : ∃ p0 : Frame, p0 udpCsum = before udpCsum ∧
      p0 (udpCsum + 1) = before (udpCsum + 1) ∧ sent = _ :=
    exists_fillUDP hlen before
  have hback : put sent udpCsum [before udpCsum, before (udpCsum + 1)] = p0 := by
    rw [hsent, ← h0, ← h1]
    exact put_put_self _ _ rfl
  rw [lostCarries, hback, hsent, validChecksum_put_iff, word_congr h0 h1]

/-- A word counts as zero if it is zero or all ones. -/
theorem word_modEq_zero_iff (p : Frame) (i : Nat) : word p i ≡ 0 [MOD 65535] ↔ word p i = 0 ∨ word p i = 0xFFFF := by
  have h := word_lt p i
  rw [modEq_zero_iff_dvd]
  constructor
  · rintro ⟨k, hk⟩
    omega
  · rintro (hz | hz)
    · exact hz ▸ dvd_zero _
    · exact hz ▸ dvd_refl _

/-- The checksum of a datagram that was sent is valid exactly if what its buffer held in the place of the checksum
counts as the carries that were lost, which are none as long as the packet fits a page. -/
theorem sendto_validChecksum_iff {sleep : Nat → NetState → NetState} {pid : Word} {sockfd : Int} {buf : Nat → Byte}
    {len : Word} {destAddr : SockaddrIn} {s t s' : NetState} {sock : Socket} {dstEth : EtherAddr} {r : Word}
    (hsock : s.network.findSocket pid sockfd = some sock) (hudp : sock.type = .udp)
    (hres : (resolveIPv4WithTimeout sleep destAddr.sinAddr).run s = .ok (some dstEth) t)
    (hrun : (sysSendto sleep pid sockfd buf len destAddr).run s = .ok r s')
    (hlen : sizeofIPv4UDPPacket + (roundEven len).toNat < 2 ^ 64) :
    let before := frameOf (t.net.txq.desc t.net.txIdx).page
    let sent := frameOf (s'.net.txq.desc t.net.txIdx).page
    (ValidChecksum sent (roundEven len).toNat ↔
      word before udpCsum ≡ lostCarries before sent (roundEven len).toNat [MOD 65535]) ∧
    (bytesNeeded .udp len < Virtio.kPageSize →
      (ValidChecksum sent (roundEven len).toNat ↔ word before udpCsum = 0 ∨ word before udpCsum = 0xFFFF)) := by
  intro before sent
  rw [run_sysSendto hsock hres] at hrun
  obtain ⟨-, -, rfl⟩ := run_sendtoResolved_iff.1 hrun
  have hsent : sent = fillUDP before dstEth t.net.macAddr t.net.selfIp destAddr.sinAddr sock.listenPort destAddr.sinPort
      buf (roundEven len) := by
    refine frameOf_sentNet.trans ?_
    unfold fillPacket
    rw [hudp]
  have hvalid : ValidChecksum sent (roundEven len).toNat ↔
      word before udpCsum ≡ lostCarries before sent (roundEven len).toNat [MOD 65535] := by
    rw [hsent]
    exact fillUDP_validChecksum_iff hlen before
  refine ⟨hvalid, fun hfits => ?_⟩
  have hsmall : (roundEven len).toNat < 4096 := lt_of_le_of_lt (le_add_left _ _) hfits
  rw [hvalid, lostCarries, div_eq_of_lt (sum_datagramWords_lt _ hsmall), word_modEq_zero_iff]

end

/-- The frame of a datagram with two bytes for the gateway. -/
def toGatewayFrame (before : Frame) : Frame :=
  fillUDP before ⟨0x52#8, 0x55#8, 10#8, 0#8, 2#8, 2#8⟩ ⟨0x52#8, 0x54#8, 0#8, 0x12#8, 0x34#8, 0x56#8⟩
    ⟨10#8, 0#8, 2#8, 15#8⟩
    toGateway.sinAddr 12345#16 toGateway.sinPort (fun _ => 0#8) (roundEven 2#64)

theorem run_sendto_oneBuffer (page : Nat → Byte) :
    ∃ s', (sysSendto (fun _ s => s) 2#64 3 (fun _ => 0#8) 2#64 toGateway).run (oneBuffer [udpSocket] page) =
      .ok 2#64 s' ∧ frameOf (s'.net.txq.desc 0).page = toGatewayFrame (frameOf page) := by
  rw [run_sysSendto (findSocket_oneBuffer page) (run_resolve_toGateway _ page _)]
  exact ⟨_, run_sendtoResolved_iff.2 ⟨⟨rfl, fitsPage_iff.2 (by decide), one_pos⟩, by decide, rfl⟩, frameOf_sentNet⟩

/-- From a buffer in which nothing was sent yet. -/
theorem sendto_validChecksum_fresh :
    ∃ r s', (sysSendto (fun _ s => s) 2#64 3 (fun _ => 0#8) 2#64 toGateway).run emptyBuffer = .ok r s' ∧
      ValidChecksum (frameOf (s'.net.txq.desc 0).page) 2 := by
  obtain ⟨s', hrun, -⟩ := run_sendto_oneBuffer fun _ => 0#8
  refine ⟨_, s', hrun, ?_⟩
  exact ((sendto_validChecksum_iff (findSocket_oneBuffer _) rfl (run_resolve_toGateway _ _ _) hrun (by decide)).2
    (by decide)).2 (Or.inl (by decide))

/-- From a buffer that holds a checksum of 1. -/
theorem stale_checksum : ∃ r s', (sysSendto (fun _ s => s) 2#64 3 (fun _ => 0#8) 2#64 toGateway).run
        (oneBuffer [udpSocket] fun o => if o = 51 then 1#8 else 0#8) = .ok r s' ∧
      ¬ValidChecksum (frameOf (s'.net.txq.desc 0).page) 2 := by
  obtain ⟨s', hrun, hsent⟩ := run_sendto_oneBuffer fun o => if o = 51 then 1#8 else 0#8
  refine ⟨_, s', hrun, fun hvalid => ?_⟩
  rw [hsent] at hvalid
  have hlen : sizeofIPv4UDPPacket + (roundEven 2#64).toNat < 2 ^ 64 := by decide
  have hzero := (fillUDP_validChecksum_iff hlen _).1 hvalid
  exact absurd hzero (by decide)

end Liumos.Inet
