/-
The driver of the network device: a transmit and a receive queue of descriptors, each with a page of
memory, and the rings through which driver and device hand them to each other.
Sources: virtio_net.h, virtio_net.cc. `vq_size_` and `queue_size_` are the same number. A page is a
function of the offset, which goes on after the end of the page: what is stored at offset 4096 and beyond
lies outside. Port writes that notify the device are left out.
-/
import Liumos.Machine.Basic

namespace Liumos.Virtio

open BitVec (ofNat)

abbrev Byte := BitVec 8

/-- `kPageSize`, the size of the buffer of a descriptor. -/
def kPageSize : Nat := 4096

/-- `sizeof(PacketBufHeader)`. -/
def sizeofPacketBufHeader : Nat := 10

/-- The fields of a descriptor, and the page its address points to. -/
structure Descriptor where
  page : Nat → Byte
  len : BitVec 32
  flags : BitVec 16
  next : BitVec 16

/-- A queue: its descriptors, the available ring with the published index, and the lengths in the used
ring. -/
structure Virtqueue where
  queueSize : Nat
  desc : Nat → Descriptor
  ring : Nat → BitVec 16
  index : BitVec 16
  usedLen : Nat → BitVec 32

namespace Virtqueue

def setDesc (q : Virtqueue) (idx : Nat) (d : Descriptor) : Virtqueue := { q with desc := Function.update q.desc idx d }

/-- `SetAvailableRingEntry` without its assert. -/
def setRing (q : Virtqueue) (idx : Nat) (descIdx : BitVec 16) : Virtqueue :=
  { q with ring := Function.update q.ring idx descIdx }

/-- `SetAvailableRingIndex`. -/
def setIndex (q : Virtqueue) (idx : Int) : Virtqueue := { q with index := BitVec.ofInt 16 idx }

end Virtqueue

structure IPv4Addr where
  a : Byte
  b : Byte
  c : Byte
  d : Byte
  deriving DecidableEq, Repr

def IPv4Addr.toList (x : IPv4Addr) : List Byte := [x.a, x.b, x.c, x.d]

structure EtherAddr where
  m0 : Byte
  m1 : Byte
  m2 : Byte
  m3 : Byte
  m4 : Byte
  m5 : Byte
  deriving DecidableEq, Repr

def EtherAddr.toList (x : EtherAddr) : List Byte := [x.m0, x.m1, x.m2, x.m3, x.m4, x.m5]

/-- `Virtio::Net`. -/
structure Net where
  initialized : Bool
  macAddr : EtherAddr
  selfIp : IPv4Addr
  rxq : Virtqueue
  txq : Virtqueue
  rxCursor : BitVec 16
  txCursor : BitVec 16

/-! ## Transmitting -/

/-- What the accesses to descriptor `idx` of a queue assert. -/
def assertIdx {σ : Type} (q : Virtqueue) (idx : Nat) : KM σ Unit :=
  assert (decide (idx < q.queueSize)) "0 <= idx && idx < queue_size_"

/-- The descriptor at `vq_cursor_[kIndexOfTXVirtqueue]`. -/
def Net.txIdx (net : Net) : Nat := net.txCursor.toNat % net.txq.queueSize

/-- `GetNextTXPacketBuf(size)`. The packet starts after the header of the buffer that is returned. The size is
narrowed to 32 bits before it is checked. -/
def getNextTXPacketBuf (size : Word) : KM Net Nat := do
  let net ← get
  if !net.initialized then throw (.message "Virtio::Net not initialized yet")
  else
    let bufSize := (BitVec.ofNat 64 sizeofPacketBufHeader + size).setWidth 32
    assert (decide (bufSize.toNat < kPageSize)) "buf_size < kPageSize"
    let idx := net.txIdx
    assertIdx net.txq idx
    set { net with txq := net.txq.setDesc idx { net.txq.desc idx with len := bufSize, flags := 0#16, next := 0#16 } }
    return idx

/-- The page with its first ten bytes, the `PacketBufHeader`, set to zero. -/
def clearHeader (page : Nat → Byte) : Nat → Byte := fun o => if o < sizeofPacketBufHeader then 0#8 else page o

/-- `SendPacket()`. The index it publishes is that of the ring entry plus one. -/
def sendPacket : KM Net Unit := do
  let net ← get
  let idx := net.txIdx
  assertIdx net.txq idx
  let txq := net.txq.setDesc idx { net.txq.desc idx with page := clearHeader (net.txq.desc idx).page }
  let txq := txq.setRing idx (BitVec.ofNat 16 idx)
  set { net with txCursor := net.txCursor + 1#16, txq := txq.setIndex (idx + 1) }

/-- With the descriptor at the cursor set up for a packet. -/
abbrev Net.prepared (net : Net) (size : Word) : Net :=
  { net with txq := net.txq.setDesc net.txIdx { net.txq.desc net.txIdx with
    len := (ofNat 64 sizeofPacketBufHeader + size).setWidth 32, flags := 0#16, next := 0#16 } }

/-- With the packet of that descriptor handed to the device. -/
abbrev Net.published (net : Net) : Net :=
  { net with
    txCursor := net.txCursor + 1#16
    txq := ((net.txq.setDesc net.txIdx
      { net.txq.desc net.txIdx with page := clearHeader (net.txq.desc net.txIdx).page }).setRing net.txIdx
        (ofNat 16 net.txIdx)).setIndex (net.txIdx + 1) }

variable {size : Word} {net net' : Net}

/-- What a `GetNextTXPacketBuf` that returns has done. -/
theorem run_getNextTXPacketBuf_ok {idx : Nat} (h : (getNextTXPacketBuf size).run net = .ok idx net') :
    net.initialized = true ∧ ((ofNat 64 sizeofPacketBufHeader + size).setWidth 32).toNat < kPageSize ∧
      idx = net.txIdx ∧ idx < net.txq.queueSize ∧ net' = net.prepared size := by
  rw [getNextTXPacketBuf, run_get_bind] at h
  cases hinit : net.initialized with
  | false =>
    rw [hinit] at h
    cases h
  | true =>
    rw [hinit] at h
    obtain ⟨hsize, h⟩ := of_run_assert_bind h
    obtain ⟨hidx, h⟩ := of_run_assert_bind h
    cases h
    exact ⟨rfl, of_decide_eq_true hsize, rfl, of_decide_eq_true hidx, by rw [Net.prepared, hinit]⟩

/-- When `GetNextTXPacketBuf` passes its checks. -/
theorem run_getNextTXPacketBuf (hinit : net.initialized = true)
    (hsize : ((ofNat 64 sizeofPacketBufHeader + size).setWidth 32).toNat < kPageSize)
    (hidx : net.txIdx < net.txq.queueSize) : (getNextTXPacketBuf size).run net = .ok net.txIdx (net.prepared size) := by
  have hassert : (assertIdx net.txq net.txIdx : KM Net Unit).run net = .ok () net :=
    run_assert_true (decide_eq_true hidx) _ _
  rw [getNextTXPacketBuf, run_get_bind, if_neg (by simp [hinit])]
  exact (run_bind_eq (run_assert_true (decide_eq_true hsize) _ _)).trans (run_bind_eq hassert)

/-- When `SendPacket` passes its check. -/
theorem run_sendPacket (hidx : net.txIdx < net.txq.queueSize) : sendPacket.run net = .ok () net.published := by
  have hassert : (assertIdx net.txq net.txIdx : KM Net Unit).run net = .ok () net :=
    run_assert_true (decide_eq_true hidx) _ _
  rw [sendPacket, run_get_bind]
  exact run_bind_eq hassert

/-- What a `SendPacket` that returns has done. -/
theorem run_sendPacket_ok {u : Unit} (h : sendPacket.run net = .ok u net') :
    net.txIdx < net.txq.queueSize ∧ net' = net.published := by
  rw [sendPacket, run_get_bind] at h
  obtain ⟨hidx, h⟩ := of_run_assert_bind h
  cases h
  exact ⟨of_decide_eq_true hidx, rfl⟩

/-! ## Receiving -/

/-- The part of `Init` that fills the receive queue, from descriptor `i` on: each gets a page and is
published. -/
def populateRX (page : Nat → Nat → Byte) : Nat → Nat → Net → Net
  | 0, _, net => net
  | n + 1, i, net =>
    let rxq := net.rxq.setDesc i ⟨page i, BitVec.ofNat 32 kPageSize, 2#16, 0#16⟩
    let rxq := rxq.setRing i (BitVec.ofNat 16 i)
    populateRX page n (i + 1) { net with rxq := rxq.setIndex (i + 1) }

/-- A driver before its queues are used, with `n` descriptors in each. -/
def initialNet (n : Nat) : Net where
  initialized := true
  macAddr := ⟨0#8, 0#8, 0#8, 0#8, 0#8, 0#8⟩
  selfIp := ⟨0#8, 0#8, 0#8, 0#8⟩
  rxq := ⟨n, fun _ => ⟨fun _ => 0#8, 0#32, 0#16, 0#16⟩, fun _ => 0#16, 0#16, fun _ => 0#32⟩
  txq := ⟨n, fun _ => ⟨fun _ => 0#8, 0#32, 0#16, 0#16⟩, fun _ => 0#16, 0#16, fun _ => 0#32⟩
  rxCursor := 0#16
  txCursor := 0#16

end Liumos.Virtio
