/-
The ICMP packets the machine emits: replies to echo requests, and what `sys_sendto` sends for a process.
Sources: virtio_net.cc (`SendICMPEchoReply`), syscall.cc (`sys_sendto`), network.h (`SetDataLength`,
`CalcAndSetChecksum`).
-/
import Liumos.Inet.Checksum
import Liumos.Inet.Handlers

namespace Liumos.Inet

open Virtio List Nat

/-! ## A checksum over more than the header -/

section

variable {p : Frame} {start mid stop : Nat}

theorem wordsOf_append (p : Frame) (hmid : start ≤ mid) (hstop : mid ≤ stop) (heven : (mid - start) % 2 = 0) :
    wordsOf p start stop = wordsOf p start mid ++ wordsOf p mid stop := by
  have hnum : (stop - start) / 2 = (mid - start) / 2 + (stop - mid) / 2 := by omega
  rw [wordsOf, hnum, range_add, map_append, map_map]
  refine congrArg (wordsOf p start mid ++ ·) (map_congr_left fun k _ => ?_)
  rw [Function.comp_apply, show start + 2 * ((mid - start) / 2 + k) = mid + 2 * k by omega]

/-- A part that verifies does not show in the checksum of what stands before it, unless that is all zero. -/
theorem calcChecksum_of_dvd (hmid : start ≤ mid) (hstop : mid ≤ stop) (heven : (mid - start) % 2 = 0)
    (heven' : (stop - mid) % 2 = 0) (hshort : stop - start < 2 ^ 17) (hpos : 0 < (wordsOf p start mid).sum)
    (hdvd : 65535 ∣ (wordsOf p mid stop).sum) :
    calcChecksum p start stop = be16 (~~~BitVec.ofNat 16 (onesSum p start mid)) := by
  have hsum : (wordsOf p start stop).sum = (wordsOf p start mid).sum + (wordsOf p mid stop).sum := by
    rw [wordsOf_append p hmid hstop heven, List.sum_append]
  have hlt := sum_wordsOf_lt p hshort
  have hlt' : (wordsOf p start mid).sum < 65536 * 65536 := sum_wordsOf_lt p (by omega)
  have hmod : (wordsOf p start stop).sum ≡ (wordsOf p start mid).sum [MOD (65536 - 1)] := by
    have h := (modEq_zero_iff_dvd.2 hdvd).add_left (wordsOf p start mid).sum
    rwa [add_zero, ← hsum] at h
  have hfold := OnesComplement.fold_eq_fold (b := 65536) (by norm_num) hlt hlt' (by omega) hmod
  rw [calcChecksum, sumLoop_wordsOf p (by omega) hshort, finishChecksum, hfold,
    OnesComplement.fold_eq_sum (by norm_num) (wordsOf_lt p start mid) hlt', onesSum]

theorem sum_wordsOf_pos (h : p start ≠ 0#8) (hlen : 2 ≤ stop - start) : 0 < (wordsOf p start stop).sum := by
  have hpos : 0 < (p start).toNat := pos_of_ne_zero fun h' => h (BitVec.eq_of_toNat_eq h')
  obtain ⟨n, hn⟩ : ∃ n, (stop - start) / 2 = n + 1 := ⟨(stop - start) / 2 - 1, by omega⟩
  rw [wordsOf, hn, range_succ_eq_map, map_cons, sum_cons, mul_zero, add_zero, word]
  omega

end

/-- The checksum of RFC 791: the complement of the one's complement sum of the header, its checksum taken as zero. -/
def headerChecksum (p : Frame) : BitVec 16 :=
  ~~~BitVec.ofNat 16 (onesSum (put p ipCsum [0#8, 0#8]) versionAndIhl sizeofIPv4Packet)

/-! ## Echo replies -/

/-- A valid reply of `size` bytes to an echo request. -/
structure IsEchoReply (req reply : Frame) (size : Nat) : Prop where
  dst : readAddr reply ipDst = readAddr req ipSrc
  src : readAddr reply ipSrc = readAddr req ipDst
  type : reply icmpType = kEchoReply
  /-- The ICMP checksum, from the type to the end of the frame. -/
  icmp : Verifies reply icmpType size
  header : readBe16 reply ipCsum = headerChecksum reply
  /-- Behind the Ethernet header, everything else is as in the request. -/
  rest : ∀ o, sizeofEtherFrame ≤ o → o < size → o < ipCsum ∨ sizeofIPv4Packet ≤ o → o ≠ icmpType →
    o < icmpCsum ∨ icmpCsum + 2 ≤ o → reply o = req o

section

variable {req p : Frame} {size : Nat} {self : EtherAddr}

/-- The reply up to its ICMP checksum. -/
def icmpPart (req : Frame) (size : Nat) (p : Frame) : Frame :=
  setChecksum (put (copyIn p 0 size req) icmpType [kEchoReply]) icmpCsum icmpType size

/-- The reply before the checksum of its IP header is set. -/
def swapped (req : Frame) (size : Nat) (p : Frame) : Frame :=
  put (put (icmpPart req size p) ipDst (readAddr req ipSrc).toList) ipSrc (readAddr req ipDst).toList

theorem fillEchoReply_eq : fillEchoReply req size self p =
    put (put (setChecksum (swapped req size p) ipCsum versionAndIhl size) ethDst (readEther req ethSrc).toList)
      ethSrc self.toList :=
  rfl

variable {o : Nat}

theorem swapped_of_ge (h : 34 ≤ o) : swapped req size p o = icmpPart req size p o := by
  rw [swapped, put_of_ge (by simp [ipSrc]; omega), put_of_ge (by simp [ipDst]; omega)]

/-- The Ethernet header ends where the IP header starts. -/
theorem fillEchoReply_of_ge (h : 14 ≤ o) :
    fillEchoReply req size self p o = setChecksum (swapped req size p) ipCsum versionAndIhl size o := by
  rw [fillEchoReply_eq, put_of_ge (by simp [ethSrc]; omega), put_of_ge (by simp [ethDst]; omega)]

theorem fillEchoReply_of_ne (h : 14 ≤ o) (hcsum : o < 24 ∨ 26 ≤ o) :
    fillEchoReply req size self p o = swapped req size p o := (fillEchoReply_of_ge h).trans (setChecksum_of_ne hcsum)

theorem readAddr_put (p : Frame) (off : Nat) (x : IPv4Addr) : readAddr (put p off x.toList) off = x := by
  have h0 : put p off x.toList off = x.a := put_add (i := 0) (by simp)
  have h1 : put p off x.toList (off + 1) = x.b := put_add (i := 1) (by simp)
  have h2 : put p off x.toList (off + 2) = x.c := put_add (i := 2) (by simp)
  have h3 : put p off x.toList (off + 3) = x.d := put_add (i := 3) (by simp)
  rw [readAddr, h0, h1, h2, h3]

theorem readAddr_fillEchoReply_dst : readAddr (fillEchoReply req size self p) ipDst = readAddr req ipSrc := by
  have h : AgreeOn 30 34 (fillEchoReply req size self p)
      (put (icmpPart req size p) ipDst (readAddr req ipSrc).toList) := by
    intro o ho _
    rw [fillEchoReply_of_ne (by omega) (by omega), swapped, put_of_ge (by simp [ipSrc]; omega)]
  rw [h.readAddr (by decide) (by decide), readAddr_put]

theorem readAddr_fillEchoReply_src : readAddr (fillEchoReply req size self p) ipSrc = readAddr req ipDst := by
  have h : AgreeOn 26 34 (fillEchoReply req size self p) (swapped req size p) :=
    fun o ho _ => fillEchoReply_of_ne (by omega) (by omega)
  rw [h.readAddr (by decide) (by decide), swapped, readAddr_put]

theorem fillEchoReply_rest (h : 14 ≤ o) (hsize : o < size) (hheader : o < 24 ∨ 34 ≤ o) (htype : o ≠ 34)
    (hcsum : o < 36 ∨ 38 ≤ o) : fillEchoReply req size self p o = req o := by
  have hicmp : icmpPart req size p o = req o := by
    have hcopy : copyIn p 0 size req o = req o := if_pos (by omega)
    refine (setChecksum_of_ne hcsum).trans ?_
    rw [← hcopy]
    rcases lt_or_ge o 34 with h' | h'
    · exact put_of_lt h'
    · exact put_of_ge (by simp [icmpType]; omega)
  rw [fillEchoReply_of_ne h (by omega), ← hicmp]
  rcases hheader with h' | h'
  · rw [swapped, put_of_lt (by simp [ipSrc]; omega), put_of_lt (by simp [ipDst]; omega)]
  · exact swapped_of_ge h'

/-- The ICMP part is left alone by what is stored to the header after it. -/
theorem wordsOf_icmp {q : Frame} (h : ∀ o, 34 ≤ o → q o = icmpPart req size p o) :
    wordsOf q icmpType size = wordsOf (icmpPart req size p) icmpType size := wordsOf_congr fun o ho _ => h o ho

section

variable (heven : size % 2 = 0) (hmin : 42 ≤ size) (hmax : size < 4086)

include heven hmin hmax

theorem verifies_icmp : Verifies (fillEchoReply req size self p) icmpType size := by
  have hpart : Verifies (icmpPart req size p) icmpType size :=
    verifies_setChecksum _ (by decide) (by simp [icmpCsum]; omega) (by decide) (by simp [icmpType]; omega) (by omega)
  rw [Verifies, onesSum, wordsOf_icmp fun o ho => ?_]
  · exact hpart
  · rw [fillEchoReply_of_ne (by omega) (by omega), swapped_of_ge ho]

/-- The checksum of the header comes out right although it is computed up to the end of the frame: the ICMP part has its
checksum by then. -/
theorem header_checksum (hversion : req versionAndIhl = 0x45#8) :
    readBe16 (fillEchoReply req size self p) ipCsum = headerChecksum (fillEchoReply req size self p) := by
  let cleared := put (swapped req size p) ipCsum [0#8, 0#8]
  have hicmp : wordsOf cleared icmpType size = wordsOf (icmpPart req size p) icmpType size :=
    wordsOf_icmp fun o ho => (put_of_ge (by simp [ipCsum]; omega)).trans (swapped_of_ge ho)
  have hdvd : 65535 ∣ (wordsOf cleared icmpType size).sum := by
    have hk : 1 < (size - icmpType) / 2 := by
      simp only [icmpType]
      omega
    rw [hicmp]
    exact (dvd_sum_setChecksum _ hk (by simp [icmpType]; omega) (by omega)).1
  have hfirst : cleared versionAndIhl ≠ 0#8 := by
    have hput : cleared versionAndIhl = swapped req size p versionAndIhl := put_of_lt (by decide)
    have hreply : fillEchoReply req size self p versionAndIhl = swapped req size p versionAndIhl :=
      fillEchoReply_of_ne (by decide) (by decide)
    have hrest : fillEchoReply req size self p versionAndIhl = req versionAndIhl :=
      fillEchoReply_rest (by decide) (by simp only [versionAndIhl]; omega) (by decide) (by decide) (by decide)
    rw [hput, ← hreply, hrest, hversion]
    decide
  have hcalc : calcChecksum cleared versionAndIhl size =
      be16 (~~~BitVec.ofNat 16 (onesSum cleared versionAndIhl sizeofIPv4Packet)) :=
    calcChecksum_of_dvd (by decide) (by simp [sizeofIPv4Packet]; omega) (by decide) (by simp [sizeofIPv4Packet]; omega)
      (by omega) (sum_wordsOf_pos hfirst (by decide)) hdvd
  -- with its checksum cleared, the header of the reply is the one that was summed
  have hsame : onesSum (put (fillEchoReply req size self p) ipCsum [0#8, 0#8]) versionAndIhl sizeofIPv4Packet =
      onesSum cleared versionAndIhl sizeofIPv4Packet := by
    rw [onesSum, onesSum, wordsOf_congr fun o ho ho' => ?_]
    by_cases h : o < 24 ∨ 26 ≤ o
    · have hput : ∀ q : Frame, put q ipCsum [0#8, 0#8] o = q o := fun q =>
        h.elim (fun h => put_of_lt h) (fun h => put_of_ge h)
      exact (hput _).trans ((fillEchoReply_of_ne ho h).trans (hput _).symm)
    · exact put_eq_put _ _ (by simp only [ipCsum]; omega) (by simp only [ipCsum, length_cons, length_nil]; omega)
  have hword : (readBe16 (fillEchoReply req size self p) ipCsum).toNat =
      (headerChecksum (fillEchoReply req size self p)).toNat := by
    rw [toNat_readBe16, headerChecksum, hsame, ← word_put_be16 cleared ipCsum, ← hcalc]
    exact word_congr (fillEchoReply_of_ge (by decide)) (fillEchoReply_of_ge (by decide))
  exact BitVec.eq_of_toNat_eq hword

theorem isEchoReply_fillEchoReply (hversion : req versionAndIhl = 0x45#8) :
    IsEchoReply req (fillEchoReply req size self p) size where
  dst := readAddr_fillEchoReply_dst
  src := readAddr_fillEchoReply_src
  type := by
    have htype : icmpPart req size p icmpType = kEchoReply :=
      (setChecksum_of_ne (Or.inl (by decide))).trans (put_add (i := 0) (by simp))
    rw [fillEchoReply_of_ne (by decide) (by decide), swapped_of_ge (by decide), htype]
  icmp := verifies_icmp heven hmin hmax
  header := header_checksum heven hmin hmax hversion
  rest := fun _ h hsize hheader htype hcsum => fillEchoReply_rest h hsize hheader htype hcsum

end

end

theorem fitsPage_hello : fitsPage (BitVec.ofNat 64 helloPacketSize) := by
  unfold fitsPage
  decide

/-- `SendICMPEchoReply` on a request of even size: the first packet it emits is a valid reply, and the second follows.
-/
theorem echoReply_valid {req : Frame} {size : Word} {s : NetState} (hinit : s.net.initialized = true)
    (hqueue : 0 < s.net.txq.queueSize) (heven : size.toNat % 2 = 0) (hmin : sizeofICMPPacket ≤ size.toNat)
    (hmax : size.toNat < 4086) (hversion : req versionAndIhl = 0x45#8) :
    ∃ t s', (transmit size fun net => fillEchoReply req size.toNat net.macAddr).run s = .ok () t ∧
      (transmit (BitVec.ofNat 64 helloPacketSize) fun net => fillHello req net.macAddr).run t = .ok () s' ∧
      (sendICMPEchoReply req size).run s = .ok () s' ∧
      IsEchoReply req (frameOf (t.net.txq.desc s.net.txIdx).page) size.toNat := by
  have hfits : fitsPage size := by
    simp only [fitsPage, sizeofPacketBufHeader, Virtio.kPageSize, BitVec.toNat_setWidth, BitVec.toNat_add,
      BitVec.toNat_ofNat]
    omega
  have hreply : (transmit size fun net => fillEchoReply req size.toNat net.macAddr).run s = .ok () _ :=
    (run_transmit_iff (u := ()) fun _ _ hmac _ => by rw [hmac]).2 ⟨⟨hinit, hfits, hqueue⟩, rfl⟩
  have hhello := (run_transmit_iff (f := fun net => fillHello req net.macAddr) (u := ())
      (s := { s with net := sentNet s.net size (fillEchoReply req size.toNat s.net.macAddr) }) fun _ _ hmac _ => by
      rw [hmac]).2
    ⟨⟨hinit, fitsPage_hello, hqueue⟩, rfl⟩
  refine ⟨_, _, hreply, hhello, ?_, ?_⟩
  · rw [sendICMPEchoReply, if_neg (by omega)]
    exact (run_bind_eq hreply).trans hhello
  · rw [frameOf_sentNet]
    exact isEchoReply_fillEchoReply heven hmin hmax hversion

/-- The shortest echo request. -/
def shortRequest : Frame :=
  put (put (put (fun _ => 0#8) versionAndIhl [0x45#8]) ipProtocol [kICMP]) icmpType [kEchoRequest]

theorem echoReply_valid_short :
    ∃ t s', (transmit 42#64 fun net => fillEchoReply shortRequest 42 net.macAddr).run emptyBuffer = .ok () t ∧
      (transmit (BitVec.ofNat 64 helloPacketSize) fun net => fillHello shortRequest net.macAddr).run t = .ok () s' ∧
      (sendICMPEchoReply shortRequest 42#64).run emptyBuffer = .ok () s' ∧
      IsEchoReply shortRequest (frameOf (t.net.txq.desc 0).page) 42 :=
  echoReply_valid rfl one_pos (by decide) (by decide) (by decide) rfl

/-! ## What a process sends -/

section

variable {p : Frame} {dstEth srcEth : EtherAddr} {srcIp dstIp : IPv4Addr}

theorem fillIPv4_verifies (dataLength : BitVec 16) (protocol : Byte) :
    Verifies (fillIPv4 p dstEth srcEth dataLength protocol srcIp dstIp) versionAndIhl sizeofIPv4Packet :=
  verifies_setChecksum _ (by decide) (by decide) (by decide) (by decide) (by decide)

theorem word_fillIPv4_length (dataLength : BitVec 16) (protocol : Byte) :
    word (fillIPv4 p dstEth srcEth dataLength protocol srcIp dstIp) ipLength =
      (roundEven (dataLength + 20#16)).toNat := by
  rw [← word_put_be16 (put (put (put (put (put p ethDst dstEth.toList) ethSrc srcEth.toList) ethType kTypeIPv4)
    versionAndIhl [0x45#8]) dscpAndEcn [0#8]) ipLength (roundEven (dataLength + 20#16))]
  -- the fields that are set after the length lie behind it
  have h : ∀ o, o < 18 → fillIPv4 p dstEth srcEth dataLength protocol srcIp dstIp o =
      setDataLength (put (put (put (put (put p ethDst dstEth.toList) ethSrc srcEth.toList) ethType kTypeIPv4)
        versionAndIhl [0x45#8]) dscpAndEcn [0#8]) dataLength o := by
    intro o ho
    simp only [fillIPv4, calcAndSetChecksum]
    rw [put_of_lt (by simp [ipCsum]; omega), put_of_lt (by simp [ipCsum]; omega), put_of_lt (by simp [ipDst]; omega),
      put_of_lt (by simp [ipSrc]; omega), put_of_lt (by simp [ipProtocol]; omega), put_of_lt (by simp [ipTtl]; omega),
      put_of_lt (by simp [ipFlags]; omega), put_of_lt (by simp [ipIdent]; omega)]
  exact word_congr (h _ (by decide)) (h _ (by decide))

variable {buf : Nat → Byte} {len : Word}

theorem fillICMP_of_lt {o : Nat} (h : o < sizeofIPv4Packet) : fillICMP p dstEth srcEth srcIp dstIp buf len o =
      fillIPv4 p dstEth srcEth (BitVec.ofNat 16 (sizeofICMPPacket - sizeofIPv4Packet)) kICMP srcIp dstIp o :=
  if_neg fun h' => absurd h'.1 (not_le.2 h)

/-- The IP header of a message: whatever its length, its total length is 28, and its checksum is right. -/
theorem fillICMP_header : word (fillICMP p dstEth srcEth srcIp dstIp buf len) ipLength = 28 ∧
      Verifies (fillICMP p dstEth srcEth srcIp dstIp buf len) versionAndIhl sizeofIPv4Packet := by
  constructor
  · rw [word_congr (fillICMP_of_lt (by decide)) (fillICMP_of_lt (by decide)), word_fillIPv4_length]
    decide
  · rw [Verifies, onesSum, wordsOf_congr fun o _ ho => fillICMP_of_lt ho]
    exact fillIPv4_verifies _ _

end

/-- The IP header of a message that was sent has the right total length and a checksum that verifies exactly if the
message has 8 bytes. -/
theorem sendto_icmp_length_iff {sleep : Nat → NetState → NetState} {pid : Word} {sockfd : Int} {buf : Nat → Byte}
    {len : Word} {destAddr : SockaddrIn} {s t s' : NetState} {sock : Socket} {dstEth : EtherAddr} {r : Word}
    (hsock : s.network.findSocket pid sockfd = some sock) (hicmp : sock.type ≠ .udp)
    (hres : (resolveIPv4WithTimeout sleep destAddr.sinAddr).run s = .ok (some dstEth) t)
    (hrun : (sysSendto sleep pid sockfd buf len destAddr).run s = .ok r s') :
    let sent := frameOf (s'.net.txq.desc t.net.txIdx).page
    word sent ipLength = 20 + len.toNat ∧ Verifies sent versionAndIhl sizeofIPv4Packet ↔ len = 8#64 := by
  intro sent
  rw [run_sysSendto hsock hres] at hrun
  obtain ⟨-, -, rfl⟩ := run_sendtoResolved_iff.1 hrun
  obtain ⟨hlength, hverifies⟩ : word sent ipLength = 28 ∧ Verifies sent versionAndIhl sizeofIPv4Packet := by
    rw [show sent = _ from frameOf_sentNet, fillPacket]
    cases htype : sock.type with
    | icmpRaw => exact fillICMP_header
    | icmpDatagram => exact fillICMP_header
    | udp => exact absurd htype hicmp
  rw [hlength]
  constructor
  · rintro ⟨h, -⟩
    refine BitVec.eq_of_toNat_eq ?_
    show len.toNat = 8
    omega
  · rintro rfl
    exact ⟨rfl, hverifies⟩

def icmpSocket : Socket := ⟨2#64, 3, 12345#16, .icmpDatagram⟩

/-- The machine with an ICMP socket. -/
abbrev oneBufferICMP : NetState := oneBuffer [icmpSocket] fun _ => 0#8

theorem findSocket_oneBufferICMP : oneBufferICMP.network.findSocket 2#64 3 = some icmpSocket := rfl

theorem run_sendto_oneBufferICMP (len : Word) (h : bytesNeeded .icmpDatagram len % 2 ^ 32 < Virtio.kPageSize) :
    ∃ s', (sysSendto (fun _ s => s) 2#64 3 (fun _ => 0#8) len toGateway).run oneBufferICMP = .ok len s' ∧
      word (frameOf (s'.net.txq.desc 0).page) ipLength = 28 := by
  rw [run_sysSendto findSocket_oneBufferICMP (run_resolve_toGateway _ _ _)]
  refine ⟨_, run_sendtoResolved_iff.2 ⟨⟨rfl, fitsPage_iff.2 h, one_pos⟩, rfl, rfl⟩, ?_⟩
  exact (congrArg (word · ipLength) frameOf_sentNet).trans fillICMP_header.1

/-- A message of 8 bytes. -/
theorem sendto_icmp_eight :
    ∃ s', (sysSendto (fun _ s => s) 2#64 3 (fun _ => 0#8) 8#64 toGateway).run oneBufferICMP = .ok 8#64 s' ∧
      word (frameOf (s'.net.txq.desc 0).page) ipLength = 28 ∧
      Verifies (frameOf (s'.net.txq.desc 0).page) versionAndIhl sizeofIPv4Packet := by
  obtain ⟨s', hrun, -⟩ := run_sendto_oneBufferICMP 8#64 (by decide)
  exact ⟨s', hrun, (sendto_icmp_length_iff findSocket_oneBufferICMP (by decide) (run_resolve_toGateway _ _ _) hrun).2
    rfl⟩

/-- A message of 64 bytes, which fits the buffer: its header says 28 where it should say 84. -/
theorem sendto_icmp_length_wrong :
    ∃ s', (sysSendto (fun _ s => s) 2#64 3 (fun _ => 0#8) 64#64 toGateway).run oneBufferICMP = .ok 64#64 s' ∧
      bytesNeeded .icmpDatagram 64#64 < Virtio.kPageSize ∧
      word (frameOf (s'.net.txq.desc 0).page) ipLength ≠ 20 + (64#64).toNat := by
  obtain ⟨s', hrun, hlength⟩ := run_sendto_oneBufferICMP 64#64 (by decide)
  refine ⟨s', hrun, by decide, ?_⟩
  rw [hlength]
  decide

end Liumos.Inet
