/-
DHCP replies: what the handler does in one round over the options, and which bytes of the receive buffer its
effect depends on. The buffers are used again, so that what follows a frame is left over from earlier ones.
Source: virtio_net.cc (`UDPPacketHandler`).
-/
import Liumos.Inet.Checksum
import Liumos.Inet.Handlers
import Liumos.Machine.Crash

namespace Liumos.Inet

open Virtio Nat

/-! ## The walk over the options -/

/-- The options that set an address: 3 is the router, 1 the subnet mask. -/
def HoldsAddress (option : Byte) : Prop := option = 3#8 ∨ option = 1#8

instance (option : Byte) : Decidable (HoldsAddress option) := inferInstanceAs (Decidable (_ ∨ _))

/-- The state with the address of such an option set. -/
def withAddress (option : Byte) (addr : IPv4Addr) (s : NetState) : NetState :=
  if option = 3#8 then { s with network := { s.network with gateway := addr } }
  else { s with network := { s.network with netmask := addr } }

section

variable {frame : Frame} {size n i : Nat} {s : NetState}

theorem run_dhcpOptions_end (h : size ≤ i) : (dhcpOptions frame size (n + 1) i).run s = .ok () s := by
  rw [dhcpOptions, if_pos h]
  rfl

theorem run_dhcpOptions_stop (h : frame (i + 1) = 0#8) : (dhcpOptions frame size (n + 1) i).run s = .ok () s := by
  rw [dhcpOptions]
  split_ifs
  · rfl
  · simp only [h, reduceIte]
    rfl

theorem run_dhcpOptions_other (hi : i < size) (hlen : frame (i + 1) ≠ 0#8) (hopt : ¬HoldsAddress (frame i)) :
    (dhcpOptions frame size (n + 1) i).run s = (dhcpOptions frame size n (i + 2 + (frame (i + 1)).toNat)).run s := by
  rw [HoldsAddress, not_or] at hopt
  rw [dhcpOptions, if_neg (not_le.2 hi)]
  simp only [if_neg hlen, if_neg hopt.1, if_neg hopt.2]

theorem run_dhcpOptions_address (hi : i < size) (hopt : HoldsAddress (frame i)) (hlen : frame (i + 1) = 4#8) :
    (dhcpOptions frame size (n + 1) i).run s =
      (dhcpOptions frame size n (i + 6)).run (withAddress (frame i) (readAddr frame (i + 2)) s) := by
  rw [dhcpOptions, if_neg (not_le.2 hi)]
  rcases hopt with hopt | hopt
  · simp only [hopt, hlen, withAddress, reduceIte]
    rfl
  · simp only [hopt, hlen, withAddress]
    rfl

theorem run_dhcpOptions_assert (hi : i < size) (hopt : HoldsAddress (frame i)) (hzero : frame (i + 1) ≠ 0#8)
    (hfour : frame (i + 1) ≠ 4#8) :
    (dhcpOptions frame size (n + 1) i).run s = .error (.assertFailed "option_data_len == 4") s := by
  have hassert : ∀ e, (assert (frame (i + 1) == 4#8) e : KM NetState Unit).run s = .error (.assertFailed e) s :=
    fun e => run_assert_false (beq_false_of_ne hfour) e s
  rw [dhcpOptions, if_neg (not_le.2 hi)]
  rcases hopt with hopt | hopt
  · simp only [if_neg hzero, hopt, reduceIte]
    exact run_bind_error (hassert _)
  · have hne : ¬frame i = 3#8 := by
      rw [hopt]
      decide
    simp only [if_neg hzero, if_neg hne, if_pos hopt]
    exact run_bind_error (hassert _)

/-- An option whose length is the byte behind the frame: whatever that is, the walk ends. -/
theorem run_dhcpOptions_last (hi : size = i + 1) (hopt : ¬HoldsAddress (frame i)) :
    (dhcpOptions frame size (n + 2) i).run s = .ok () s := by
  by_cases hlen : frame (i + 1) = 0#8
  · exact run_dhcpOptions_stop hlen
  · rw [run_dhcpOptions_other (by omega) hlen hopt, run_dhcpOptions_end (by omega)]

/-! ## Recognising a reply -/

/-- A reply to this machine, as the handler recognises it. -/
structure IsReply (frame : Frame) (size : Nat) (mac : EtherAddr) : Prop where
  udp : frame ipProtocol = kUDP
  header : sizeofIPv4UDPPacket ≤ size
  port : readBe16 frame udpDstPort = 68#16
  op : frame dhcpOp = 2#8
  chaddr : readEther frame dhcpChaddr = mac

def HasCookie (frame : Frame) : Prop := readAddr frame dhcpCookie = ⟨99#8, 130#8, 83#8, 99#8⟩

/-- The state with the address that the reply assigns. -/
def assigned (addr : IPv4Addr) (s : NetState) : NetState := final ((setSelfIPv4Addr addr).run s)

theorem run_setSelfIPv4Addr (addr : IPv4Addr) (s : NetState) :
    (setSelfIPv4Addr addr).run s = .ok () (assigned addr s) := by
  refine eq_final_of_returned ?_
  rw [setSelfIPv4Addr, run_modify_bind]
  split_ifs
  · rfl
  · rfl

theorem assigned_selfIp (addr : IPv4Addr) (s : NetState) : (assigned addr s).net.selfIp = addr := by
  rw [assigned, setSelfIPv4Addr, run_modify_bind]
  split_ifs
  · rfl
  · rfl

theorem assigned_network (addr : IPv4Addr) (s : NetState) :
    (assigned addr s).network.gateway = s.network.gateway ∧ (assigned addr s).network.netmask = s.network.netmask := by
  rw [assigned, setSelfIPv4Addr, run_modify_bind]
  split_ifs
  · exact ⟨rfl, rfl⟩
  · exact ⟨rfl, rfl⟩

variable {size : Word}

theorem run_udpPacketHandler_of_not (h : ¬IsReply frame size.toNat s.net.macAddr) :
    (udpPacketHandler frame size).run s = .ok false s := by
  by_cases hudp : frame ipProtocol = kUDP
  · by_cases hsize : size.toNat < sizeofIPv4UDPPacket
    · rw [udpPacketHandler, if_neg (not_not.2 hudp), if_pos hsize, run_pure]
    · by_cases hport : readBe16 frame udpDstPort = 68#16
      · rw [udpPacketHandler, if_neg (not_not.2 hudp), if_neg hsize, if_neg (not_not.2 hport),
          run_get_bind, if_pos, run_pure]
        by_contra hfields
        rw [not_or, not_not, not_not] at hfields
        exact h ⟨hudp, not_lt.1 hsize, hport, hfields.1, hfields.2⟩
      · rw [udpPacketHandler, if_neg (not_not.2 hudp), if_neg hsize, if_pos hport, run_pure]
  · rw [udpPacketHandler, if_pos hudp, run_pure]

/-- The part of the handler behind the checks. -/
theorem run_udpPacketHandler_of_reply (h : IsReply frame size.toNat s.net.macAddr) :
    (¬HasCookie frame → (udpPacketHandler frame size).run s = .ok true (assigned (readAddr frame dhcpYiaddr) s)) ∧
    (HasCookie frame → (udpPacketHandler frame size).run s =
      (do dhcpOptions frame size.toNat (size.toNat + 1) sizeofDHCPPacket; return true : KM NetState Bool).run
        (assigned (readAddr frame dhcpYiaddr) s)) := by
  rw [udpPacketHandler, if_neg (not_not.2 h.udp), if_neg (not_lt.2 h.header), if_neg (not_not.2 h.port), run_get_bind,
    if_neg (not_or.2 ⟨not_not.2 h.op, not_not.2 h.chaddr⟩), run_bind_eq (run_setSelfIPv4Addr _ _)]
  unfold HasCookie
  constructor
  · intro hcookie
    rw [if_pos hcookie, run_pure]
  · intro hcookie
    rw [if_neg (not_not.2 hcookie)]

/-- A frame without room for options. -/
theorem run_udpPacketHandler_short (h : IsReply frame size.toNat s.net.macAddr)
    (hsize : size.toNat ≤ sizeofDHCPPacket) :
    (udpPacketHandler frame size).run s = .ok true (assigned (readAddr frame dhcpYiaddr) s) := by
  by_cases hcookie : HasCookie frame
  · rw [(run_udpPacketHandler_of_reply h).2 hcookie]
    exact run_bind_eq (run_dhcpOptions_end hsize)
  · exact (run_udpPacketHandler_of_reply h).1 hcookie

end

/-! ## What the effect depends on -/

/-- What a run leaves of the addresses, and the assert it failed if it did. -/
structure Effect where
  selfIp : IPv4Addr
  gateway : IPv4Addr
  netmask : IPv4Addr
  panic : Option Panic
  deriving DecidableEq

def effectOf {β : Type} (r : EStateM.Result Panic NetState β) : Effect where
  selfIp := (final r).net.selfIp
  gateway := (final r).network.gateway
  netmask := (final r).network.netmask
  panic := panicked r

theorem effectOf_bind_pure {β γ : Type} (x : KM NetState β) (c : γ) (s : NetState) :
    effectOf ((x >>= fun _ => pure c : KM NetState γ).run s) = effectOf (x.run s) := by
  cases h : x.run s with
  | ok b t => rw [run_bind_eq h, run_pure]; rfl
  | error e t => rw [run_bind_error h]; rfl

/-- The rounds of the walk that can be seen in the frame: an option that sets an address has its length inside the
frame, and the address too if the length is right. -/
def OptionsInside (p : Frame) (size : Nat) : Nat → Nat → Prop
  | 0, _ => True
  | n + 1, i => i < size →
    (HoldsAddress (p i) → i + 1 < size ∧ (p (i + 1) = 4#8 → i + 6 ≤ size ∧ OptionsInside p size n (i + 6))) ∧
    (¬HoldsAddress (p i) → i + 1 < size → p (i + 1) ≠ 0#8 → OptionsInside p size n (i + 2 + (p (i + 1)).toNat))

section

variable {p q : Frame} {size n i : Nat} {s : NetState}

/-- A buffer that agrees with such a frame is walked in the same way. The induction is on the rounds; the only byte
behind the frame that is looked at is the length of an option that starts with its last byte. -/
theorem run_dhcpOptions_congr (h : AgreeOn 0 size p q) (hn : size < i + n) (hinside : OptionsInside p size n i) :
    (dhcpOptions p size n i).run s = (dhcpOptions q size n i).run s := by
  induction n generalizing i s with
  | zero => rfl
  | succ n ih =>
    rcases lt_or_ge i size with hi | hi
    · obtain ⟨haddress, hother⟩ := hinside hi
      have hoption : p i = q i := h i (zero_le _) hi
      by_cases hopt : HoldsAddress (p i)
      · obtain ⟨hlast, hrest⟩ := haddress hopt
        have hlen : p (i + 1) = q (i + 1) := h _ (zero_le _) hlast
        by_cases hzero : p (i + 1) = 0#8
        · rw [run_dhcpOptions_stop hzero, run_dhcpOptions_stop (hlen ▸ hzero)]
        · by_cases hfour : p (i + 1) = 4#8
          · obtain ⟨hsix, hrest⟩ := hrest hfour
            rw [run_dhcpOptions_address hi hopt hfour, run_dhcpOptions_address hi (hoption ▸ hopt) (hlen ▸ hfour),
              ← hoption, h.readAddr (zero_le _) (by omega), ih (by omega) hrest]
          · rw [run_dhcpOptions_assert hi hopt hzero hfour,
              run_dhcpOptions_assert hi (hoption ▸ hopt) (hlen ▸ hzero) (hlen ▸ hfour)]
      · rcases lt_or_ge (i + 1) size with hlast | hlast
        · have hlen : p (i + 1) = q (i + 1) := h _ (zero_le _) hlast
          by_cases hzero : p (i + 1) = 0#8
          · rw [run_dhcpOptions_stop hzero, run_dhcpOptions_stop (hlen ▸ hzero)]
          · rw [run_dhcpOptions_other hi hzero hopt, run_dhcpOptions_other hi (hlen ▸ hzero) (hoption ▸ hopt), ← hlen]
            exact ih (by omega) (hother hopt hlast hzero)
        · obtain ⟨m, rfl⟩ : ∃ m, n = m + 1 := ⟨n - 1, by omega⟩
          rw [run_dhcpOptions_last (by omega) hopt, run_dhcpOptions_last (by omega) (hoption ▸ hopt)]
    · rw [run_dhcpOptions_end hi, run_dhcpOptions_end hi]

/-- The frame with given bytes behind it. -/
def followedBy (p : Frame) (size : Nat) (rest : Frame) : Frame := fun o => if o < size then p o else rest o

theorem agreeOn_followedBy (rest : Frame) : AgreeOn 0 size p (followedBy p size rest) := fun _ _ ho => (if_pos ho).symm

theorem followedBy_of_ge {rest : Frame} {o : Nat} (h : size ≤ o) :
    followedBy p size rest o = rest o := if_neg (not_lt.2 h)

theorem effectOf_withAddress_ne {option : Byte} {addr addr' : IPv4Addr} (h : addr ≠ addr') (s : NetState) :
    effectOf (.ok () (withAddress option addr s)) ≠ effectOf (.ok () (withAddress option addr' s)) := by
  intro heq
  unfold withAddress at heq
  split_ifs at heq
  · exact h (congrArg Effect.gateway heq)
  · exact h (congrArg Effect.netmask heq)

/-- A round that sets an address from inside the frame. -/
theorem run_dhcpOptions_inside (h : AgreeOn 0 size p q) (hi : i + 6 ≤ size) (hopt : HoldsAddress (p i))
    (hfour : p (i + 1) = 4#8) :
    (dhcpOptions q size (n + 1) i).run s = (dhcpOptions q size n (i + 6)).run
    (withAddress (p i) (readAddr p (i + 2)) s) := by
  have hoption : p i = q i := h i (zero_le _) (by omega)
  have hlen : p (i + 1) = q (i + 1) := h _ (zero_le _) (by omega)
  rw [run_dhcpOptions_address (by omega) (hoption ▸ hopt) (hlen ▸ hfour), ← hoption, h.readAddr (zero_le _) (by omega)]

/-- An option that sets an address and has its length behind the frame: the walk may end there, or fail an assert. -/
theorem effectOf_length_outside (hi : size = i + 1) (hopt : HoldsAddress (p i)) (s : NetState) :
    effectOf ((dhcpOptions (followedBy p size fun _ => 0#8) size (n + 1) i).run s) ≠
      effectOf ((dhcpOptions (followedBy p size fun _ => 5#8) size (n + 1) i).run s) := by
  have hlen : ∀ b : Byte, followedBy p size (fun _ => b) (i + 1) = b := fun b => followedBy_of_ge (by omega)
  have hoption : p i = followedBy p size (fun _ => 5#8) i := agreeOn_followedBy _ i (zero_le _) (by omega)
  have hopt' : HoldsAddress (followedBy p size (fun _ => 5#8) i) := hoption ▸ hopt
  rw [run_dhcpOptions_stop (hlen _),
    run_dhcpOptions_assert (by omega) hopt' (by rw [hlen]; decide) (by rw [hlen]; decide)]
  intro heq
  exact absurd (congrArg Effect.panic heq) (by simp [effectOf, panicked])

/-- An address that is not inside the frame as a whole. -/
theorem effectOf_address_outside (hi : i + 1 < size) (hsix : size < i + 6) (hopt : HoldsAddress (p i))
    (hfour : p (i + 1) = 4#8) (s : NetState) :
    effectOf ((dhcpOptions (followedBy p size fun _ => 0#8) size (n + 2) i).run s) ≠
      effectOf ((dhcpOptions (followedBy p size fun _ => 1#8) size (n + 2) i).run s) := by
  have hrun : ∀ rest : Frame, (dhcpOptions (followedBy p size rest) size (n + 2) i).run s =
      .ok () (withAddress (p i) (readAddr (followedBy p size rest) (i + 2)) s) := by
    intro rest
    have hoption : p i = followedBy p size rest i := agreeOn_followedBy rest i (zero_le _) (by omega)
    have hlen : p (i + 1) = followedBy p size rest (i + 1) := agreeOn_followedBy rest _ (zero_le _) hi
    rw [run_dhcpOptions_address (by omega) (hoption ▸ hopt) (hlen ▸ hfour), ← hoption, run_dhcpOptions_end (by omega)]
  rw [hrun, hrun]
  refine effectOf_withAddress_ne (fun heq => ?_) s
  have hd : ∀ b : Byte, (readAddr (followedBy p size fun _ => b) (i + 2)).d = b := by
    intro b
    show followedBy p size (fun _ => b) (i + 2 + 3) = b
    exact followedBy_of_ge (by omega)
  have := (hd 0#8).symm.trans ((congrArg IPv4Addr.d heq).trans (hd 1#8))
  exact absurd this (by decide)

/-- Otherwise there are two ways to go on behind the frame that make a difference, from whatever state. -/
theorem exists_effect_ne (hn : size < i + n) (hinside : ¬OptionsInside p size n i) :
    ∃ q q', AgreeOn 0 size p q ∧ AgreeOn 0 size p q' ∧
      ∀ s, effectOf ((dhcpOptions q size n i).run s) ≠ effectOf ((dhcpOptions q' size n i).run s) := by
  induction n generalizing i with
  | zero => exact absurd trivial hinside
  | succ n ih =>
    have hi : i < size := by
      by_contra hi
      exact hinside fun h => absurd h hi
    obtain ⟨m, rfl⟩ : ∃ m, n = m + 1 := ⟨n - 1, by omega⟩
    by_cases hopt : HoldsAddress (p i)
    · by_cases hlast : i + 1 < size
      · have hfour : p (i + 1) = 4#8 := by
          by_contra h
          exact hinside fun _ => ⟨fun _ => ⟨hlast, fun h' => absurd h' h⟩, fun h' => absurd hopt h'⟩
        by_cases hsix : i + 6 ≤ size
        · have hrest : ¬OptionsInside p size (m + 1) (i + 6) := fun hrest =>
            hinside fun _ => ⟨fun _ => ⟨hlast, fun _ => ⟨hsix, hrest⟩⟩, fun h' => absurd hopt h'⟩
          obtain ⟨q, q', hq, hq', hne⟩ := ih (by omega) hrest
          refine ⟨q, q', hq, hq', fun s => ?_⟩
          rw [run_dhcpOptions_inside hq hsix hopt hfour, run_dhcpOptions_inside hq' hsix hopt hfour]
          exact hne _
        · -- the address is cut off
          exact ⟨_, _, agreeOn_followedBy _, agreeOn_followedBy _, effectOf_address_outside hlast (by omega) hopt hfour⟩
      · -- the length is the byte behind the frame
        exact ⟨_, _, agreeOn_followedBy _, agreeOn_followedBy _, effectOf_length_outside (by omega) hopt⟩
    · obtain ⟨hlast, hzero, hrest⟩ : i + 1 < size ∧ p (i + 1) ≠ 0#8 ∧ ¬OptionsInside p size (m + 1)
          (i + 2 + (p (i + 1)).toNat) := by
        by_contra h
        refine hinside fun _ => ⟨fun h' => absurd h' hopt, fun _ hlast hzero => ?_⟩
        by_contra hrest
        exact h ⟨hlast, hzero, hrest⟩
      obtain ⟨q, q', hq, hq', hne⟩ := ih (by omega) hrest
      have hround : ∀ r : Frame, AgreeOn 0 size p r → ∀ s, (dhcpOptions r size (m + 2) i).run s =
          (dhcpOptions r size (m + 1) (i + 2 + (p (i + 1)).toNat)).run s := by
        intro r hr s
        have hoption : p i = r i := hr i (zero_le _) hi
        have hlen : p (i + 1) = r (i + 1) := hr _ (zero_le _) hlast
        rw [run_dhcpOptions_other hi (hlen ▸ hzero) (hoption ▸ hopt), ← hlen]
      refine ⟨q, q', hq, hq', fun s => ?_⟩
      rw [hround q hq, hround q' hq']
      exact hne s

end

/-- The fields by which a reply to a machine is recognised, at their places. -/
def replyTo (mac : EtherAddr) : Frame := put (put (fun _ => 0#8) dhcpOp [2#8]) dhcpChaddr mac.toList

/-- As far as it goes, the frame is a reply. -/
structure MayBeReply (p : Frame) (size : Nat) (mac : EtherAddr) : Prop where
  header : sizeofIPv4UDPPacket ≤ size
  udp : p ipProtocol = kUDP
  port : readBe16 p udpDstPort = 68#16
  fields : ∀ o, o = dhcpOp ∨ (dhcpChaddr ≤ o ∧ o < dhcpChaddr + 6) → o < size → p o = replyTo mac o

/-- Everything that makes a difference lies inside the frame: the fields of the reply, and what the walk over the
options looks at if there is one. -/
def ReadsInside (p : Frame) (size : Nat) (mac : EtherAddr) : Prop :=
  MayBeReply p size mac →
    dhcpChaddr + 6 ≤ size ∧ (sizeofDHCPPacket < size → HasCookie p → OptionsInside p size (size + 1) sizeofDHCPPacket)

section

variable {p q : Frame} {size : Nat} {mac : EtherAddr}

theorem isReply_of_fields (hsize : sizeofIPv4UDPPacket ≤ size) (hudp : p ipProtocol = kUDP)
    (hport : readBe16 p udpDstPort = 68#16)
    (hfields : ∀ o, o = dhcpOp ∨ (dhcpChaddr ≤ o ∧ o < dhcpChaddr + 6) → p o = replyTo mac o) : IsReply p size mac := by
  refine ⟨hudp, hsize, hport, hfields dhcpOp (Or.inl rfl), ?_⟩
  have h : ∀ k, k < 6 → p (dhcpChaddr + k) = replyTo mac (dhcpChaddr + k) :=
    fun k hk => hfields _ (Or.inr ⟨by omega, by omega⟩)
  rw [readEther, show p dhcpChaddr = _ from h 0 (by decide), h 1 (by decide), h 2 (by decide), h 3 (by decide),
    h 4 (by decide), h 5 (by decide)]
  rfl

theorem IsReply.fields (h : IsReply p size mac) {o : Nat} (ho : o = dhcpOp ∨ (dhcpChaddr ≤ o ∧ o < dhcpChaddr + 6)) :
    p o = replyTo mac o := by
  rcases ho with rfl | ⟨ho, ho'⟩
  · exact h.op
  · have hchaddr : readEther p dhcpChaddr = readEther (replyTo mac) dhcpChaddr := h.chaddr
    simp only [readEther, EtherAddr.mk.injEq] at hchaddr
    obtain ⟨h0, h1, h2, h3, h4, h5⟩ := hchaddr
    obtain ⟨k, rfl⟩ : ∃ k, o = dhcpChaddr + k := ⟨o - dhcpChaddr, by omega⟩
    obtain rfl | rfl | rfl | rfl | rfl | rfl : k = 0 ∨ k = 1 ∨ k = 2 ∨ k = 3 ∨ k = 4 ∨ k = 5 := by omega
    all_goals assumption

theorem IsReply.mayBeReply (h : IsReply q size mac) (hagree : AgreeOn 0 size p q) : MayBeReply p size mac where
  header := h.header
  udp := (hagree _ (zero_le _) (lt_of_lt_of_le (by decide) h.header)).trans h.udp
  port := (hagree.readBe16 (zero_le _) (le_trans (by decide) h.header)).trans h.port
  fields := fun o ho ho' => (hagree o (zero_le _) ho').trans (h.fields ho)

/-- A frame that may be a reply is one in a buffer that has the fields it lacks behind it. -/
theorem MayBeReply.of_fields (h : MayBeReply p size mac) (hagree : AgreeOn 0 size p q)
    (hbehind : ∀ o, o = dhcpOp ∨ (dhcpChaddr ≤ o ∧ o < dhcpChaddr + 6) → size ≤ o → q o = replyTo mac o) :
    IsReply q size mac := by
  refine isReply_of_fields h.header ?_ ?_ fun o ho => ?_
  · exact (hagree _ (zero_le _) (lt_of_lt_of_le (by decide) h.header)).symm.trans h.udp
  · exact (hagree.readBe16 (zero_le _) (le_trans (by decide) h.header)).symm.trans h.port
  · rcases lt_or_ge o size with hlt | hge
    · exact (hagree o (zero_le _) hlt).symm.trans (h.fields o ho hlt)
    · exact hbehind o ho hge

theorem MayBeReply.complete (h : MayBeReply p size mac) : IsReply (followedBy p size (replyTo mac)) size mac :=
  h.of_fields (agreeOn_followedBy _) fun _ _ hge => followedBy_of_ge hge

theorem MayBeReply.isReply (h : MayBeReply p size mac) (hsize : dhcpChaddr + 6 ≤ size) (hagree : AgreeOn 0 size p q) :
    IsReply q size mac := by
  refine h.of_fields hagree fun o ho hge => ?_
  simp only [dhcpOp, dhcpChaddr] at ho hsize
  omega

theorem hasCookie_congr (h : AgreeOn 0 size p q) (hsize : sizeofDHCPPacket ≤ size) : HasCookie p ↔ HasCookie q := by
  have haddr : readAddr p dhcpCookie = readAddr q dhcpCookie := h.readAddr (zero_le _) hsize
  rw [HasCookie, HasCookie, haddr]

variable {size : Word} {s : NetState}

/-- With everything inside, the leftovers make no difference to the run. -/
theorem run_udpPacketHandler_congr (h : ReadsInside p size.toNat s.net.macAddr) (hagree : AgreeOn 0 size.toNat p q) :
    (udpPacketHandler p size).run s = (udpPacketHandler q size).run s := by
  by_cases hmay : MayBeReply p size.toNat s.net.macAddr
  · obtain ⟨hchaddr, hoptions⟩ := h hmay
    have hp : IsReply p size.toNat s.net.macAddr := hmay.isReply hchaddr fun _ _ _ => rfl
    have hq : IsReply q size.toNat s.net.macAddr := hmay.isReply hchaddr hagree
    have hyiaddr : readAddr p dhcpYiaddr = readAddr q dhcpYiaddr :=
      hagree.readAddr (zero_le _) (le_trans (by decide) hchaddr)
    rcases lt_or_ge sizeofDHCPPacket size.toNat with hsize | hsize
    · have hcookie : HasCookie p ↔ HasCookie q := hasCookie_congr hagree hsize.le
      by_cases hc : HasCookie p
      · rw [(run_udpPacketHandler_of_reply hp).2 hc, (run_udpPacketHandler_of_reply hq).2 (hcookie.1 hc), hyiaddr]
        exact run_bind_congr (run_dhcpOptions_congr hagree (by omega) (hoptions hsize hc))
      · rw [(run_udpPacketHandler_of_reply hp).1 hc, (run_udpPacketHandler_of_reply hq).1 fun h =>
          hc (hcookie.2 h), hyiaddr]
    · rw [run_udpPacketHandler_short hp hsize, run_udpPacketHandler_short hq hsize, hyiaddr]
  · rw [run_udpPacketHandler_of_not fun hp => hmay (hp.mayBeReply fun _ _ _ => rfl),
      run_udpPacketHandler_of_not fun hq => hmay (hq.mayBeReply hagree)]

end

/-- A machine with a given hardware address and IP address. -/
def machineAt (mac : EtherAddr) (addr : IPv4Addr) : NetState :=
  { emptyBuffer with net := { emptyBuffer.net with macAddr := mac, selfIp := addr } }

/-- Two buffers with the same frame have the same effect, on every machine with the hardware address. -/
def SameEffect (p : Frame) (size : Word) (mac : EtherAddr) : Prop :=
  ∀ q, AgreeOn 0 size.toNat p q → ∀ s : NetState, s.net.macAddr = mac →
    effectOf ((udpPacketHandler p size).run s) = effectOf ((udpPacketHandler q size).run s)

section

variable {p q q' : Frame} {size : Word} {mac : EtherAddr}

theorem SameEffect.eq (h : SameEffect p size mac) (hq : AgreeOn 0 size.toNat p q) (hq' : AgreeOn 0 size.toNat p q')
    (addr : IPv4Addr) :
    effectOf ((udpPacketHandler q size).run (machineAt mac addr)) =
      effectOf ((udpPacketHandler q' size).run (machineAt mac addr)) :=
  (h q hq (machineAt mac addr) rfl).symm.trans (h q' hq' (machineAt mac addr) rfl)

/-- A frame that ends before the hardware address does: what follows decides whether it assigns an address. -/
theorem SameEffect.chaddr (h : SameEffect p size mac) (hmay : MayBeReply p size.toNat mac) :
    dhcpChaddr + 6 ≤ size.toNat := by
  by_contra hsize
  have hshort : size.toNat ≤ dhcpChaddr + 5 := by omega
  let q := followedBy p size.toNat (replyTo mac)
  let q' := followedBy p size.toNat fun _ => ~~~mac.m5
  have hq' : ¬IsReply q' size.toNat mac := by
    intro hreply
    have hbyte : q' (dhcpChaddr + 5) = mac.m5 := congrArg EtherAddr.m5 hreply.chaddr
    have hne : ∀ x : Byte, ~~~x ≠ x := by decide
    exact hne mac.m5 ((followedBy_of_ge hshort).symm.trans hbyte)
  -- a machine whose address is not the one in the reply
  let addr : IPv4Addr := { readAddr q dhcpYiaddr with a := ~~~(readAddr q dhcpYiaddr).a }
  have hrun : (udpPacketHandler q size).run (machineAt mac addr) =
      .ok true (assigned (readAddr q dhcpYiaddr) (machineAt mac addr)) :=
    run_udpPacketHandler_short hmay.complete (hshort.trans (by decide))
  have heq := h.eq (agreeOn_followedBy (replyTo mac)) (agreeOn_followedBy fun _ => ~~~mac.m5) addr
  rw [hrun, run_udpPacketHandler_of_not hq'] at heq
  have hself : readAddr q dhcpYiaddr = addr := (assigned_selfIp _ _).symm.trans (congrArg Effect.selfIp heq)
  have hne : ∀ x : Byte, x ≠ ~~~x := by decide
  exact hne _ (congrArg IPv4Addr.a hself)

theorem SameEffect.options (h : SameEffect p size mac) (hmay : MayBeReply p size.toNat mac)
    (hsize : sizeofDHCPPacket < size.toNat) (hcookie : HasCookie p) :
    OptionsInside p size.toNat (size.toNat + 1) sizeofDHCPPacket := by
  by_contra hinside
  obtain ⟨q, q', hq, hq', hne⟩ := exists_effect_ne (by omega) hinside
  have hchaddr : dhcpChaddr + 6 ≤ size.toNat := le_trans (by decide) hsize.le
  have hrun : ∀ r : Frame, AgreeOn 0 size.toNat p r → ∀ addr,
    effectOf ((udpPacketHandler r size).run (machineAt mac addr)) =
        effectOf ((dhcpOptions r size.toNat (size.toNat + 1) sizeofDHCPPacket).run
          (assigned (readAddr p dhcpYiaddr) (machineAt mac addr))) := by
    intro r hr addr
    have hyiaddr : readAddr p dhcpYiaddr = readAddr r dhcpYiaddr :=
      hr.readAddr (zero_le _) (le_trans (by decide) hchaddr)
    rw [(run_udpPacketHandler_of_reply (hmay.isReply hchaddr hr)).2 ((hasCookie_congr hr hsize.le).1 hcookie),
      effectOf_bind_pure, hyiaddr]
  have heq := h.eq hq hq' ⟨0#8, 0#8, 0#8, 0#8⟩
  rw [hrun q hq, hrun q' hq'] at heq
  exact hne _ heq

/-- The handler's effect depends on the received frame only exactly if everything that makes a difference lies inside
it. -/
theorem dhcp_sameEffect_iff (p : Frame) (size : Word) (mac : EtherAddr) :
    SameEffect p size mac ↔ ReadsInside p size.toNat mac := by
  constructor
  · intro h hmay
    exact ⟨h.chaddr hmay, h.options hmay⟩
  · rintro h q hagree s rfl
    rw [run_udpPacketHandler_congr h hagree]

end

/-- A frame of 60 bytes, the least that Ethernet sends, that starts like a reply. -/
def shortReply : Frame := put (put (put (fun _ => 0#8) ipProtocol [kUDP]) udpDstPort (be16 68#16)) dhcpOp [2#8]

/-- What follows decides whether the machine takes an address from it. -/
theorem dhcp_reads_behind : ∃ q, AgreeOn 0 (60#64).toNat shortReply q ∧
    effectOf ((udpPacketHandler shortReply 60#64).run emptyBuffer) ≠
      effectOf ((udpPacketHandler q 60#64).run emptyBuffer) := by
  let mac : EtherAddr := ⟨0x52#8, 0x54#8, 0#8, 0x12#8, 0x34#8, 0x56#8⟩
  have hmay : MayBeReply shortReply 60 mac := by
    refine ⟨by decide, by decide, by decide, fun o ho ho' => ?_⟩
    simp only [dhcpOp, dhcpChaddr] at ho
    obtain rfl : o = 42 := by omega
    rfl
  refine ⟨followedBy shortReply 60 (replyTo mac), agreeOn_followedBy _, ?_⟩
  have hnot : ¬IsReply shortReply 60 mac := by
    intro h
    exact absurd h.chaddr (by decide)
  rw [run_udpPacketHandler_of_not hnot, run_udpPacketHandler_short hmay.complete (by decide)]
  intro heq
  have hself : readAddr (followedBy shortReply 60 (replyTo mac)) dhcpYiaddr = emptyBuffer.net.selfIp :=
    (assigned_selfIp _ emptyBuffer).symm.trans (congrArg Effect.selfIp heq).symm
  exact absurd hself (by decide)

end Liumos.Inet
