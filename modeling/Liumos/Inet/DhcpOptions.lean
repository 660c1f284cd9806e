/-
The options of a DHCP reply as RFC 2132 defines them, and when the handler reads them so.
Source: virtio_net.cc (`UDPPacketHandler`).
-/
import Liumos.Inet.Dhcp

namespace Liumos.Inet

open Virtio List Nat

/-! ## Lists of options -/

/-- An option with a code, a length and data. -/
structure DataOption where
  code : Byte
  data : List Byte
  /-- 0 is a pad byte and 255 the end. -/
  code_ne : code ≠ 0#8 ∧ code ≠ 255#8
  short : data.length < 256
  /-- The addresses of routers. -/
  router : code = 3#8 → 4 ≤ data.length ∧ data.length % 4 = 0
  /-- The subnet mask. -/
  mask : code = 1#8 → data.length = 4

inductive DhcpOption where
  | pad
  | data (o : DataOption)

def DataOption.bytes (o : DataOption) : List Byte := o.code :: BitVec.ofNat 8 o.data.length :: o.data

def DhcpOption.bytes : DhcpOption → List Byte
  | .pad => [0#8]
  | .data o => o.bytes

/-- The first address in an option, of which the router option may have several. -/
def DataOption.firstAddr (o : DataOption) : IPv4Addr :=
  ⟨o.data.getD 0 0#8, o.data.getD 1 0#8, o.data.getD 2 0#8, o.data.getD 3 0#8⟩

def DhcpOption.addr? (code : Byte) : DhcpOption → Option IPv4Addr
  | .pad => none
  | .data o => if o.code = code then some o.firstAddr else none

/-- An option as the handler sees it: a code, a length, and the four bytes at which an address would stand. -/
structure SeenOption where
  code : Byte
  length : Byte
  addr : IPv4Addr
  deriving DecidableEq

def DataOption.seen (o : DataOption) : SeenOption := ⟨o.code, BitVec.ofNat 8 o.data.length, o.firstAddr⟩

/-- Bytes taken for options that all have a length, up to a length 0 or the end of the frame. -/
def rawOptions (frame : Frame) (size : Nat) : Nat → Nat → List SeenOption
  | 0, _ => []
  | n + 1, i =>
    if size ≤ i ∨ frame (i + 1) = 0#8 then []
    else ⟨frame i, frame (i + 1), readAddr frame (i + 2)⟩ :: rawOptions frame size n (i + 2 + (frame (i + 1)).toNat)

/-- What the handler asserts. -/
def LengthsOk (l : List SeenOption) : Prop := ∀ o ∈ l, HoldsAddress o.code → o.length = 4#8

instance (l : List SeenOption) : Decidable (LengthsOk l) := inferInstanceAs (Decidable (∀ o ∈ l, _))

def SeenOption.addr? (code : Byte) (o : SeenOption) : Option IPv4Addr := if o.code = code then some o.addr else none

/-- The last address seen for a code: each one replaces the one before. -/
def lastAddr (code : Byte) (l : List SeenOption) : Option IPv4Addr := l.reverse.findSome? (SeenOption.addr? code)

/-- What an option does to the addresses. -/
def SeenOption.applyTo (s : NetState) (o : SeenOption) : NetState :=
  if HoldsAddress o.code then withAddress o.code o.addr s else s

/-- A walk that sees `l`. -/
def Sees (x : KM NetState Unit) (l : List SeenOption) : Prop :=
  ∀ s, (LengthsOk l → x.run s = .ok () (l.foldl SeenOption.applyTo s)) ∧ (¬LengthsOk l → ∃ e t, x.run s = .error e t)

theorem sees_nil {x : KM NetState Unit} (h : ∀ s, x.run s = .ok () s) : Sees x [] :=
  fun s => ⟨fun _ => h s, fun hnot => absurd (forall_mem_nil _) hnot⟩

section

variable {frame : Frame} {size n i : Nat} {s : NetState} {l : List SeenOption}

/-- One round over an option that has data. -/
theorem sees_option {addr : IPv4Addr} (hi : i < size) (hzero : frame (i + 1) ≠ 0#8)
    (haddr : HoldsAddress (frame i) → frame (i + 1) = 4#8 → addr = readAddr frame (i + 2))
    (hrest : Sees (dhcpOptions frame size n (i + 2 + (frame (i + 1)).toNat)) l) :
    Sees (dhcpOptions frame size (n + 1) i) (⟨frame i, frame (i + 1), addr⟩ :: l) := by
  intro s
  rw [LengthsOk, forall_mem_cons, foldl_cons, SeenOption.applyTo]
  by_cases hopt : HoldsAddress (frame i)
  · by_cases hfour : frame (i + 1) = 4#8
    · rw [hfour] at hrest
      rw [run_dhcpOptions_address hi hopt hfour, if_pos hopt, ← haddr hopt hfour]
      obtain ⟨hok, hbad⟩ := hrest (withAddress (frame i) addr s)
      exact ⟨fun h => hok h.2, fun h => hbad fun hl => h ⟨fun _ => hfour, hl⟩⟩
    · exact ⟨fun h => absurd (h.1 hopt) hfour, fun _ => ⟨_, _, run_dhcpOptions_assert hi hopt hzero hfour⟩⟩
  · rw [run_dhcpOptions_other hi hzero hopt, if_neg hopt]
    exact ⟨fun h => (hrest s).1 h.2, fun h => (hrest s).2 fun hl => h ⟨fun ho => absurd ho hopt, hl⟩⟩

theorem sees_rawOptions (hn : size < i + n) (hpos : 0 < n) :
    Sees (dhcpOptions frame size n i) (rawOptions frame size n i) := by
  induction n generalizing i with
  | zero => exact absurd hpos (lt_irrefl 0)
  | succ n ih =>
    rw [rawOptions]
    split_ifs with hend
    · rcases hend with hi | hzero
      · exact sees_nil fun s => run_dhcpOptions_end hi
      · exact sees_nil fun s => run_dhcpOptions_stop hzero
    · rw [not_or, not_le] at hend
      exact sees_option hend.1 hend.2 (fun _ _ => rfl) (ih (by omega) (by omega))

/-- The address of the state that an option sets. -/
def addressOf (code : Byte) (s : NetState) : IPv4Addr := if code = 3#8 then s.network.gateway else s.network.netmask

theorem addressOf_applyTo {code : Byte} (h : HoldsAddress code) (o : SeenOption) :
    addressOf code (o.applyTo s) = (o.addr? code).getD (addressOf code s) := by
  obtain ⟨code', length, addr⟩ := o
  unfold SeenOption.applyTo SeenOption.addr?
  by_cases hopt : HoldsAddress code'
  · rw [if_pos hopt]
    rcases h with rfl | rfl <;> rcases hopt with rfl | rfl <;> rfl
  · rw [if_neg hopt, if_neg]
    · rfl
    · rintro rfl
      exact hopt h

theorem addressOf_foldl (code : Byte) (h : HoldsAddress code) :
    addressOf code (l.foldl SeenOption.applyTo s) = (lastAddr code l).getD (addressOf code s) := by
  induction l using reverseRecOn with
  | nil => rfl
  | append_singleton l o ih =>
    rw [foldl_append, foldl_cons, foldl_nil, addressOf_applyTo h, ih, lastAddr, lastAddr, reverse_append,
      reverse_singleton, singleton_append, findSome?_cons]
    cases o.addr? code <;> rfl

variable {size : Word} {opts : List DhcpOption}

/-- What the handler does with a reply. -/
theorem run_udpPacketHandler_sees (hreply : IsReply frame size.toNat s.net.macAddr) (hcookie : HasCookie frame)
    (h : Sees (dhcpOptions frame size.toNat (size.toNat + 1) sizeofDHCPPacket) l) :
    (LengthsOk l → ∃ s', (udpPacketHandler frame size).run s = .ok true s' ∧
      s'.network.gateway = (lastAddr 3#8 l).getD s.network.gateway ∧
      s'.network.netmask = (lastAddr 1#8 l).getD s.network.netmask) ∧
    (¬LengthsOk l → ∃ e t, (udpPacketHandler frame size).run s = .error e t) := by
  obtain ⟨hok, hbad⟩ := h (assigned (readAddr frame dhcpYiaddr) s)
  rw [(run_udpPacketHandler_of_reply hreply).2 hcookie]
  obtain ⟨hgateway, hnetmask⟩ := assigned_network (readAddr frame dhcpYiaddr) s
  refine ⟨fun hl => ⟨_, run_bind_eq (hok hl), ?_, ?_⟩, fun hl => ?_⟩
  · rw [← hgateway]
    exact addressOf_foldl 3#8 (.inl rfl)
  · rw [← hnetmask]
    exact addressOf_foldl 1#8 (.inr rfl)
  · obtain ⟨e, t, hrun⟩ := hbad hl
    exact ⟨e, t, run_bind_error hrun⟩

/-- If the packet is a DHCP reply, each option in it that sets an address has four bytes. -/
def OptionsOk (frame : Frame) (size : Nat) (mac : EtherAddr) : Prop :=
  IsReply frame size mac → HasCookie frame → LengthsOk (rawOptions frame size (size + 1) sizeofDHCPPacket)

theorem returned_udpPacketHandler_iff :
    returned ((udpPacketHandler frame size).run s) = true ↔ OptionsOk frame size.toNat s.net.macAddr := by
  by_cases hreply : IsReply frame size.toNat s.net.macAddr
  · by_cases hcookie : HasCookie frame
    · obtain ⟨hok, hbad⟩ := run_udpPacketHandler_sees hreply hcookie (sees_rawOptions (by omega) (succ_pos _))
      by_cases hl : LengthsOk (rawOptions frame size.toNat (size.toNat + 1) sizeofDHCPPacket)
      · obtain ⟨_, hrun, -⟩ := hok hl
        rw [hrun]
        exact iff_of_true rfl fun _ _ => hl
      · obtain ⟨_, _, hrun⟩ := hbad hl
        rw [hrun]
        exact iff_of_false nofun fun h => hl (h hreply hcookie)
    · rw [(run_udpPacketHandler_of_reply hreply).1 hcookie]
      exact iff_of_true rfl fun _ h => absurd h hcookie
  · rw [run_udpPacketHandler_of_not hreply]
    exact iff_of_true rfl fun h => absurd h hreply

end

end Liumos.Inet
