/-
The data interface of a USB network device. `SetInterface` is called with the interface number and the alternate setting
in each other's place, and endpoints are looked for by the alternate setting only. Source: usb_manager.cc.
-/
import Liumos.Usb.Control

namespace Liumos.XHCI

structure InterfaceDescriptor where
  (interfaceNumber altSetting numOfEndpoints interfaceClass interfaceSubclass interfaceProtocol : BitVec 8)

structure EndpointDescriptor where
  endpointAddress : BitVec 8
  maxPacketSize : BitVec 16

inductive Descriptor where
  | interface (d : InterfaceDescriptor)
  | endpoint (e : EndpointDescriptor)
  | other

/-- The loop over the descriptors, before and after `kFoundECMConfig`: the data interface, and what follows it. -/
def dataInterface : Bool → List Descriptor → Option (InterfaceDescriptor × List Descriptor)
  | _, [] => none
  | found, .interface d :: ds =>
    if ¬found ∧ d.interfaceClass = 2#8 ∧ d.interfaceSubclass = 6#8 ∧ d.interfaceProtocol = 0#8 then dataInterface true
    ds else if found ∧ d.interfaceClass = 0x0A#8 ∧ d.interfaceSubclass = 0#8 ∧ d.interfaceProtocol = 0#8 ∧
      2#8 ≤ d.numOfEndpoints then
      some (d, ds)
    else dataInterface found ds
  | found, _ :: ds => dataInterface found ds

/-- `SetInterface(slot_, data_interface_alt_setting_, data_interface_number_)`. -/
def selectRequest (d : InterfaceDescriptor) : Request := .setInterface d.altSetting d.interfaceNumber

def endpointAddressToDeviceContextIndex (a : BitVec 8) : BitVec 8 := (a &&& 7#8) <<< 1 ||| (a >>> 7 &&& 1#8)

/-- What follows the first interface with the alternate setting. -/
def afterAltSetting (alt : BitVec 8) : List Descriptor → List Descriptor
  | [] => []
  | .interface d :: ds => if alt = d.altSetting then ds else afterAltSetting alt ds
  | _ :: ds => afterAltSetting alt ds

/-- The index and packet size of the last endpoint in, and of the last out. -/
def endpoints (i o : BitVec 8 × BitVec 16) : List Descriptor → (BitVec 8 × BitVec 16) × BitVec 8 × BitVec 16
  | .endpoint e :: ds =>
    let ep := (endpointAddressToDeviceContextIndex e.endpointAddress, e.maxPacketSize)
    if e.endpointAddress.getLsbD 7 then endpoints ep o ds else endpoints i ep ds
  | _ => (i, o)

/-- `ConfigureEndpointBulkInOut` is called. -/
def Configured (d : InterfaceDescriptor) (ds : List Descriptor) : Prop :=
  let io := endpoints (0#8, 0#16) (0#8, 0#16) (afterAltSetting d.altSetting ds)
  io.1.1 ≠ 0#8 ∧ io.2.1 ≠ 0#8

/-- The request names the data interface, and the endpoints are those that follow it. -/
def Configures (ds : List Descriptor) : Prop := ∀ before d after, ds = before ++ .interface d :: after →
  dataInterface false ds = some (d, after) →
    (∀ buf, ∃ s status, (selectRequest d).trbs buf = [.setup s, status] ∧ s.index = d.interfaceNumber.setWidth 16 ∧
      s.value = d.altSetting.setWidth 16) ∧ (Configured d ds → afterAltSetting d.altSetting ds = after)

theorem afterAltSetting_eq_iff {d : InterfaceDescriptor} {after : List Descriptor} : ∀ before,
    afterAltSetting d.altSetting (before ++ .interface d :: after) = after ↔ ∀ e, .interface e ∈ before →
      e.altSetting ≠ d.altSetting
  | [] => iff_of_true (if_pos rfl) nofun
  | .interface e :: before => by
    rw [List.cons_append, afterAltSetting]
    split_ifs with he
    · refine iff_of_false (fun h => ?_) fun h => h e List.mem_cons_self he.symm
      have := congrArg List.length h
      simp at this
      omega
    · rw [afterAltSetting_eq_iff before]
      simp [Ne.symm he]
  | .endpoint _ :: before | .other :: before => by simpa [afterAltSetting] using afterAltSetting_eq_iff before

/-- The driver configures the data interface exactly if its number is its alternate setting, and no interface before it
has that one, unless it configures no endpoints. -/
theorem configures_iff (ds : List Descriptor) : Configures ds ↔ ∀ before d after, ds = before ++ .interface d :: after →
    dataInterface false ds = some (d, after) → d.interfaceNumber = d.altSetting ∧
      (Configured d ds → ∀ e, .interface e ∈ before → e.altSetting ≠ d.altSetting) := by
  refine forall₃_congr fun before d after => forall₂_congr fun hds _ => and_congr ⟨fun h => ?_, fun h buf => ?_⟩ ?_
  · obtain ⟨_, _, htrbs, hindex, -⟩ := h 0#64
    cases htrbs
    simpa using (congrArg (BitVec.setWidth 8) hindex).symm
  · exact ⟨_, _, rfl, congrArg (BitVec.setWidth 16) h.symm, congrArg (BitVec.setWidth 16) h⟩
  · rw [hds, afterAltSetting_eq_iff]

/-- The usual layout with the data interface 1, but alternate setting 0. -/
theorem configures_swapped :
    ¬Configures [.interface ⟨0#8, 0#8, 0#8, 2#8, 6#8, 0#8⟩, .interface ⟨1#8, 0#8, 2#8, 0x0A#8, 0#8, 0#8⟩,
    .endpoint ⟨0x81#8, 512#16⟩, .endpoint ⟨2#8, 512#16⟩] := by
  intro h
  obtain ⟨⟨_, _, htrbs, hindex, -⟩, -⟩ := (h [_] _ _ rfl rfl).imp_left (· 0#64)
  cases htrbs
  exact absurd hindex (by decide)

end Liumos.XHCI
