/-
The control transfers of the xHCI driver: a setup stage, data if there is any, and a status stage. The transfer type of
the setup stage is taken from `bRequest` where `bmRequestType` has the direction. Sources: xhci_trb.h, xhci.h, xhci.cc.
-/
import Liumos.Usb.TrbRing

namespace Liumos.XHCI

structure SetupStageTRB where
  requestType : BitVec 8
  request : BitVec 8
  value : BitVec 16
  index : BitVec 16
  length : BitVec 16
  option : BitVec 32
  control : BitVec 32

/-- A TRB on the control ring, before `Push` sets its cycle bit. -/
inductive ControlTRB where
  | setup (s : SetupStageTRB)
  | data (buf : Word) (option control : BitVec 32)
  | status (reserved : Word) (option control : BitVec 32)

/-- A TRB as it lies in an entry of the ring. -/
def ControlTRB.basic : ControlTRB → BasicTRB
  | .setup s => ⟨s.length ++ s.index ++ s.value ++ s.request ++ s.requestType, s.option, s.control⟩
  | .data buf option control => ⟨buf, option, control⟩
  | .status reserved option control => ⟨reserved, option, control⟩

def bit (b : Bool) : BitVec 32 := if b then 1#32 else 0#32

def kNoDataStage : BitVec 32 := 0#32
def kOutDataStage : BitVec 32 := 2#32
def kInDataStage : BitVec 32 := 3#32
def kReqTypeBitDirectionDeviceToHost : BitVec 8 := 1#8 <<< 7

/-- `SetupStageTRB::SetParams`. -/
def setupStage (bmRequestType bRequest : BitVec 8) (wValue wIndex wLength : BitVec 16) (ioc : Bool) : ControlTRB :=
  let transferType := if wLength = 0#16 then kNoDataStage
    else if bRequest &&& kReqTypeBitDirectionDeviceToHost ≠ 0#8 then kInDataStage else kOutDataStage
  .setup ⟨bmRequestType, bRequest, wValue, wIndex, wLength, 8#32,
    (transferType <<< 16) ||| (2#32 <<< 10) ||| (1#32 <<< 6) ||| (bit ioc <<< 5)⟩

/-- `PutDataStageTD`. -/
def dataStage (buf : Word) (size : BitVec 16) (isIn : Bool) : ControlTRB :=
  .data buf (size.setWidth 32) ((bit isIn <<< 16) ||| (3#32 <<< 10) ||| (bit false <<< 6) |||
    (bit true <<< 5 ||| 1#32 <<< 2))

/-- `StatusStageTRB::SetParams`. -/
def statusStage (isIn ioc : Bool) : ControlTRB :=
  .status 0#64 0#32 ((bit isIn <<< 16) ||| (4#32 <<< 10) ||| (bit ioc <<< 5))

/-- A request that reads `wLength` bytes into the descriptor buffer of the slot. -/
def readRequest (bmRequestType bRequest : BitVec 8) (wValue wLength : BitVec 16) (buf : Word) : List ControlTRB :=
  [setupStage bmRequestType bRequest wValue 0#16 wLength false, dataStage buf wLength true, statusStage false false]

/-- A request without data. -/
def setRequest (bmRequestType bRequest : BitVec 8) (wValue wIndex : BitVec 16) : List ControlTRB :=
  [setupStage bmRequestType bRequest wValue wIndex 0#16 false, statusStage true true]

/-- The control requests. -/
inductive Request where
  | requestDeviceDescriptor
  | requestDescriptor (descriptorType : BitVec 8)
  | requestConfigDescriptor (descIdx : BitVec 8)
  | requestStringDescriptor (descIdx : BitVec 8)
  | setConfig (configValue : BitVec 8)
  | setInterface (interfaceNumber altSetting : BitVec 8)
  | setHIDBootProtocol
  | getHIDProtocol
  | getHIDReport

/-- What a request enqueues. -/
def Request.trbs (buf : Word) : Request → List ControlTRB
  | requestDeviceDescriptor => readRequest 0x80#8 6#8 (1#16 <<< 8) 18#16 buf
  | requestDescriptor descriptorType => readRequest 0x80#8 6#8 (descriptorType.setWidth 16 <<< 8) 1024#16 buf
  | requestConfigDescriptor descIdx => readRequest 0x80#8 6#8 (2#16 <<< 8 ||| descIdx.setWidth 16) 1024#16 buf
  | requestStringDescriptor descIdx => readRequest 0x80#8 6#8 (3#16 <<< 8 ||| descIdx.setWidth 16) 1024#16 buf
  | setConfig configValue => setRequest 0#8 9#8 (configValue.setWidth 16) 0#16
  | setInterface interfaceNumber altSetting => setRequest 1#8 11#8 (altSetting.setWidth 16)
      (interfaceNumber.setWidth 16)
  | setHIDBootProtocol => setRequest 0x21#8 0x0B#8 0#16 0#16
  | getHIDProtocol => readRequest 0xA1#8 0x01#8 0#16 1#16 buf
  | getHIDReport => readRequest 0xA1#8 0x01#8 0x2201#16 8#16 buf

def kNumOfCtrlEPRingEntries : Nat := 32

abbrev CtrlEPTRing : Type := TransferRequestBlockRing kNumOfCtrlEPRingEntries

/-- A TRB is written to `GetNextEnqueueEntry()` and pushed. -/
def CtrlEPTRing.enqueue (ring : CtrlEPTRing) (t : ControlTRB) : CtrlEPTRing :=
  { ring with entry := Function.update ring.entry ring.nextEnqueueIdx t.basic }.push.2

def CtrlEPTRing.request (buf : Word) (ring : CtrlEPTRing) (r : Request) : CtrlEPTRing := (r.trbs buf).foldl enqueue ring

/-- The request has no data stage. -/
def Request.NoData : Request → Prop
  | setConfig _ | setInterface _ _ | setHIDBootProtocol => True
  | _ => False

def transferType (control : BitVec 32) : BitVec 32 := control >>> 16 &&& 3#32

/-- Groups of setup, data and status stage whose transfer types and directions fit. -/
def WellFormed : List ControlTRB → Prop
  | [] => True
  | .setup s :: .status _ _ status :: rest =>
    s.length = 0#16 ∧ transferType s.control = kNoDataStage ∧ status.getLsbD 16 ∧ WellFormed rest
  | .setup s :: .data _ _ data :: .status _ _ status :: rest =>
    s.length ≠ 0#16 ∧ data.getLsbD 16 = s.requestType.getLsbD 7 ∧
      transferType s.control = (if s.requestType.getLsbD 7 then kInDataStage else kOutDataStage) ∧
      status.getLsbD 16 = !data.getLsbD 16 ∧ WellFormed rest
  | _ => False

variable {rest : List ControlTRB}

theorem wellFormed_setRequest (bmRequestType bRequest : BitVec 8) (wValue wIndex : BitVec 16) :
    WellFormed (setRequest bmRequestType bRequest wValue wIndex ++ rest) ↔ WellFormed rest := by
  refine ⟨fun h => h.2.2.2, fun h => ⟨rfl, ?_, by decide, h⟩⟩
  dsimp only
  rw [if_pos rfl]
  decide

/-- Bit 7 of `bRequest` is clear where that of `bmRequestType` is set. -/
theorem not_wellFormed_readRequest {bmRequestType bRequest : BitVec 8} {wValue wLength : BitVec 16} {buf : Word}
    (htype : bmRequestType.getLsbD 7 = true) (hreq : bRequest &&& kReqTypeBitDirectionDeviceToHost = 0#8)
    (hlen : wLength ≠ 0#16) : ¬WellFormed (readRequest bmRequestType bRequest wValue wLength buf ++ rest) := by
  rintro ⟨-, -, h, -⟩
  dsimp only at h
  rw [if_pos htype, if_neg hlen, if_neg (not_not.2 hreq)] at h
  revert h
  decide

/-- The TRBs of requests are well formed exactly if none of the requests reads anything. -/
theorem wellFormed_trbs_iff (buf : Word) :
    ∀ rs : List Request, WellFormed (rs.flatMap (Request.trbs buf)) ↔ ∀ r ∈ rs, r.NoData
  | [] => iff_of_true trivial nofun
  | r :: rs => by
    have hread : ∀ {ty req value len}, ty.getLsbD 7 = true → req &&& kReqTypeBitDirectionDeviceToHost =
      0#8 → len ≠ 0#16 →
        ¬r.NoData →
        (WellFormed (readRequest ty req value len buf ++ rs.flatMap (Request.trbs buf)) ↔ ∀ q ∈ r :: rs, q.NoData) :=
      fun h1 h2 h3 h4 => iff_of_false (not_wellFormed_readRequest h1 h2 h3) fun h => h4 (h r List.mem_cons_self)
    rw [List.flatMap_cons]
    cases r with
    | setConfig | setInterface | setHIDBootProtocol =>
      rw [Request.trbs, wellFormed_setRequest, wellFormed_trbs_iff buf rs, List.forall_mem_cons]
      exact (and_iff_right trivial).symm
    | _ => exact hread (by decide) (by decide) (by decide) id

/-! ## On the ring -/

/-- The TRBs `ts` were enqueued since `Init`, the last 32 of which are still on the ring. The cycle bit of one says
whether it was enqueued in an even lap. -/
structure CtrlEPTRing.Holds (ring : CtrlEPTRing) (ts : List ControlTRB) : Prop where
  next : ring.nextEnqueueIdx = ts.length % 32
  cycle : ring.currentCycleState = cycleWord (decide (ts.length / 32 % 2 = 0))
  entry : ∀ k t, ts[k]? = some t → ts.length ≤ k + 32 → (ring.entry (k % 32)).payload = t.basic.payload ∧
    (ring.entry (k % 32)).cycleBit = decide (k / 32 % 2 = 0)

namespace CtrlEPTRing

open TransferRequestBlockRing List Function

theorem holds_init (ring : CtrlEPTRing) (paddr : Word) : Holds (ring.init paddr) [] := by
  obtain ⟨-, -, hzero, htrue, -⟩ := pushLoop_clears (N := 32) 31
    (r := ⟨update ring.entry 32 (linkTrb paddr), 0, 0#32, paddr⟩) rfl rfl
  exact ⟨hzero, htrue, nofun⟩

theorem Holds.enqueue {ring : CtrlEPTRing} {ts : List ControlTRB} (h : ring.Holds ts) (t : ControlTRB) :
    (ring.enqueue t).Holds (ts ++ [t]) := by
  have hp : Pushes (N := 32) { ring with entry := Function.update ring.entry ring.nextEnqueueIdx t.basic }
      (ring.enqueue t) _ :=
    push_pushes h.cycle
  have hnext : (ring.enqueue t).nextEnqueueIdx = if ring.nextEnqueueIdx + 1 = 32 then 0 else ring.nextEnqueueIdx + 1 :=
    hp.next
  have hpayload := hp.payload
  have hbit := hp.cycleBit
  have hcycle := hp.cycle
  dsimp only at hpayload hbit hcycle
  rw [h.next] at hnext hpayload hbit hcycle
  have hlen : (ts ++ [t]).length = ts.length + 1 := by simp
  refine ⟨?_, ?_, fun k u hk hlap => ?_⟩
  · rw [hlen, hnext]
    split_ifs <;> omega
  · rw [hlen, hcycle]
    congr 1
    split_ifs
    · rw [← decide_not, decide_eq_decide]
      omega
    · rw [decide_eq_decide]
      omega
  · rw [hlen] at hlap
    rw [hpayload, hbit]
    rcases lt_or_ge k ts.length with hlt | hge
    · -- an entry before the one that was filled
      rw [getElem?_append_left hlt] at hk
      rw [update_of_ne (by omega), if_neg (by omega)]
      exact h.entry k u hk (by omega)
    · have hk' := (List.getElem?_eq_some_iff.1 hk).1
      obtain rfl : k = ts.length := by omega
      rw [getElem?_concat_length, Option.some_inj] at hk
      subst hk
      rw [update_self, if_pos (.inl rfl)]
      exact ⟨rfl, rfl⟩

theorem Holds.enqueueAll : ∀ (us : List ControlTRB) {ring : CtrlEPTRing} {ts : List ControlTRB}, ring.Holds ts →
    (us.foldl CtrlEPTRing.enqueue ring).Holds (ts ++ us)
  | [], _, ts, h => by rwa [append_nil]
  | u :: us, _, ts, h => by
    have := Holds.enqueueAll us (h.enqueue u)
    rwa [append_assoc] at this

/-- After any requests, however often they have gone round the ring. -/
theorem holds_requests (buf : Word) : ∀ (rs : List Request) {ring : CtrlEPTRing} {ts : List ControlTRB}, ring.Holds ts →
    (rs.foldl (request buf) ring).Holds (ts ++ rs.flatMap (Request.trbs buf))
  | [], _, ts, h => by rwa [flatMap_nil, append_nil]
  | r :: rs, _, ts, h => by
    have := holds_requests buf rs (h.enqueueAll (r.trbs buf))
    rwa [append_assoc] at this

end CtrlEPTRing

/-- The TRBs that requests enqueue on the control ring are well formed exactly if no request has read anything. They lie
on the ring in this order, lap after lap. -/
theorem control_wellFormed_iff (buf paddr : Word) (ring : CtrlEPTRing) (rs : List Request) :
    (WellFormed (rs.flatMap (Request.trbs buf)) ↔ ∀ r ∈ rs, r.NoData) ∧
      (rs.foldl (CtrlEPTRing.request buf) (ring.init paddr)).Holds (rs.flatMap (Request.trbs buf)) :=
  ⟨wellFormed_trbs_iff buf rs, CtrlEPTRing.holds_requests buf rs (CtrlEPTRing.holds_init ring paddr)⟩

/-- The transfer type of a request for the device descriptor is that of data to the device. -/
theorem control_malformed : ¬WellFormed ([Request.requestDeviceDescriptor].flatMap (Request.trbs 0#64)) := by
  rintro ⟨-, -, h, -⟩
  revert h
  decide

end Liumos.XHCI
