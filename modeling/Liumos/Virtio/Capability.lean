/-
The walk along the PCI capabilities. `ReadConfigRegister8` shifts the register by bits where it has to shift by bytes,
so what is taken for the next pointer is half of the capability's id. Sources: pci.cc, virtio_net.cc (`Net::Init`).
-/
import Liumos.Machine.Basic

namespace Liumos.PCI

/-- The registers of a configuration space, by their offsets. -/
abbrev Config := BitVec 32 → BitVec 32

def readConfigRegister8 (cfg : Config) (reg : BitVec 32) : BitVec 8 :=
  (cfg (reg &&& 0xFC#32) >>> (reg &&& 3#32)).setWidth 8

/-- The byte of the configuration space at an offset. -/
def byte (cfg : Config) (reg : BitVec 32) : BitVec 8 := (cfg (reg &&& 0xFC#32) >>> (8#32 * (reg &&& 3#32))).setWidth 8

/-- The capabilities from an offset on: aligned, each with the offset of the next one, and 0 in the last. -/
inductive Capabilities (cfg : Config) : BitVec 8 → List (BitVec 8) → Prop
  | nil : Capabilities cfg 0#8 []
  | cons {o : BitVec 8} {os : List (BitVec 8)} : o ≠ 0#8 → o &&& 3#8 = 0#8 →
      Capabilities cfg (byte cfg (o.setWidth 32 + 1#32)) os → Capabilities cfg o (o :: os)

/-- The loop of `Init`, with the offsets that it comes to and the ids that it reads there. -/
inductive Walks (cfg : Config) : BitVec 8 → List (BitVec 8 × BitVec 8) → Prop
  | done : Walks cfg 0#8 []
  | more {o : BitVec 8} {l : List (BitVec 8 × BitVec 8)} :
      o ≠ 0#8 → Walks cfg (readConfigRegister8 cfg (o.setWidth 32 + 1#32)) l →
      Walks cfg o ((o, readConfigRegister8 cfg (o.setWidth 32)) :: l)

/-- A configuration space with a well-formed list. -/
structure Listed where
  cfg : Config
  offsets : List (BitVec 8)
  list : Capabilities cfg ((cfg 0x34#32).setWidth 8) offsets

/-- The loop reads the ids of the capabilities, in their order, and ends. -/
def Listed.Follows (c : Listed) : Prop :=
  Walks c.cfg ((c.cfg 0x34#32).setWidth 8) (c.offsets.map fun o => (o, byte c.cfg (o.setWidth 32)))

variable {cfg : Config} {o : BitVec 8} {os : List (BitVec 8)} {l : List (BitVec 8 × BitVec 8)}

theorem Walks.eq_head (h : Walks cfg o l) : o = (l.head?.map Prod.fst).getD 0#8 := by
  cases h <;> rfl

theorem Capabilities.eq_head (h : Capabilities cfg o os) : o = os.head?.getD 0#8 ∧ o &&& 3#8 = 0#8 := by
  cases h with
  | nil => exact ⟨rfl, rfl⟩
  | cons _ halign _ => exact ⟨rfl, halign⟩

theorem offsets_of_aligned :
    ∀ o : BitVec 8, o &&& 3#8 = 0#8 → o.setWidth 32 &&& 0xFC#32 = o.setWidth 32 ∧ o.setWidth 32 &&& 3#32 = 0#32 ∧
    (o.setWidth 32 + 1#32) &&& 0xFC#32 = o.setWidth 32 ∧ (o.setWidth 32 + 1#32) &&& 3#32 = 1#32 := by
  decide +kernel

theorem Capabilities.walks_iff (h : Capabilities cfg o os) :
    Walks cfg o (os.map fun o => (o, byte cfg (o.setWidth 32))) ↔
      ∀ o ∈ os, byte cfg (o.setWidth 32) >>> 1 = byte cfg (o.setWidth 32 + 1#32) := by
  induction h with
  | nil => exact iff_of_true .done nofun
  | @cons o os hne halign hnext ih =>
    obtain ⟨h1, h2, h3, h4⟩ := offsets_of_aligned o halign
    have hid : readConfigRegister8 cfg (o.setWidth 32) = byte cfg (o.setWidth 32) := by
      rw [readConfigRegister8, byte, h1, h2]
      rfl
    -- the lowest bit of the next pointer is clear
    have hshift : readConfigRegister8 cfg (o.setWidth 32 + 1#32) = byte cfg (o.setWidth 32) >>> 1 := by
      have hbit := hnext.eq_head.2
      rw [byte, h3, h4] at hbit
      rw [readConfigRegister8, byte, h1, h2, h3, h4]
      have hlow := congrArg (BitVec.getLsbD · 0) hbit
      apply BitVec.eq_of_getLsbD_eq
      intro i hi
      by_cases hlast : i = 7
      · subst hlast
        simpa using hlow
      · simp [hi, show 1 + i < 8 by omega]
    rw [List.map_cons, List.forall_mem_cons, ← hshift]
    constructor
    · intro hw
      rw [← hid] at hw
      cases hw with
      | more _ hw =>
        -- the loop goes on with the next capability of the list, so that it has read its offset
        have hhead : readConfigRegister8 cfg (o.setWidth 32 + 1#32) = byte cfg (o.setWidth 32 + 1#32) := by
          rw [hw.eq_head, hnext.eq_head.1, List.head?_map, Option.map_map, Function.comp_def, Option.map_id']
        exact ⟨hhead, ih.1 (hhead ▸ hw)⟩
    · rintro ⟨hhead, hrest⟩
      rw [← hid]
      exact .more hne (hhead ▸ ih.2 hrest)

/-- The loop follows the list exactly if each next pointer happens to be half of the id before it. -/
theorem follows_iff (c : Listed) :
    c.Follows ↔ ∀ o ∈ c.offsets, byte c.cfg (o.setWidth 32) >>> 1 = byte c.cfg (o.setWidth 32 + 1#32) :=
  c.list.walks_iff

/-- A vendor-specific capability at `0x40`, the only one: the next one is looked for at `0x04`. -/
theorem not_follows_vendor : ∃ c : Listed, c.offsets = [0x40#8] ∧ byte c.cfg 0x40#32 = 9#8 ∧ ¬c.Follows := by
  refine ⟨⟨fun r => if r = 0x34#32 then 0x40#32 else if r = 0x40#32 then 9#32 else 0#32, [0x40#8], ?_⟩, rfl, rfl, ?_⟩
  · exact .cons (by decide) (by decide) .nil
  · rintro (_ | ⟨_, h⟩)
    exact absurd h.eq_head (by decide)

end Liumos.PCI
