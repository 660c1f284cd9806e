/-
The iteration over the descriptors of a USB configuration. Each descriptor states its own length, and the iteration ends
only where it meets `total_length` exactly. Source: xhci.h (`DescriptorIterator`, `ConfigDescriptor`).
-/
import Liumos.Machine.Basic

namespace Liumos.XHCI

section

variable (buf : Nat → BitVec 8)

/-- `total_length` of the configuration descriptor at the beginning. -/
def totalLength : Nat := (buf 3 ++ buf 2).toNat

/-- `*it`, as the offset of the header, and `NULL` outside. The offset grows from 0 and is never negative. -/
def deref (ofs : Nat) : Option Nat := if totalLength buf ≤ ofs then none else some ofs

/-- `++it`. -/
def advance (ofs : Nat) : Nat := if totalLength buf ≤ ofs then ofs else ofs + (buf ofs).toNat

/-- The loop `for (auto e : config_desc)` from an offset on: it comes to its end after it has yielded these. -/
inductive Yields : Nat → List (Option Nat) → Prop
  | done : Yields (totalLength buf) []
  | more {ofs : Nat} {es : List (Option Nat)} : ofs ≠ totalLength buf → Yields (advance buf ofs) es →
      Yields ofs (deref buf ofs :: es)

/-- A header, and as many bytes as it states, inside `total_length`. -/
def Inside (e : Option Nat) : Prop :=
  ∃ ofs, e = some ofs ∧ ofs + 2 ≤ totalLength buf ∧ ofs + (buf ofs).toNat ≤ totalLength buf

/-- From an offset on, descriptors of at least a byte follow each other up to `total_length`, and each header is
inside. -/
inductive Tiled : Nat → Prop
  | last : Tiled (totalLength buf)
  | more {ofs : Nat} : ofs + 2 ≤ totalLength buf → buf ofs ≠ 0#8 → Tiled (ofs + (buf ofs).toNat) → Tiled ofs

end

variable {buf : Nat → BitVec 8} {ofs : Nat}

theorem Tiled.le_totalLength (h : Tiled buf ofs) : ofs ≤ totalLength buf := by
  cases h with
  | last => exact le_rfl
  | more hin _ _ => omega

theorem Tiled.yields (h : Tiled buf ofs) : ∃ es, Yields buf ofs es ∧ ∀ e ∈ es, Inside buf e := by
  induction h with
  | last => exact ⟨[], .done, nofun⟩
  | @more ofs hin _ htail ih =>
    obtain ⟨es, hes, hall⟩ := ih
    have hout : ¬totalLength buf ≤ ofs := by omega
    have hnext : advance buf ofs = ofs + (buf ofs).toNat := if_neg hout
    refine ⟨_, .more (by omega) (hnext ▸ hes), List.forall_mem_cons.2 ⟨?_, hall⟩⟩
    exact ⟨ofs, if_neg hout, hin, htail.le_totalLength⟩

theorem Yields.tiled {es : List (Option Nat)} (h : Yields buf ofs es) : (∀ e ∈ es, Inside buf e) → Tiled buf ofs := by
  induction h with
  | done => exact fun _ => .last
  | @more ofs es _ _ ih =>
    intro hall
    obtain ⟨⟨o, ho, hin, -⟩, hrest⟩ := List.forall_mem_cons.1 hall
    have hout : ¬totalLength buf ≤ ofs := fun h => by cases (if_pos h : deref buf ofs = _).symm.trans ho
    cases (if_neg hout : deref buf ofs = _).symm.trans ho
    have htail := ih hrest
    rw [advance, if_neg hout] at htail
    by_cases hzero : buf ofs = 0#8
    · -- the iteration would stand still
      rwa [hzero, BitVec.toNat_zero, Nat.add_zero] at htail
    · exact .more hin hzero htail

/-- The iteration ends, and all it yields is inside, exactly if the descriptors fill `total_length` bytes. -/
theorem iteration_safe_iff (buf : Nat → BitVec 8) : (∃ es, Yields buf 0 es ∧ ∀ e ∈ es, Inside buf e) ↔ Tiled buf 0 :=
  ⟨fun ⟨_, hes, hall⟩ => hes.tiled hall, Tiled.yields⟩

/-- Past the end the iteration stands still. -/
theorem Yields.le_totalLength {es : List (Option Nat)} (h : Yields buf ofs es) : ofs ≤ totalLength buf := by
  induction h with
  | done => exact le_rfl
  | more _ _ ih =>
    by_contra hout
    rw [advance, if_pos (Nat.le_of_not_le hout)] at ih
    exact hout ih

/-- A descriptor of five bytes where `total_length` is 1: the loop goes on with `NULL` and does not end. -/
theorem iteration_beyond : ∃ buf : Nat → BitVec 8, deref buf (advance buf 0) = none ∧ ¬∃ es, Yields buf 0 es := by
  refine ⟨fun i => if i = 0 then 5#8 else if i = 2 then 1#8 else 0#8, by decide, ?_⟩
  rintro ⟨es, hes⟩
  cases hes with
  | more _ hnext => exact absurd hnext.le_totalLength (by decide)

end Liumos.XHCI
