/-
The comparison of section names. The kernel's `strcmp` does not look for the terminator, so it returns only where the
bytes differ, and never 0. Sources: libfunc.cc (`strcmp`), elf.cc (`FindSectionHeader`).
-/
import Liumos.Machine.Basic

namespace Liumos.Elf

/-- A string in memory: the bytes from its address on, and where its terminator is. -/
structure CString where
  byte : Nat → BitVec 8
  length : Nat
  terminated : byte length = 0#8
  nonzero : ∀ i < length, byte i ≠ 0#8

variable {s t name : CString} {fuel i k : Nat} {r : Int}

def CString.Equal (s t : CString) : Prop := s.length = t.length ∧ ∀ i < s.length, s.byte i = t.byte i

/-- The loop of `strcmp` from `i` on: where it returns, and what. `char` is signed. -/
def strcmp (s t : CString) : Nat → Nat → Option (Nat × Int)
  | 0, _ => none
  | fuel + 1, i =>
    let d := (s.byte i).toInt - (t.byte i).toInt
    if d ≠ 0 then some (i, d) else strcmp s t fuel (i + 1)

/-- `FindSectionHeader` on the names of the sections from the `i`-th on. -/
def findSectionHeader (fuel : Nat) (name : CString) : Nat → List CString → Option (Option Nat)
  | _, [] => some none
  | i, s :: ss => (strcmp s name fuel 0).bind fun r =>
      if r.2 = 0 then some (some i) else findSectionHeader fuel name (i + 1) ss

/-- `strcmp` returns, has read no further than the terminators, and says whether the strings are equal. -/
def Compares (s t : CString) : Prop :=
  ∃ fuel i r, strcmp s t fuel 0 = some (i, r) ∧ i ≤ s.length ∧ i ≤ t.length ∧ (r = 0 ↔ s.Equal t)

def FirstSection (name : CString) (ss : List CString) : Option Nat → Prop
  | none => ∀ s ∈ ss, ¬s.Equal name
  | some i => (∃ s, ss[i]? = some s ∧ s.Equal name) ∧ ∀ s ∈ ss.take i, ¬s.Equal name

theorem ne_zero_of_strcmp : ∀ {fuel i}, strcmp s t fuel i = some (k, r) → r ≠ 0
  | fuel + 1, i, h => by
    rw [strcmp] at h
    split_ifs at h with hd
    · cases h
      exact hd
    · exact ne_zero_of_strcmp h

/-- It returns at the first difference. -/
theorem exists_strcmp : ∀ {fuel i}, i ≤ k → k < i + fuel → s.byte k ≠ t.byte k →
    ∃ j ≤ k, ∃ r, strcmp s t fuel i = some (j, r)
  | 0, i, hi, hk, _ => by omega
  | fuel + 1, i, hi, hk, hne => by
    rw [strcmp]
    split_ifs with hd
    · exact ⟨i, hi, _, rfl⟩
    · have hik : i ≠ k := fun h => hne (BitVec.eq_of_toInt_eq (by subst h; omega))
      exact exists_strcmp (by omega) (by omega) hne

/-- Different strings differ no later than at their terminators. -/
theorem exists_byte_ne (h : ¬s.Equal t) : ∃ k ≤ s.length, k ≤ t.length ∧ s.byte k ≠ t.byte k := by
  rcases lt_trichotomy s.length t.length with hlt | heq | hlt
  · exact ⟨_, le_rfl, hlt.le, s.terminated ▸ (t.nonzero _ hlt).symm⟩
  · by_contra hall
    push Not at hall
    exact h ⟨heq, fun i hi => hall i hi.le (by omega)⟩
  · exact ⟨_, hlt.le, le_rfl, t.terminated ▸ s.nonzero _ hlt⟩

theorem compares_iff : Compares s t ↔ ¬s.Equal t := by
  constructor
  · rintro ⟨_, _, _, hrun, -, -, hr⟩ heq
    exact ne_zero_of_strcmp hrun (hr.2 heq)
  · intro h
    obtain ⟨k, hs, ht, hne⟩ := exists_byte_ne h
    obtain ⟨j, hj, r, hrun⟩ := exists_strcmp (Nat.zero_le k) (by omega : k < 0 + (k + 1)) hne
    exact ⟨_, j, r, hrun, by omega, by omega, iff_of_false (ne_zero_of_strcmp hrun) h⟩

theorem findSectionHeader_none : ∀ {i} {ss : List CString}, (∀ s ∈ ss, ¬s.Equal name) →
    findSectionHeader (name.length + 1) name i ss = some none
  | _, [], _ => rfl
  | i, s :: ss, h => by
    obtain ⟨k, -, hk, hne⟩ := exists_byte_ne (h s List.mem_cons_self)
    obtain ⟨_, -, r, hrun⟩ := exists_strcmp (Nat.zero_le k) (by omega : k < 0 + (name.length + 1)) hne
    rw [findSectionHeader, hrun, Option.bind_some, if_neg (ne_zero_of_strcmp hrun)]
    exact findSectionHeader_none fun t ht => h t (List.mem_cons_of_mem s ht)

/-- All is well exactly if no section has the name. -/
theorem findSectionHeader_iff (name : CString) (ss : List CString) :
    ((∀ s ∈ ss, Compares s name) ∧ ∃ fuel r, findSectionHeader fuel name 0 ss = some r ∧ FirstSection name ss r) ↔
      ∀ s ∈ ss, ¬s.Equal name := by
  constructor
  · exact fun h s hs => compares_iff.1 (h.1 s hs)
  · exact fun h => ⟨fun s hs => compares_iff.2 (h s hs), _, none, findSectionHeader_none h, h⟩

/-- The empty string and itself. -/
theorem not_compares_empty : let s : CString := ⟨fun _ => 0#8, 0, rfl, nofun⟩; ¬Compares s s :=
  fun h => compares_iff.1 h ⟨rfl, nofun⟩

end Liumos.Elf
