/-
Texts and what scanners take from them: runs of characters of one kind, decimal numbers modulo a power of
two, and texts that print tokens with spaces between them.
-/
import Mathlib.Data.List.TakeWhile
import Mathlib.Tactic

namespace Scan

open List Nat

/-! ## Runs of characters -/

/-- A run of `p` does not go on into `rest`. -/
def Stops (p : Char → Bool) (rest : List Char) : Prop := ∀ c ∈ rest.head?, p c = false

section

variable {p : Char → Bool} {w rest : List Char}

theorem stops_cons {c : Char} : Stops p (c :: rest) ↔ p c = false := by simp [Stops]

theorem stops_nil : Stops p [] := by simp [Stops]

theorem takeWhile_of_stops (h : Stops p rest) : rest.takeWhile p = [] := by
  cases rest with
  | nil => rfl
  | cons c rest => simp [takeWhile, stops_cons.1 h]

theorem dropWhile_of_stops (h : Stops p rest) : rest.dropWhile p = rest := by
  cases rest with
  | nil => rfl
  | cons c rest => simp [dropWhile, stops_cons.1 h]

theorem takeWhile_append (hw : ∀ c ∈ w, p c = true) (h : Stops p rest) : (w ++ rest).takeWhile p = w := by
  rw [takeWhile_append_of_pos hw, takeWhile_of_stops h, append_nil]

theorem dropWhile_append (hw : ∀ c ∈ w, p c = true) (h : Stops p rest) : (w ++ rest).dropWhile p = rest := by
  rw [dropWhile_append_of_pos hw, dropWhile_of_stops h]

end

theorem isDigit_of_isAlpha {c : Char} (h : c.isAlpha = true) : c.isDigit = false := by
  delta Char.isAlpha Char.isLower Char.isUpper at h
  simp only [Bool.or_eq_true, Bool.and_eq_true, decide_eq_true_eq] at h
  simp only [Char.isDigit, Bool.and_eq_false_iff, decide_eq_false_iff_not]
  rcases h with ⟨h, -⟩ | ⟨h, -⟩
  · exact .inr fun h' => absurd (UInt32.le_trans h h') (by decide)
  · exact .inr fun h' => absurd (UInt32.le_trans h h') (by decide)

/-! ## Decimal numbers -/

/-- Goes on with a number after digits that gave `num`, and leaves what comes after it. -/
def number {w : Nat} : BitVec w → List Char → BitVec w × List Char
  | num, [] => (num, [])
  | num, c :: rest => if c.isDigit then number (num * 10#w + BitVec.ofNat w (c.toNat - '0'.toNat))
      rest else (num, c :: rest)

section

variable {w : Nat} {rest : List Char}

theorem number_of_stops (num : BitVec w) (h : Stops Char.isDigit rest) : number num rest = (num, rest) := by
  cases rest with
  | nil => rfl
  | cons c rest => simp [number, stops_cons.1 h]

theorem length_number_le : ∀ (num : BitVec w) (s : List Char), (number num s).2.length ≤ s.length
  | _, [] => le_refl _
  | num, c :: s => by
    rw [number]
    split
    · exact (length_number_le _ s).trans (le_succ _)
    · exact le_refl _

theorem number_append (h : Stops Char.isDigit rest) : ∀ digits num, (∀ c ∈ digits, c.isDigit = true) →
      number (BitVec.ofNat w num) (digits ++ rest) = (BitVec.ofNat w (ofDigitChars 10 digits num), rest)
  | [], num, _ => number_of_stops _ h
  | c :: digits, num, hd => by
    have hc : c.isDigit = true := hd c mem_cons_self
    have hnum : BitVec.ofNat w num * 10#w + BitVec.ofNat w (c.toNat - '0'.toNat) =
        BitVec.ofNat w (10 * num + (c.toNat - '0'.toNat)) := by
      rw [BitVec.ofNat_add, BitVec.ofNat_mul, BitVec.mul_comm]
    rw [cons_append, number, if_pos hc, hnum, ofDigitChars_cons]
    exact number_append h digits _ fun d hd' => hd d (mem_cons_of_mem c hd')

/-- Every number is read back from its digits. -/
theorem number_toDigits (n : BitVec w) (h : Stops Char.isDigit rest) :
    number 0#w (toDigits 10 n.toNat ++ rest) = (n, rest) := by
  have hdigits : ∀ c ∈ toDigits 10 n.toNat, c.isDigit = true := fun c hc =>
    isDigit_of_mem_toDigits (by decide) (by decide) hc
  refine (number_append h _ 0 hdigits).trans ?_
  rw [ofDigitChars_toDigits (by decide) (by decide), BitVec.ofNat_toNat, BitVec.setWidth_eq]

/-- The first digit of a number other than zero is not a zero. -/
theorem head_toDigits {n : Nat} (hn : n ≠ 0) : ∃ c rest, toDigits 10 n = c :: rest ∧ c.isDigit = true ∧ c ≠ '0' := by
  induction n using Nat.strong_induction_on with
  | _ n ih =>
    rcases lt_or_ge n 10 with hlt | hge
    · rw [toDigits_of_lt_base hlt]
      exact ⟨_, [], rfl, by interval_cases n <;> decide, by interval_cases n <;> simp_all [digitChar]⟩
    · obtain ⟨c, rest, hdigits, hc⟩ := ih (n / 10) (by omega) (by omega)
      have hsplit := toDigits_append_toDigits (b := 10) (n := n / 10) (d := n % 10) (by decide) (by omega) (by omega)
      rw [div_add_mod, hdigits] at hsplit
      exact ⟨c, rest ++ toDigits 10 (n % 10), hsplit.symm, hc⟩

end

/-! ## Printed tokens -/

/-- A text of tokens with any spaces before, between and after them. -/
inductive Prints {τ : Type} (space : Char → Bool) (text : τ → List Char) : List τ → List Char → Prop
  | nil {ws : List Char} : (∀ c ∈ ws, space c = true) → Prints space text [] ws
  | cons {ws : List Char} {t : τ} {ts : List τ} {rest : List Char} :
      (∀ c ∈ ws, space c = true) → Prints space text ts rest → Prints space text (t :: ts) (ws ++ (text t ++ rest))

namespace Prints

variable {τ : Type} {space p : Char → Bool} {text : τ → List Char} {t : τ} {ts : List τ} {s : List Char}

/-- The same spaces before every token. -/
theorem flatMap (ws : List Char) (hws : ∀ c ∈ ws, space c = true) :
    ∀ ts : List τ, Prints space text ts (ts.flatMap fun t => ws ++ text t)
  | [] => .nil (by simp)
  | t :: ts => by
    rw [flatMap_cons, append_assoc]
    exact .cons hws (flatMap ws hws ts)

theorem dropWhile_nil (h : Prints space text [] s) : s.dropWhile space = [] := by
  cases h with
  | nil hws =>
    have h : (s ++ []).dropWhile space = [] := dropWhile_append hws stops_nil
    rwa [append_nil] at h

/-- After the spaces comes the first token. -/
theorem dropWhile_cons (h : Prints space text (t :: ts) s) (ht : ∀ rest, Stops space (text t ++ rest)) :
    ∃ rest, s.dropWhile space = text t ++ rest ∧ Prints space text ts rest := by
  cases h with
  | cons hws hrest => exact ⟨_, dropWhile_append hws (ht _), hrest⟩

/-- A run goes on neither into the spaces nor into a token that begins with another character. -/
theorem stops (h : Prints space text ts s) (hspace : ∀ c, space c = true → p c = false)
    (hts : ∀ t ∈ ts.head?, ∀ rest, Stops p (text t ++ rest)) : Stops p s := by
  cases h with
  | nil hws =>
    cases s with
    | nil => exact stops_nil
    | cons c ws => exact stops_cons.2 (hspace c (hws c mem_cons_self))
  | @cons ws t ts rest hws _ =>
    cases ws with
    | nil => exact hts t rfl rest
    | cons c ws => exact stops_cons.2 (hspace c (hws c mem_cons_self))

theorem ne_nil (h : Prints space text (t :: ts) s) (ht : text t ≠ []) : s ≠ [] := by
  cases h with
  | cons => simp [ht]

theorem length_le (us : List τ) :
    ∀ {ts : List τ} {s : List Char}, Prints space text (ts ++ us) s → (∀ t ∈ ts, text t ≠ []) →
    ts.length ≤ s.length
  | [], _, _, _ => zero_le _
  | t :: ts, s, h, hts => by
    cases h with
    | cons _ hrest =>
      have htext : 0 < (text t).length := length_pos_iff.2 (hts t mem_cons_self)
      have hlen := length_le us hrest fun u hu => hts u (mem_cons_of_mem t hu)
      simp only [length_cons, length_append]
      omega

end Prints

end Scan
