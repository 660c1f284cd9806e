/-
The machine the kernel runs on: 64-bit words, one word-addressed physical memory behind a cache of
64-byte lines, and computations that return or panic and leave a state either way.
Sources: generic.h, immintrin.h.
-/
import Liumos.Lib.WriteBack
import Mathlib.Data.Nat.Bitwise
import Mathlib.Tactic

namespace Liumos

/-- What a change of one value leaves as it is. -/
theorem field_update {α β γ : Type} [DecidableEq α] (f : β → γ) {g : α → β} {a : α} {b : β} (h : f b = f (g a))
    (x : α) : f (Function.update g a b x) = f (g x) :=
  (Function.forall_update_iff g fun x b => f b = f (g x)).2 ⟨h, fun _ _ => rfl⟩ x

open BitVec Nat

/-- `uint64_t`. -/
abbrev Word := BitVec 64

/-- Physical memory, one word at each address that is a multiple of 8. The kernel reaches it through
its straight mapping and a process through its page table; both are the same memory here. -/
abbrev Mem := WriteBack.Memory Nat Word

/-! ## Panics -/

/-- How the kernel stops: `Panic(s)`, or a failed `assert(expr)`. A walk along pointers in memory that is
still going on after a given number of rounds is cut off with `diverges`; following a null pointer is
`nullPointer`. -/
inductive Panic where
  | message (s : String)
  | assertFailed (expr : String)
  | nullPointer
  | diverges
  deriving Repr, DecidableEq

/-- A kernel computation on a state: it returns or panics, and leaves a state either way. -/
abbrev KM (σ : Type) := EStateM Panic σ

section KM

variable {σ α β : Type}

/-- `assert(expr)`. -/
def assert (b : Bool) (expr : String) : KM σ Unit := if b then pure () else throw (.assertFailed expr)

variable {x : KM σ α} {f : α → KM σ β} {s s' t : σ} {a : α} {b : Bool} {e : String} {r : EStateM.Result Panic σ α}

theorem run_bind_ok {b : β} (h : (x >>= f).run s = .ok b s') : ∃ a t, x.run s = .ok a t ∧ (f a).run t = .ok b s' := by
  simp only [bind, EStateM.bind, EStateM.run] at h ⊢
  split at h
  · rename_i a t hx; exact ⟨a, t, hx, h⟩
  · cases h

theorem run_bind_eq (h : x.run s = .ok a t) : (x >>= f).run s = (f a).run t := by
  simp only [bind, EStateM.bind, EStateM.run] at h ⊢
  rw [h]

theorem run_get_bind {f : σ → KM σ β} : (get >>= f).run s = (f s).run s := rfl

theorem run_set_bind {f : PUnit → KM σ β} : (set s' >>= f).run s = (f ⟨⟩).run s' := rfl

theorem run_modify_bind {g : σ → σ} {f : PUnit → KM σ β} : (modify g >>= f).run s = (f ⟨⟩).run (g s) := rfl

theorem run_bind_error {e : Panic} (h : x.run s = .error e t) : (x >>= f).run s = .error e t := by
  simp only [bind, EStateM.bind, EStateM.run] at h ⊢
  rw [h]

theorem run_bind_congr {y : KM σ α} (h : x.run s = y.run t) : (x >>= f).run s = (y >>= f).run t := by
  simp only [bind, EStateM.bind, EStateM.run] at h ⊢
  rw [h]

@[simp] theorem run_pure (a : α) (s : σ) : (pure a : KM σ α).run s = .ok a s := rfl

theorem run_pure_ok {b : α} (h : (pure a : KM σ α).run s = .ok b s') : a = b ∧ s = s' := by
  cases h; exact ⟨rfl, rfl⟩

theorem run_assert_ok {u : Unit} (h : (assert b e : KM σ Unit).run s = .ok u s') : b = true ∧ s = s' := by
  unfold assert at h
  split at h
  · rename_i hb; cases h; exact ⟨hb, rfl⟩
  · cases h

theorem of_run_assert_bind {f : Unit → KM σ β} {c : β}
    (h : (assert b e >>= f).run s = .ok c s') : b = true ∧ (f ()).run s = .ok c s' := by
  obtain ⟨_, _, ha, h⟩ := run_bind_ok h
  obtain ⟨hb, rfl⟩ := run_assert_ok ha
  exact ⟨hb, h⟩

theorem run_assert_true (hb : b = true) (e : String) (s : σ) : (assert b e : KM σ Unit).run s = .ok () s := by
  subst hb; rfl

theorem run_assert_false (hb : b = false) (e : String) (s : σ) :
    (assert b e : KM σ Unit).run s = .error (.assertFailed e) s := by
  subst hb; rfl

/-- A computation that leaves a part of the state as it is. -/
def Keeps {τ : Type} (f : σ → τ) (x : KM σ α) : Prop := ∀ s b s', x.run s = .ok b s' → f s' = f s

section Keeps

variable {τ : Type} {f : σ → τ}

theorem Keeps.pure (a : α) : Keeps f (pure a : KM σ α) := by
  intro s b s' h
  rw [(run_pure_ok h).2]

theorem Keeps.get : Keeps f (get : KM σ σ) := by
  intro s b s' h
  cases h
  rfl

theorem Keeps.throw (e : Panic) : Keeps f (throw e : KM σ α) := by
  intro s b s' h
  cases h

theorem Keeps.assert (b : Bool) (e : String) : Keeps f (assert b e : KM σ Unit) := by
  intro s u s' h
  rw [(run_assert_ok h).2]

theorem Keeps.modify {g : σ → σ} (h : ∀ s, f (g s) = f s) : Keeps f (modify g : KM σ PUnit) := by
  intro s u s' hrun
  cases hrun
  exact h s

variable {x : KM σ α}

theorem Keeps.bind {y : α → KM σ β} (hx : Keeps f x) (hy : ∀ a, Keeps f (y a)) : Keeps f (x >>= y) := by
  intro s b s' h
  obtain ⟨a, t, h1, h2⟩ := run_bind_ok h
  rw [hy a t b s' h2, hx s a t h1]

theorem Keeps.ite {c : Prop} [Decidable c] {y : KM σ α} (hx : Keeps f x) (hy : Keeps f y) :
    Keeps f (if c then x else y) := by
  split_ifs
  · exact hx
  · exact hy

end Keeps

/-- Whether a run returned. -/
def returned : EStateM.Result Panic σ α → Bool
  | .ok _ _ => true
  | .error _ _ => false

/-- How a run stopped. -/
def panicked : EStateM.Result Panic σ α → Option Panic
  | .ok _ _ => none
  | .error e _ => some e

theorem exists_of_panicked {e : Panic} (h : panicked r = some e) : ∃ s, r = .error e s := by
  cases r with
  | ok a s => cases h
  | error e' s =>
    cases h
    exact ⟨s, rfl⟩

theorem exists_of_returned (h : returned r = true) : ∃ a s, r = .ok a s := by
  cases r with
  | ok a s => exact ⟨a, s, rfl⟩
  | error e s => cases h

end KM

/-! ## Memory and allocator state -/

/-- Memory and the state of a page allocator. -/
structure World (σ : Type) where
  mem : Mem
  alloc : σ

/-- A kernel computation on memory and the state of a page allocator. -/
abbrev WM (σ : Type) := KM (World σ)

section World

variable {σ : Type}

def load (a : Nat) : WM σ Word := do return (← get).mem.load a

def store (a : Nat) (v : Word) : WM σ Unit := modify fun w => { w with mem := w.mem.store a v }

def clflush (a : Nat) : WM σ Unit := modify fun w => { w with mem := w.mem.flush a }

variable {a : Nat} {w w' : World σ}

theorem of_run_load_bind {β : Type} {f : Word → WM σ β} {b : β}
    (h : (load a >>= f).run w = .ok b w') : (f (w.mem.load a)).run w = .ok b w' := h

theorem run_store_ok {v : Word} {u : Unit} (h : (store a v).run w = .ok u w') :
    w' = { w with mem := w.mem.store a v } := by
  cases h; rfl

end World

/-! ## Pages -/

def kPageSizeExponent : Nat := 12
def kPageSize : Word := 1#64 <<< kPageSizeExponent
def kPageAddrMask : Word := kPageSize - 1#64

def byteSizeToPageSize (byteSize : Word) : Word := (byteSize + kPageSize - 1#64) >>> kPageSizeExponent

/-- The number of pages of a byte size. -/
abbrev pageCount (byteSize : Word) : Nat := (byteSizeToPageSize byteSize).toNat

/-- The word with the `k` lowest bits set. -/
def lowMask (k : Nat) : Word := BitVec.ofNat 64 (2 ^ k - 1)

theorem kPageAddrMask_eq : kPageAddrMask = lowMask 12 := by decide

theorem getLsbD_lowMask (k i : Nat) : (lowMask k).getLsbD i = (decide (i < 64) && decide (i < k)) := by
  simp [lowMask, getLsbD_ofNat, testBit_two_pow_sub_one]

theorem toNat_and_lowMask (x : Word) {k : Nat} (hk : k ≤ 64) : (x &&& lowMask k).toNat = x.toNat % 2 ^ k := by
  have hlt : 2 ^ k - 1 < 2 ^ 64 := by
    have : 2 ^ k ≤ 2 ^ 64 := Nat.pow_le_pow_right (by norm_num) hk
    omega
  rw [toNat_and, lowMask, toNat_ofNat, mod_eq_of_lt hlt, and_two_pow_sub_one_eq_mod]

theorem toNat_and_not_lowMask (x : Word) (k : Nat) : (x &&& ~~~lowMask k).toNat = x.toNat / 2 ^ k * 2 ^ k := by
  have hshift : x &&& ~~~lowMask k = (x >>> k) <<< k := by
    apply eq_of_getLsbD_eq
    intro i hi
    rw [getLsbD_and, getLsbD_not, getLsbD_lowMask, getLsbD_shiftLeft, getLsbD_ushiftRight]
    by_cases hik : i < k
    · simp [hi, hik]
    · simp [hi, hik, Nat.add_sub_cancel' (Nat.le_of_not_lt hik)]
  have hx : x.toNat / 2 ^ k * 2 ^ k < 2 ^ 64 := lt_of_le_of_lt (Nat.div_mul_le_self _ _) x.isLt
  rw [hshift, toNat_shiftLeft, toNat_ushiftRight, Nat.shiftRight_eq_div_pow, Nat.shiftLeft_eq, Nat.mod_eq_of_lt hx]

/-- The page count of a byte size, when rounding up does not overflow. -/
theorem pageCount_eq {n : Word} (h : n.toNat + 4095 < 2 ^ 64) : pageCount n = (n.toNat + 4095) / 4096 := by
  have hs : (n + kPageSize - 1#64).toNat = n.toNat + 4095 := by
    simp only [kPageSize, kPageSizeExponent]
    bv_omega
  rw [pageCount, byteSizeToPageSize, toNat_ushiftRight, hs, shiftRight_eq_div_pow]
  rfl

/-! ## Halves of words -/

/-- A word with its lower half replaced. -/
def setLow32 (w : Word) (d : BitVec 32) : Word := (w &&& 0xFFFFFFFF00000000#64) ||| d.setWidth 64

def low32 (w : Word) : BitVec 32 := w.setWidth 32

theorem low32_setLow32 (w : Word) (d : BitVec 32) : low32 (setLow32 w d) = d := by
  unfold low32 setLow32
  apply eq_of_getLsbD_eq
  intro i hi
  rw [getLsbD_setWidth, getLsbD_or, getLsbD_and, getLsbD_setWidth]
  have hmask : (0xFFFFFFFF00000000#64).getLsbD i = false := by
    interval_cases i <;> rfl
  have h64 : i < 64 := by omega
  simp only [hmask, hi, h64, decide_true, Bool.true_and, Bool.and_false, Bool.false_or]

/-! ## Runs of words -/

/-- Store `f 0, f 1, ..., f (n - 1)` at the `n` words from `a` on. -/
def storeWords (m : Mem) (a : Nat) (f : Nat → Word) : Nat → Mem
  | 0 => m
  | n + 1 => (storeWords m a f n).store (a + 8 * n) (f n)

theorem load_storeWords_ne (m : Mem) (a : Nat) (f : Nat → Word) {x : Nat} :
    ∀ {n : Nat}, (∀ i < n, x ≠ a + 8 * i) → (storeWords m a f n).load x = m.load x
  | 0, _ => rfl
  | n + 1, h => by
    rw [storeWords, WriteBack.Memory.load_store_ne _ _ (h n (lt_succ_self n)),
      load_storeWords_ne m a f (fun i hi => h i (by omega))]

theorem load_storeWords (m : Mem) (a : Nat) (f : Nat → Word) {i : Nat} :
    ∀ {n : Nat}, i < n → (storeWords m a f n).load (a + 8 * i) = f i
  | 0, h => by omega
  | n + 1, h => by
    rw [storeWords, WriteBack.Memory.load_store]
    by_cases hi : i = n
    · subst hi; simp
    · rw [if_neg (by omega), load_storeWords m a f (by omega : i < n)]

/-! ## Cache lines -/

/-- The cache line of an address. -/
def line (a : Nat) : Nat := a / 64

/-- Memory after `CLFlush(buf, size)`: one flush every 64 bytes from `buf` on. -/
def clflushRange (m : Mem) (buf size : Nat) : Mem :=
  (List.range ((size + 63) / 64)).foldl (fun m i => m.flush (buf + 64 * i)) m

/-- `CLFlush(buf, size)`. -/
def clflushSize {σ : Type} (buf size : Nat) : WM σ Unit := modify fun w => { w with mem := clflushRange w.mem buf size }

end Liumos
