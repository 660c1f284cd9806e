/-
A memory behind a write-back cache, as the history of its stores and line flushes: what a load
sees, which values a crash can leave at an address, and the images a crash can leave behind.

A store reaches memory at some time after it is issued, at the latest when its line is flushed.
Two crash models are given. In `Image` every store issued since the last flush of its line may be
lost on its own; in `LineImage` the stores of one line reach memory in program order, so what
survives is a prefix of them. `MayHold` bounds both from above, one address at a time, and is what
proofs of crash consistency use.
-/
import Mathlib.Logic.Function.Basic
import Mathlib.Data.List.Infix

namespace WriteBack

open Function

/-- One memory operation: a store, or a flush of the line that holds an address. -/
inductive Op (A V : Type) where
  | store (a : A) (v : V)
  | flush (a : A)

/-- A memory: its initial contents and the operations issued since, the newest first. -/
structure Memory (A V : Type) where
  init : A → V
  ops : List (Op A V)

variable {A V L : Type}

/-! ## Histories -/

namespace Memory

/-- A memory no operation has touched yet. -/
def ofInit (f : A → V) : Memory A V := ⟨f, []⟩

def store (m : Memory A V) (a : A) (v : V) : Memory A V := { m with ops := .store a v :: m.ops }

def flush (m : Memory A V) (a : A) : Memory A V := { m with ops := .flush a :: m.ops }

/-- `m` is a point in the history of `m'`. -/
def Before (m m' : Memory A V) : Prop := m.init = m'.init ∧ m.ops <:+ m'.ops

theorem Before.refl (m : Memory A V) : m.Before m := ⟨rfl, List.suffix_refl _⟩

theorem Before.trans {m1 m2 m3 : Memory A V} (h : m1.Before m2) (h' : m2.Before m3) : m1.Before m3 :=
  ⟨h.1.trans h'.1, h.2.trans h'.2⟩

theorem before_store (m : Memory A V) (a : A) (v : V) : m.Before (m.store a v) := ⟨rfl, List.suffix_cons ..⟩

theorem before_flush (m : Memory A V) (a : A) : m.Before (m.flush a) := ⟨rfl, List.suffix_cons ..⟩

/-- The points before a store: the memory after it, or a point before the memory it was issued in. -/
theorem before_store_iff (m c : Memory A V) (a : A) (v : V) :
    c.Before (m.store a v) ↔ c = m.store a v ∨ c.Before m := by
  obtain ⟨_, _⟩ := c
  simp only [Before, store, List.suffix_cons_iff, Memory.mk.injEq]
  tauto

theorem before_flush_iff (m c : Memory A V) (a : A) : c.Before (m.flush a) ↔ c = m.flush a ∨ c.Before m := by
  obtain ⟨_, _⟩ := c
  simp only [Before, flush, List.suffix_cons_iff, Memory.mk.injEq]
  tauto

theorem Before.antisymm {m m' : Memory A V} (h : m.Before m') (h' : m'.Before m) : m = m' := by
  obtain ⟨_, _⟩ := m
  obtain ⟨_, _⟩ := m'
  obtain ⟨hi, ho⟩ := h
  have hlen := List.IsSuffix.eq_of_length_le ho h'.2.length_le
  simp only at hi hlen
  rw [hi, hlen]

/-- `P` holds at every point of the history that `m'` adds to `m`. -/
def Throughout (P : Memory A V → Prop) (m m' : Memory A V) : Prop := ∀ c, c.Before m' → c.Before m ∨ P c

section

variable {P Q : Memory A V → Prop} {m m' m'' : Memory A V}

theorem Throughout.refl (P : Memory A V → Prop) (m : Memory A V) : Throughout P m m := fun _ h => .inl h

section

variable (h : Throughout P m m')

include h

theorem Throughout.store {a : A} {v : V} (hP : P (m'.store a v)) : Throughout P m (m'.store a v) := by
  intro c hc
  rcases (before_store_iff m' c a v).1 hc with rfl | hc
  · exact .inr hP
  · exact h c hc

theorem Throughout.flush {a : A} (hP : P (m'.flush a)) : Throughout P m (m'.flush a) := by
  intro c hc
  rcases (before_flush_iff m' c a).1 hc with rfl | hc
  · exact .inr hP
  · exact h c hc

theorem Throughout.trans (h' : Throughout P m' m'') : Throughout P m m'' := by
  intro c hc
  rcases h' c hc with hc | hP
  · exact h c hc
  · exact .inr hP

theorem Throughout.mono (hPQ : ∀ c, P c → Q c) : Throughout Q m m' := fun c hc => (h c hc).imp_right (hPQ c)

/-- A point between `m` and `m'`. -/
theorem Throughout.between (hm : P m) {c : Memory A V} (h1 : m.Before c) (h2 : c.Before m') : P c := by
  rcases h c h2 with hc | hP
  · exact h1.antisymm hc ▸ hm
  · exact hP

end

end

end Memory

/-! ## Loads -/

variable [DecidableEq A]

def loadFrom (init : A → V) : List (Op A V) → A → V
  | [], x => init x
  | .store a v :: h, x => if x = a then v else loadFrom init h x
  | .flush _ :: h, x => loadFrom init h x

namespace Memory

def load (m : Memory A V) (x : A) : V := loadFrom m.init m.ops x

@[simp] theorem load_ofInit (f : A → V) (x : A) : (ofInit f).load x = f x := rfl

theorem load_store (m : Memory A V) (a : A) (v : V) (x : A) :
    (m.store a v).load x = if x = a then v else m.load x := rfl

@[simp] theorem load_store_self (m : Memory A V) (a : A) (v : V) : (m.store a v).load a = v := by
  simp [load_store]

variable {a : A}

theorem load_store_ne (m : Memory A V) {x : A} (v : V) (h : x ≠ a) : (m.store a v).load x = m.load x := by
  simp [load_store, h]

@[simp] theorem load_flush (m : Memory A V) (a x : A) : (m.flush a).load x = m.load x := rfl

/-- The point at which the last store to `a` was issued. -/
def beforeStore (m : Memory A V) (a : A) : Memory A V := ⟨m.init, go m.ops⟩
where
  go : List (Op A V) → List (Op A V)
    | [] => []
    | .store b _ :: h => if b = a then h else go h
    | .flush _ :: h => go h

theorem beforeStore_store_self (m : Memory A V) (a : A) (v : V) : (m.store a v).beforeStore a = m := by
  simp [beforeStore, beforeStore.go, store]

theorem beforeStore_store_ne (m : Memory A V) {b : A} (v : V) (h : b ≠ a) :
    (m.store b v).beforeStore a = m.beforeStore a := by
  simp [beforeStore, beforeStore.go, store, h]

theorem beforeStore_flush (m : Memory A V) (a b : A) : (m.flush b).beforeStore a = m.beforeStore a := rfl

end Memory

/-! ## What a crash can leave at an address -/

section Crash

variable [DecidableEq L] (line : A → L)

/-- `v` can be at `x` after a crash: the value of a store to `x` issued since the last flush of its
line, or what that flush wrote back. -/
def mayHoldFrom (init : A → V) : List (Op A V) → A → V → Prop
  | [], x, v => v = init x
  | .store a w :: h, x, v => (x = a ∧ v = w) ∨ mayHoldFrom init h x v
  | .flush a :: h, x, v => if line x = line a then v = loadFrom init h x else mayHoldFrom init h x v

def MayHold (m : Memory A V) (x : A) (v : V) : Prop := mayHoldFrom line m.init m.ops x v

theorem mayHold_flush (m : Memory A V) (a x : A) (v : V) :
    MayHold line (m.flush a) x v ↔ if line x = line a then v = m.load x else MayHold line m x v := Iff.rfl

/-- What a load sees can also survive. -/
theorem mayHold_load (m : Memory A V) (x : A) : MayHold line m x (m.load x) := by
  obtain ⟨_, h⟩ := m
  simp only [MayHold, Memory.load]
  induction h with
  | nil => rfl
  | cons o h ih =>
    cases o with
    | store a w =>
      by_cases hx : x = a
      · exact .inl ⟨hx, by simp [loadFrom, hx]⟩
      · exact .inr (by simpa [loadFrom, hx] using ih)
    | flush a =>
      simp only [mayHoldFrom, loadFrom]
      split
      · trivial
      · exact ih

/-- A crash leaves `v` at `x`. -/
def Durable (m : Memory A V) (x : A) (v : V) : Prop := ∀ w, MayHold line m x w → w = v

section

variable {line} {m : Memory A V} {x : A} {v : V}

theorem durable_ofInit (f : A → V) (x : A) : Durable line (Memory.ofInit f) x (f x) := fun _ h => h

theorem Durable.load (h : Durable line m x v) : m.load x = v := h _ (mayHold_load line m x)

theorem Durable.flush (h : Durable line m x v) (a : A) : Durable line (m.flush a) x v := by
  intro w hw
  rw [mayHold_flush] at hw
  split at hw
  · exact hw.trans h.load
  · exact h w hw

variable {a : A}

theorem Durable.store_ne (h : Durable line m x v) (hx : x ≠ a) (w : V) : Durable line (m.store a w) x v := by
  rintro u (⟨rfl, -⟩ | hu)
  · exact absurd rfl hx
  · exact h u hu

/-- A flush of its line makes durable what a load sees. -/
theorem durable_of_flush_line (h : line x = line a) (hl : m.load x = v) : Durable line (m.flush a) x v := by
  intro w hw
  rw [mayHold_flush, if_pos h] at hw
  exact hw.trans hl

end

/-- No store to `x` was issued since the last flush of its line. -/
def flushedFrom : List (Op A V) → A → Prop
  | [], _ => True
  | .store a _ :: h, x => x ≠ a ∧ flushedFrom h x
  | .flush a :: h, x => line x = line a ∨ flushedFrom h x

def Flushed (m : Memory A V) (x : A) : Prop := flushedFrom line m.ops x

instance flushedFrom.decidable : (ops : List (Op A V)) → (x : A) → Decidable (flushedFrom line ops x)
  | [], _ => isTrue trivial
  | .store a _ :: h, x => @instDecidableAnd (x ≠ a) (flushedFrom line h x) _ (flushedFrom.decidable h x)
  | .flush a :: h, x => @instDecidableOr (line x = line a) (flushedFrom line h x) _ (flushedFrom.decidable h x)

instance (m : Memory A V) (x : A) : Decidable (Flushed line m x) := flushedFrom.decidable line m.ops x

section

variable {line} {m : Memory A V} {x : A}

omit [DecidableEq A] [DecidableEq L]

theorem Flushed.flush (h : Flushed line m x) (a : A) : Flushed line (m.flush a) x := .inr h

variable {a : A}

theorem Flushed.store_ne (h : Flushed line m x) (hx : x ≠ a) (v : V) : Flushed line (m.store a v) x := ⟨hx, h⟩

theorem flushed_of_flush_line (m : Memory A V) (h : line x = line a) : Flushed line (m.flush a) x := .inl h

end

/-- All values a crash can leave at an address. -/
def survivorsFrom (init : A → V) : List (Op A V) → A → List V
  | [], x => [init x]
  | .store a w :: h, x => if x = a then w :: survivorsFrom init h x else survivorsFrom init h x
  | .flush a :: h, x => if line x = line a then [loadFrom init h x] else survivorsFrom init h x

def survivors (m : Memory A V) (x : A) : List V := survivorsFrom line m.init m.ops x

variable {m : Memory A V} {x : A} {v : V} {f : A → V}

theorem mem_survivors : v ∈ survivors line m x ↔ MayHold line m x v := by
  obtain ⟨_, ops⟩ := m
  simp only [survivors, MayHold]
  induction ops with
  | nil => simp [survivorsFrom, mayHoldFrom]
  | cons o h ih =>
    cases o with
    | store a w =>
      by_cases hx : x = a
      · subst hx
        simp [survivorsFrom, mayHoldFrom, ih]
      · simp [survivorsFrom, mayHoldFrom, hx, ih]
    | flush a =>
      by_cases hx : line x = line a
      · simp [survivorsFrom, mayHoldFrom, hx]
      · simp [survivorsFrom, mayHoldFrom, hx, ih]

instance [DecidableEq V] (m : Memory A V) (x : A) (v : V) : Decidable (MayHold line m x v) :=
  decidable_of_iff (v ∈ survivors line m x) (mem_survivors line)

instance [DecidableEq V] (m : Memory A V) (x : A) (v : V) : Decidable (Durable line m x v) :=
  decidable_of_iff (∀ w ∈ survivors line m x, w = v) (forall_congr' fun _ => imp_congr_left (mem_survivors line))

/-! ## Crash images -/

/-- The images a crash can leave when any store issued since the last flush of its line may be lost. -/
inductive ImageFrom (init : A → V) : List (Op A V) → (A → V) → Prop
  | start : ImageFrom init [] init
  | kept {h : List (Op A V)} {f : A → V} (a : A) (v : V) : ImageFrom init h f →
      ImageFrom init (.store a v :: h) (Function.update f a v)
  | lost {h : List (Op A V)} {f : A → V} (a : A) (v : V) : ImageFrom init h f →
      ImageFrom init (.store a v :: h) f
  | flushed {h : List (Op A V)} {f : A → V} (a : A) : ImageFrom init h f →
      ImageFrom init (.flush a :: h) (fun x => if line x = line a then loadFrom init h x else f x)

def Image (m : Memory A V) (f : A → V) : Prop := ImageFrom line m.init m.ops f

/-- The images a crash can leave when the stores of one line reach memory in program order: once a
store of a line is lost, the later ones of that line are lost with it. The third argument holds
the lines on which a store has been lost since their last flush. -/
inductive LineImageFrom (init : A → V) : List (Op A V) → (A → V) → (L → Prop) → Prop
  | start : LineImageFrom init [] init (fun _ => False)
  | kept {h : List (Op A V)} {f : A → V} {cut : L → Prop} (a : A) (v : V) : ¬ cut (line a) →
      LineImageFrom init h f cut → LineImageFrom init (.store a v :: h) (Function.update f a v) cut
  | lost {h : List (Op A V)} {f : A → V} {cut : L → Prop} (a : A) (v : V) : LineImageFrom init h f cut →
      LineImageFrom init (.store a v :: h) f (fun l => cut l ∨ l = line a)
  | flushed {h : List (Op A V)} {f : A → V} {cut : L → Prop} (a : A) : LineImageFrom init h f cut →
      LineImageFrom init (.flush a :: h) (fun x => if line x = line a then loadFrom init h x else f x)
        (fun l => cut l ∧ l ≠ line a)

def LineImage (m : Memory A V) (f : A → V) : Prop := ∃ cut, LineImageFrom line m.init m.ops f cut

theorem LineImage.image (h : LineImage line m f) : Image line m f := by
  obtain ⟨_, _⟩ := m
  obtain ⟨_, h⟩ := h
  simp only [Image] at h ⊢
  induction h with
  | start => exact .start
  | kept a v _ _ ih => exact .kept a v ih
  | lost a v _ ih => exact .lost a v ih
  | flushed a _ ih => exact .flushed a ih

/-- Every address of an image holds a value that can survive there. -/
theorem Image.mayHold (h : Image line m f) (x : A) : MayHold line m x (f x) := by
  obtain ⟨_, _⟩ := m
  simp only [Image, MayHold] at h ⊢
  induction h with
  | start => rfl
  | kept a v _ ih =>
    by_cases hx : x = a
    · subst hx; exact .inl ⟨rfl, update_self ..⟩
    · rw [update_of_ne hx]; exact .inr ih
  | lost a v _ ih => exact .inr ih
  | flushed a _ ih =>
    simp only [mayHoldFrom]
    split
    · rfl
    · exact ih

theorem Durable.image_eq (h : Durable line m x v) (hf : Image line m f) : f x = v := h _ (hf.mayHold line x)

/-- Losing nothing is an image. -/
theorem lineImage_load (m : Memory A V) : LineImage line m m.load := by
  obtain ⟨i, ops⟩ := m
  suffices h : ∃ cut : L → Prop, (∀ l, ¬ cut l) ∧ LineImageFrom line i ops (Memory.load ⟨i, ops⟩) cut by
    obtain ⟨cut, -, h⟩ := h
    exact ⟨cut, h⟩
  induction ops with
  | nil => exact ⟨_, fun _ h => h, .start⟩
  | cons o h ih =>
    obtain ⟨cut, hcut, ih⟩ := ih
    cases o with
    | store a v =>
      have hu : Memory.load ⟨i, .store a v :: h⟩ = update (Memory.load ⟨i, h⟩) a v := by
        funext x
        by_cases hx : x = a
        · subst hx; simp [Memory.load, loadFrom]
        · simp [Memory.load, loadFrom, hx, update_of_ne]
      rw [hu]
      exact ⟨cut, hcut, .kept a v (hcut _) ih⟩
    | flush a =>
      have hu : Memory.load ⟨i, .flush a :: h⟩ = fun x =>
          if line x = line a then loadFrom i h x else Memory.load ⟨i, h⟩ x := by
        funext x; simp [Memory.load, loadFrom]
      rw [hu]
      exact ⟨_, fun l hl => hcut l hl.1, .flushed a ih⟩

theorem image_load (m : Memory A V) : Image line m m.load := (lineImage_load line m).image line

/-- Every value that can survive at an address is there in some image. -/
theorem MayHold.image (h : MayHold line m x v) : ∃ f, Image line m f ∧ f x = v := by
  obtain ⟨i, ops⟩ := m
  simp only [MayHold, Image] at h ⊢
  induction ops with
  | nil => exact ⟨i, .start, h.symm⟩
  | cons o ops ih =>
    cases o with
    | store a w =>
      rcases h with ⟨rfl, rfl⟩ | h
      · exact ⟨_, .kept x v (image_load line ⟨i, ops⟩), update_self ..⟩
      · obtain ⟨f, hf, hfx⟩ := ih h
        exact ⟨f, .lost a w hf, hfx⟩
    | flush a =>
      rw [mayHoldFrom] at h
      split at h
      · rename_i hx
        exact ⟨_, .flushed a (image_load line ⟨i, ops⟩), by rw [if_pos hx, h]⟩
      · rename_i hx
        obtain ⟨_, hf, hfx⟩ := ih h
        exact ⟨_, .flushed a hf, by rw [if_neg hx, hfx]⟩

/-- Losing the last store only is an image. -/
theorem lineImage_store_lost (m : Memory A V) (a : A) (v : V) : LineImage line (m.store a v) m.load := by
  obtain ⟨_, h⟩ := lineImage_load line m
  exact ⟨_, .lost a v h⟩

end Crash

end WriteBack
