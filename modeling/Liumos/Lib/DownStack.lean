/-
Stacks that grow downwards in a range of bytes. A push stores a block right below the top and leaves everything
above it, so that blocks that were pushed stay where they are, one below the other.
-/
import Mathlib.Tactic

namespace DownStack

variable {β : Type}

/-- The bytes by their offsets, and the offset of the top. -/
structure Stack (β : Type) where
  bytes : Nat → β
  top : Nat

/-- The block `d` stands at `p`. -/
def Block (bytes : Nat → β) (p : Nat) (d : List β) : Prop := ∀ j c, d[j]? = some c → bytes (p + j) = c

/-- The top went down, and nothing changed above. -/
structure Kept (s t : Stack β) : Prop where
  top : t.top ≤ s.top
  above : ∀ o, s.top ≤ o → t.bytes o = s.bytes o

structure Pushed (s : Stack β) (d : List β) (t : Stack β) : Prop where
  top : t.top + d.length = s.top
  block : Block t.bytes t.top d
  above : ∀ o, s.top ≤ o → t.bytes o = s.bytes o

/-- Blocks one below the other, from `t` down to `b`, and where they stand. -/
def Laid (bytes : Nat → β) : Nat → List (List β) → List Nat → Nat → Prop
  | t, [], [], b => b = t
  | t, d :: ds, p :: ps, b => p + d.length = t ∧ Block bytes p d ∧ Laid bytes p ds ps b
  | _, [], _ :: _, _ => False
  | _, _ :: _, [], _ => False

section

variable {s t u : Stack β} {d : List β} {ds : List (List β)} {ps : List Nat} {bytes bytes' : Nat → β} {b p i j : Nat}

theorem Kept.refl (s : Stack β) : Kept s s := ⟨le_refl _, fun _ _ => rfl⟩

theorem Kept.trans (h : Kept s t) (h' : Kept t u) : Kept s u :=
  ⟨h'.top.trans h.top, fun o ho => (h'.above o (h.top.trans ho)).trans (h.above o ho)⟩

theorem Pushed.kept (h : Pushed s d t) : Kept s t := ⟨by have := h.top; omega, h.above⟩

theorem Block.congr (h : Block bytes p d) (hb : ∀ o, p ≤ o → bytes' o = bytes o) : Block bytes' p d := by
  intro j c hc
  rw [hb _ (Nat.le_add_right p j), h j c hc]

theorem Laid.congr :
    ∀ {t : Nat} {ds : List (List β)} {ps : List Nat}, Laid bytes t ds ps b → (∀ o, b ≤ o → bytes' o = bytes o) →
    b ≤ t ∧ Laid bytes' t ds ps b
  | t, [], [], h, _ => ⟨h.le, h⟩
  | t, d :: ds, p :: ps, ⟨hp, hd, hrest⟩, hb => by
    obtain ⟨hle, hrest'⟩ := hrest.congr hb
    exact ⟨by omega, hp, hd.congr fun o ho => hb o (hle.trans ho), hrest'⟩

/-- A push, and pushes after it. -/
theorem Laid.cons (hp : Pushed s d t) (hk : Kept t u) (h : Laid u.bytes t.top ds ps u.top) :
    Laid u.bytes s.top (d :: ds) (t.top :: ps) u.top := ⟨hp.top, hp.block.congr hk.above, h⟩

theorem Laid.length_eq : ∀ {t : Nat} {ds : List (List β)} {ps : List Nat}, Laid bytes t ds ps b → ps.length = ds.length
  | _, [], [], _ => rfl
  | _, d :: ds, p :: ps, ⟨_, _, h⟩ => by simp [h.length_eq]

theorem Laid.bottom :
    ∀ {t : Nat} {ds : List (List β)} {ps : List Nat}, Laid bytes t ds ps b → b + (ds.map List.length).sum = t
  | t, [], [], h => h
  | t, d :: ds, p :: ps, ⟨hp, _, h⟩ => by
    have := h.bottom
    simp only [List.map_cons, List.sum_cons]
    omega

/-- Each block with its place. -/
theorem Laid.get :
    ∀ {t : Nat} {ds : List (List β)} {ps : List Nat}, Laid bytes t ds ps b → ∀ {i : Nat} {d : List β} {p : Nat},
    ds[i]? = some d → ps[i]? = some p → Block bytes p d ∧ b ≤ p ∧ p + d.length ≤ t
  | t, d :: ds, p :: ps, ⟨hp, hd, h⟩, 0, d', p', hd', hp' => by
    obtain rfl : d = d' := by simpa using hd'
    obtain rfl : p = p' := by simpa using hp'
    have := h.bottom
    exact ⟨hd, by omega, by omega⟩
  | t, d :: ds, p :: ps, ⟨hp, hd, h⟩, i + 1, d', p', hd', hp' => by
    obtain ⟨h1, h2, h3⟩ := h.get (by simpa using hd' : ds[i]? = some d') (by simpa using hp' : ps[i]? = some p')
    exact ⟨h1, h2, by omega⟩

/-- Later blocks stand below earlier ones. -/
theorem Laid.below :
    ∀ {t : Nat} {ds : List (List β)} {ps : List Nat}, Laid bytes t ds ps b → ∀ {i j : Nat} {d : List β} {p q : Nat},
    i < j → ps[i]? = some q → ds[j]? = some d → ps[j]? = some p → p + d.length ≤ q
  | t, d :: ds, p :: ps, ⟨_, _, h⟩, 0, j + 1, d', p', q, _, hq, hd', hp' => by
    obtain rfl : p = q := by simpa using hq
    exact (h.get (by simpa using hd' : ds[j]? = some d') (by simpa using hp' : ps[j]? = some p')).2.2
  | t, d :: ds, p :: ps, ⟨_, _, h⟩, i + 1, j + 1, d', p', q, hij, hq, hd', hp' =>
    h.below (by omega : i < j) (by simpa using hq) (by simpa using hd' : ds[j]? = some d')
      (by simpa using hp' : ps[j]? = some p')

/-- Where blocks of one size stand. -/
theorem Laid.get_of_length {k : Nat} : ∀ {t : Nat} {ds : List (List β)} {ps : List Nat}, Laid bytes t ds ps b →
    (∀ d ∈ ds, d.length = k) → ∀ {i : Nat} {p : Nat}, ps[i]? = some p → p + k * (i + 1) = t
  | _, [], [], _, _, _, _, hp' => by simp at hp'
  | t, d :: ds, p :: ps, ⟨hp, _, h⟩, hk, 0, p', hp' => by
    obtain rfl : p = p' := by simpa using hp'
    have := hk d List.mem_cons_self
    omega
  | t, d :: ds, p :: ps, ⟨hp, _, h⟩, hk, i + 1, p', hp' => by
    have hrest := h.get_of_length (fun e he => hk e (List.mem_cons_of_mem d he)) (by simpa using hp' : ps[i]? = some p')
    have hd := hk d List.mem_cons_self
    rw [Nat.mul_add k (i + 1) 1]
    omega

end

end DownStack
