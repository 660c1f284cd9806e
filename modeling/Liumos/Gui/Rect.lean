/-
Rectangles of pixels, and loops over them that write into a row-major array.
Source: rect.h. Coordinates are integers: the sums and differences here stay in the range of `int`.
-/
import Mathlib.Tactic

namespace Liumos.Gui

structure Rect where
  x : Int
  y : Int
  xsize : Int
  ysize : Int
  deriving DecidableEq, Repr

namespace Rect

def getIntersectionWith (r t : Rect) : Rect :=
  if r.xsize < 0 ∨ r.ysize < 0 ∨ t.xsize < 0 ∨ t.ysize < 0 then ⟨0, 0, 0, 0⟩
  else
    let bx := max r.x t.x
    let byy := max r.y t.y
    let bxsize := max (min (r.xsize + r.x - bx) (t.xsize + t.x - bx)) 0
    let bysize := max (min (r.ysize + r.y - byy) (t.ysize + t.y - byy)) 0
    ⟨bx, byy, bxsize, bysize⟩

def getUnionWith (r s : Rect) : Rect :=
  let l := min r.x s.x
  let rr := max (r.x + r.xsize) (s.x + s.xsize)
  let u := min r.y s.y
  let d := max (r.y + r.ysize) (s.y + s.ysize)
  ⟨l, u, rr - l, d - u⟩

def isPointInRect (r : Rect) (px py : Int) : Prop := r.x ≤ px ∧ px < r.x + r.xsize ∧ r.y ≤ py ∧ py < r.y + r.ysize

instance (r : Rect) (px py : Int) : Decidable (r.isPointInRect px py) := inferInstanceAs (Decidable (_ ∧ _ ∧ _ ∧ _))

/-- Not whether the rectangle has no pixels: an empty intersection away from the origin is not meant. -/
def isEmptyRect (r : Rect) : Prop := r.x = 0 ∧ r.y = 0 ∧ r.xsize = 0 ∧ r.ysize = 0

instance (r : Rect) : Decidable r.isEmptyRect := inferInstanceAs (Decidable (_ ∧ _ ∧ _ ∧ _))

variable {r t : Rect} {px py : Int}

theorem isPointInRect_getIntersectionWith :
    (r.getIntersectionWith t).isPointInRect px py ↔ r.isPointInRect px py ∧ t.isPointInRect px py := by
  unfold getIntersectionWith isPointInRect
  split_ifs <;> dsimp only <;> omega

/-- The rectangle lies in the columns `0, ..., w - 1`, if it has any column. -/
def InColumns (w : Int) (r : Rect) : Prop := 0 < r.xsize → 0 ≤ r.x ∧ r.x + r.xsize ≤ w

variable {w : Int}

theorem InColumns.left (h : r.InColumns w) : (r.getIntersectionWith t).InColumns w := by
  unfold InColumns getIntersectionWith at *
  split_ifs <;> dsimp only <;> omega

theorem InColumns.right (h : t.InColumns w) : (r.getIntersectionWith t).InColumns w := by
  unfold InColumns getIntersectionWith at *
  split_ifs <;> dsimp only <;> omega

/-- An intersection that has pixels lies inside. -/
theorem getIntersectionWith_within (hx : 0 < (r.getIntersectionWith t).xsize)
    (hy : 0 < (r.getIntersectionWith t).ysize) :
    r.x ≤ (r.getIntersectionWith t).x ∧ r.y ≤ (r.getIntersectionWith t).y ∧
      (r.getIntersectionWith t).x + (r.getIntersectionWith t).xsize ≤ r.x + r.xsize ∧
      (r.getIntersectionWith t).y + (r.getIntersectionWith t).ysize ≤ r.y + r.ysize := by
  unfold getIntersectionWith at *
  split_ifs at * <;> dsimp only at * <;> omega

end Rect

/-! ## Loops over the pixels of a rectangle -/

section

variable {β : Type}

/-- `n` rounds of `for (i = ...; ...; i++)`. -/
def forRange (f : Int → β → β) : Nat → Int → β → β
  | 0, _, b => b
  | n + 1, i, b => forRange f n (i + 1) (f i b)

/-- `for (y = r.y; y < r.y + r.ysize; y++) for (x = r.x; x < r.x + r.xsize; x++) {...}`. -/
def forRect (r : Rect) (f : Int → Int → β → β) (b : β) : β :=
  forRange (fun y => forRange (fun x => f x y) r.xsize.toNat r.x) r.ysize.toNat r.y b

section

variable {I : β → Prop}

/-- What every round keeps, the loop keeps. -/
theorem forRange_inv {f : Int → β → β} : ∀ (n : Nat) (i : Int) {b : β}, (∀ j b, i ≤ j → j < i + n → I b → I (f j b)) →
    I b → I (forRange f n i b)
  | 0, _, _, _, hb => hb
  | n + 1, i, b, hf, hb => by
    have hrest : ∀ j b, i + 1 ≤ j → j < i + 1 + n → I b → I (f j b) := fun j b h1 h2 => hf j b (by omega) (by omega)
    exact forRange_inv n (i + 1) hrest (hf i b (by omega) (by omega) hb)

variable {f : Int → Int → β → β} {r : Rect}

theorem forRect_inv (hf : ∀ x y b, r.isPointInRect x y → I b → I (f x y b)) {b : β} (hb : I b) : I (forRect r f b) := by
  refine forRange_inv _ _ (fun y b hy1 hy2 hb => forRange_inv _ _ (fun x b hx1 hx2 hb => hf x y b ?_ hb) hb) hb
  unfold Rect.isPointInRect
  omega

/-- What one round brings about and the others keep holds after the loop. -/
theorem forRange_reach {f : Int → β → β} {k : Int} (hkeep : ∀ j b, I b → I (f j b)) (hset : ∀ b, I (f k b)) :
    ∀ (n : Nat) (i : Int) (b : β), i ≤ k → k < i + n → I (forRange f n i b)
  | 0, i, b, h1, h2 => by omega
  | n + 1, i, b, h1, h2 => by
    by_cases hk : i = k
    · subst hk
      exact forRange_inv n (i + 1) (fun j b _ _ => hkeep j b) (hset b)
    · exact forRange_reach hkeep hset n (i + 1) (f i b) (by omega) (by omega)

theorem forRect_reach {x y : Int} (hkeep : ∀ x y b, I b → I (f x y b)) (hset : ∀ b, I (f x y b))
    (hp : r.isPointInRect x y) (b : β) : I (forRect r f b) := by
  unfold Rect.isPointInRect at hp
  refine forRange_reach (k := y) (fun y b hb => forRange_inv _ _ (fun x b _ _ => hkeep x y b) hb) (fun b => ?_) _ _ b
    (by omega) (by omega)
  exact forRange_reach (k := x) (fun x b => hkeep x y b) hset _ _ b (by omega) (by omega)

/-- A part of what the loop computes, when every round computes it from that part. -/
theorem forRange_map {γ : Type} (g : β → γ) {f : Int → β → β} {f' : Int → γ → γ} (hf : ∀ i b, g (f i b) = f' i (g b)) :
    ∀ n i b, g (forRange f n i b) = forRange f' n i (g b)
  | 0, _, _ => rfl
  | n + 1, i, b => by rw [forRange, forRange, forRange_map g hf n (i + 1), hf]

theorem forRect_map {γ : Type} (g : β → γ) {f' : Int → Int → γ → γ} (r : Rect)
    (hf : ∀ x y b, g (f x y b) = f' x y (g b)) (b : β) : g (forRect r f b) = forRect r f' (g b) :=
  forRange_map g (fun y b => forRange_map g (fun x b => hf x y b) _ _ b) _ _ b

end

variable {w : Int} {a b x y : Int}

/-- Pixels have their own cells in a row-major array of width `w`. -/
theorem cell_inj (ha : 0 ≤ a ∧ a < w) (hx : 0 ≤ x ∧ x < w) : y * w + x = b * w + a ↔ y = b ∧ x = a := by
  constructor
  · intro h
    have hdiv : ∀ {u v : Int}, 0 ≤ u ∧ u < w → (v * w + u) / w = v := by
      intro u v hu
      rw [Int.add_comm, Int.add_mul_ediv_right _ _ (by omega), Int.ediv_eq_zero_of_lt hu.1 hu.2, Int.zero_add]
    have hyb : y = b := by rw [← hdiv hx (v := y), h, hdiv ha]
    subst hyb
    exact ⟨rfl, by omega⟩
  · rintro ⟨rfl, rfl⟩
    rfl

/-- A loop body that writes the pixel `(x, y)` where `g` holds. -/
def paintCell (w : Int) (g : Int → Int → Bool) (v : Int → Int → β) (x y : Int) (m : Int → β) : Int → β :=
  if g x y then Function.update m (y * w + x) (v x y) else m

variable {g : Int → Int → Bool} {v : Int → Int → β}

theorem paintCell_apply (m : Int → β) (ha : 0 ≤ a ∧ a < w) (hx : 0 ≤ x ∧ x < w) :
    paintCell w g v x y m (b * w + a) = if b = y ∧ a = x ∧ g a b then v a b else m (b * w + a) := by
  unfold paintCell
  by_cases hxy : b = y ∧ a = x
  · obtain ⟨rfl, rfl⟩ := hxy
    cases g a b <;> simp
  · have hne : b * w + a ≠ y * w + x := fun h => hxy ((cell_inj hx ha).1 h)
    have hg : ¬(b = y ∧ a = x ∧ g a b) := fun h => hxy ⟨h.1, h.2.1⟩
    rw [if_neg hg]
    split
    · exact Function.update_of_ne hne _ _
    · rfl

theorem forRange_row (ha : 0 ≤ a ∧ a < w) : ∀ (n : Nat) (x : Int) (m : Int → β), 0 ≤ x → x + n ≤ w →
    forRange (fun x => paintCell w g v x y) n x m (b * w + a) = if b = y ∧ (x ≤ a ∧ a < x + n) ∧
      g a b then v a b else m (b * w + a)
  | 0, x, m, _, _ => by
    rw [if_neg (by omega)]
    rfl
  | n + 1, x, m, hx, hn => by
    rw [forRange, forRange_row ha n (x + 1) _ (by omega) (by omega), paintCell_apply m ha (by omega), ← ite_or]
    refine if_congr ?_ rfl rfl
    cases g a b
    · simp
    · simp only [and_true]
      omega

theorem forRange_rows (ha : 0 ≤ a ∧ a < w) {k : Nat} (hx : 0 ≤ x) (hk : x + k ≤ w) : ∀ n y m,
    forRange (fun y => forRange (fun x => paintCell w g v x y) k x) n y m (b * w + a) =
      if (y ≤ b ∧ b < y + n) ∧ (x ≤ a ∧ a < x + k) ∧ g a b then v a b else m (b * w + a)
  | 0, y, m => by
    rw [if_neg (by omega)]
    rfl
  | n + 1, y, m => by
    rw [forRange, forRange_rows ha hx hk n (y + 1), forRange_row ha k x m hx hk, ← ite_or]
    refine if_congr ?_ rfl rfl
    cases g a b
    · simp
    · simp only [and_true]
      omega

/-- A loop over a rectangle inside the columns of the array writes the pixels of the rectangle where `g`
holds. -/
theorem forRect_paint {r : Rect} (ha : 0 ≤ a ∧ a < w) (hr : r.InColumns w) (m : Int → β) :
    forRect r (paintCell w g v) m (b * w + a) = if r.isPointInRect a b ∧ g a b then v a b else m (b * w + a) := by
  unfold forRect Rect.isPointInRect
  by_cases hpos : 0 < r.xsize
  · obtain ⟨hx, hw⟩ := hr hpos
    rw [forRange_rows ha hx (by omega)]
    refine if_congr ?_ rfl rfl
    cases g a b
    · simp
    · simp only [and_true]
      omega
  · -- no column, so no write
    have hk : r.xsize.toNat = 0 := by omega
    have hid : ∀ (n : Nat) (y : Int) (m : Int → β), forRange (fun _ m => m) n y m = m := by
      intro n
      induction n with
      | zero => exact fun _ _ => rfl
      | succ n ih => exact fun y m => ih (y + 1) m
    rw [hk, if_neg (by omega)]
    exact congrFun (hid _ _ m) _

end

end Liumos.Gui
