/-
What `UpdateMap` and `FlushInParent` do to the map and the buffer of a parent, pixel by pixel: inside the
area the map gets the topmost child that is visible there, and the buffer gets the pixels of the child
that is flushed where the map names it. Nothing else changes.
Sources: sheet.h, sheet.cc.
-/
import Liumos.Gui.Sheet
import Liumos.Lib.Layers

namespace Liumos.Gui

open List Function

open Layers (top)

variable {α : Type}

/-- The child covers the point and is opaque there. -/
def visible (h : Sheets α) (x y : Int) (c : α) : Bool :=
  decide ((h c).rect.isPointInRect x y) && (!(h c).isAlphaEnabled || (h c).pixelAt x y >>> 24 != 0#32)

variable {x y : Int} {c : α}

theorem visible_rect {h : Sheets α} (hv : visible h x y c = true) : (h c).rect.isPointInRect x y := by
  unfold visible at hv
  rw [Bool.and_eq_true] at hv
  exact of_decide_eq_true hv.1

/-- The sheets that the link `o` and the links `upper_` from there on lead to. -/
def Chain (h : Sheets α) : Option α → List α → Prop
  | o, [] => o = none
  | o, c :: cs => o = some c ∧ Chain h (h c).upper cs

theorem Chain.congr {h h' : Sheets α} : ∀ {cs : List α} {o : Option α}, (∀ c ∈ cs, (h' c).upper = (h c).upper) →
    Chain h o cs → Chain h' o cs
  | [], _, _, hc => hc
  | c :: cs, _, hu, ⟨ho, hc⟩ => by
    refine ⟨ho, ?_⟩
    rw [hu c mem_cons_self]
    exact hc.congr fun d hd => hu d (mem_cons_of_mem c hd)

variable [DecidableEq α] {h : Sheets α} {root : α} {cs : List α}

/-- `cs` are the children of `root` from the bottom up. -/
structure Family (root : α) (cs : List α) (h : Sheets α) : Prop where
  notMem : root ∉ cs
  nodup : cs.Nodup
  chain : Chain h (h root).bottomChild cs
  parent : ∀ c, c ≠ root → (h c).parent = if c ∈ cs then some root else none
  lineSize : (h root).pixelsPerScanLine = (h root).rect.xsize

theorem Family.ne (hf : Family root cs h) (hc : c ∈ cs) : c ≠ root := fun h => hf.notMem (h ▸ hc)

theorem Family.parent_of_mem (hf : Family root cs h) (hc : c ∈ cs) : (h c).parent = some root := by
  rw [hf.parent c (hf.ne hc), if_pos hc]

/-! ## The parent with another map and buffer -/

def paint (h : Sheets α) (root : α) (map : SheetMap α) (buf : Int → Pixel) : Sheets α :=
  Function.update h root { h root with map := some map, buf := buf }

section

variable {m m' : SheetMap α} {b b' : Int → Pixel} {c : α}

@[simp] theorem paint_root : paint h root m b root = { h root with map := some m, buf := b } := update_self ..

theorem paint_of_ne (hc : c ≠ root) : paint h root m b c = h c := update_of_ne hc ..

theorem paint_map :
    update (paint h root m b) root { paint h root m b root with map := some m' } = paint h root m' b := by
  simp [paint]

theorem paint_buf : update (paint h root m b) root { paint h root m b root with buf := b' } = paint h root m b' := by
  simp [paint]

theorem paint_eq (hm : (h root).map = some m) : paint h root m (h root).buf = h := by
  rw [paint, ← hm]
  exact update_eq_self root h

theorem visible_paint {x y : Int} (hc : c ≠ root) : visible (paint h root m b) x y c = visible h x y c := by
  unfold visible
  rw [paint_of_ne hc]

end

/-! ## The map -/

section

variable {x y w : Int} {target : Rect}

section

omit [DecidableEq α]

theorem drawInMap_apply (hx : 0 ≤ x ∧ x < w) (ht : target.InColumns w) (s : α) (m : SheetMap α) :
    drawInMap h w target s m (y * w + x) = if target.isPointInRect x y ∧ visible h x y s then some s else m
      (y * w + x) := by
  have hloop : drawInMap h w target s m = forRect (target.getIntersectionWith (h s).rect) (paintCell w
      (fun x y => !(h s).isAlphaEnabled || (h s).pixelAt x y >>> 24 != 0#32) fun _ _ => some s) m := by
    unfold drawInMap paintCell
    cases (h s).isAlphaEnabled
    · simp
    · simp only [if_true, Bool.not_true, Bool.false_or, bne_iff_ne, ne_eq, ite_not]
  rw [hloop, forRect_paint hx ht.left]
  refine if_congr ?_ rfl rfl
  rw [Rect.isPointInRect_getIntersectionWith, visible, Bool.and_eq_true, decide_eq_true_eq, and_assoc]

/-- The loop over the children draws each of them. -/
theorem run_drawChildren {s : Sheets α} : ∀ {cs : List α} {o : Option α} {fuel : Nat} (m : SheetMap α), Chain h o cs →
    cs.length ≤ fuel → (drawChildren h w target fuel o m).run s =
      .ok (cs.foldl (fun m c => drawInMap h w target c m) m) s
  | [], o, fuel, m, hc, _ => by
    cases hc
    cases fuel <;> rfl
  | c :: cs, o, fuel + 1, m, ⟨ho, hc⟩, hfuel => by
    subst ho
    exact run_drawChildren (drawInMap h w target c m) hc (Nat.le_of_succ_le_succ hfuel)

/-- It leaves the topmost one that is visible. -/
theorem foldl_drawInMap (hx : 0 ≤ x ∧ x < w) (ht : target.InColumns w) : ∀ (cs : List α) (m : SheetMap α),
    cs.foldl (fun m c => drawInMap h w target c m) m (y * w + x) =
      if target.isPointInRect x y then (top (visible h x y) cs).or (m (y * w + x)) else m (y * w + x)
  | [], m => by simp
  | c :: cs, m => by
    rw [foldl_cons, foldl_drawInMap hx ht cs, drawInMap_apply hx ht]
    by_cases hp : target.isPointInRect x y
    · simp only [hp, true_and, Layers.top_cons]
      cases top (visible h x y) cs <;> cases visible h x y c <;> simp
    · simp [hp]

end

end

/-- The pixels of the parent. -/
def inClient (h : Sheets α) (root : α) (x y : Int) : Prop := (h root).getClientRect.isPointInRect x y

omit [DecidableEq α] in
theorem inClient.column (hp : inClient h root x y) : 0 ≤ x ∧ x < (h root).rect.xsize := by
  unfold inClient Sheet.getClientRect Rect.isPointInRect at hp
  simp only at hp
  omega

/-- The cell of a pixel in the map and the buffer of the parent. -/
def cell (h : Sheets α) (root : α) (x y : Int) : Int := y * (h root).rect.xsize + x

section

variable {fuel : Nat} {m : SheetMap α} {b : Int → Pixel}

theorem run_updateMap (hf : Family root cs h) (hfuel : cs.length ≤ fuel) (target : Rect) (m : SheetMap α) :
    ∃ m', (updateMap fuel root target).run (paint h root m b) = .ok () (paint h root m' b) ∧
      ∀ x y, inClient h root x y → m' (cell h root x y) =
        if target.isPointInRect x y then top (visible h x y) cs else m (cell h root x y) := by
  let h' := paint h root m b
  let w := (h root).rect.xsize
  let t := target.getIntersectionWith (h root).getClientRect
  have ht : t.InColumns w := .right fun _ => ⟨le_refl _, by simp [Sheet.getClientRect, w]⟩
  have hchain : Chain h' (h root).bottomChild cs := hf.chain.congr fun c hc =>
    congrArg Sheet.upper (paint_of_ne (hf.ne hc))
  let m0 : SheetMap α := forRect t (fun x y map => update map (y * w + x) none) m
  refine ⟨cs.foldl (fun m c => drawInMap h' w t c m) m0, ?_, fun x y hp => ?_⟩
  · have hbody : (updateMap fuel root target).run h' = (drawChildren h' w t fuel (h root).bottomChild m0 >>= fun map =>
        modifySheet root fun s => { s with map := some map }).run h' := by
      rw [updateMap, run_get_bind]
      simp only [h', paint_root]
      rw [show (h root).pixelsPerScanLine = w from hf.lineSize]
      rfl
    rw [hbody, run_bind_eq (run_drawChildren m0 hchain hfuel)]
    exact congrArg (EStateM.Result.ok ()) paint_map
  · have hclear : m0 = forRect t (paintCell w (fun _ _ => true) fun _ _ => none) m := rfl
    have hx := hp.column
    have hpt : t.isPointInRect x y ↔ target.isPointInRect x y := by
      rw [Rect.isPointInRect_getIntersectionWith]
      exact and_iff_left hp
    have hvis : top (visible h' x y) cs = top (visible h x y) cs :=
      Layers.top_congr fun c hc => visible_paint (hf.ne hc)
    show foldl _ m0 cs (y * w + x) = if target.isPointInRect x y then _ else m (y * w + x)
    rw [foldl_drawInMap hx ht, hclear, forRect_paint hx ht, hvis, if_congr hpt rfl rfl]
    by_cases hp' : target.isPointInRect x y
    · simp [hpt, hp']
    · simp [hpt, hp', w]

theorem run_updateMaps (hf : Family root cs h) (hfuel : cs.length ≤ fuel) : ∀ (areas : List Rect) (m : SheetMap α),
    ∃ m', (areas.forM (updateMap fuel root)).run (paint h root m b) = .ok () (paint h root m' b) ∧
      ∀ x y, inClient h root x y → m' (cell h root x y) =
        if ∃ r ∈ areas, r.isPointInRect x y then top (visible h x y) cs else m (cell h root x y)
  | [], m => ⟨m, rfl, fun x y _ => by simp⟩
  | r :: areas, m => by
    obtain ⟨m1, hrun1, hm1⟩ := run_updateMap hf hfuel (b := b) r m
    obtain ⟨m2, hrun2, hm2⟩ := run_updateMaps hf hfuel areas m1
    refine ⟨m2, (run_bind_eq hrun1).trans hrun2, fun x y hp => ?_⟩
    rw [hm2 x y hp, hm1 x y hp, ← ite_or]
    refine if_congr ?_ rfl rfl
    rw [exists_mem_cons_iff, or_comm]

/-! ## The buffer -/

/-- Flushing the sheets `l` in the area `r`: where the map names one of them, its pixel is copied. -/
def Flushed (h : Sheets α) (root : α) (m : SheetMap α) (l : List α) (r : Rect) (b b' : Int → Pixel) : Prop :=
  ∀ x y, inClient h root x y → ∀ d, m (cell h root x y) = some d →
    b' (cell h root x y) = if d ∈ l ∧ r.isPointInRect x y then (h d).pixelAt x y else b (cell h root x y)

variable {c : α} {l : List α} {r : Rect}

theorem Flushed.cons {b1 b2 : Int → Pixel} (h1 : Flushed h root m [c] r b b1)
    (h2 : Flushed h root m l r b1 b2) : Flushed h root m (c :: l) r b b2 := by
  intro x y hp d hd
  rw [h2 x y hp d hd, h1 x y hp d hd, ← ite_or]
  refine if_congr ?_ rfl rfl
  rw [← or_and_right, mem_singleton, mem_cons, or_comm]

/-- A flushed pixel that was right is right. -/
theorem Flushed.keeps {b' : Int → Pixel} (hb : Flushed h root m l r b b') {x y : Int} (hp : inClient h root x y) {d : α}
    (hd : m (cell h root x y) = some d) (h0 : b (cell h root x y) = (h d).pixelAt x y) :
    b' (cell h root x y) = (h d).pixelAt x y := by
  rw [hb x y hp d hd, h0, ite_self]

/-- The buffer after the loop of `FlushInParent` over the area `t`. -/
def flushedBuf (h : Sheets α) (root : α) (m : SheetMap α) (c : α) (t : Rect) (b : Int → Pixel) : Int → Pixel :=
  forRect t (paintCell (h root).rect.xsize (fun x y => decide (m (cell h root x y) = some c)) (h c).pixelAt) b

theorem run_flushInParent_eq (hf : Family root cs h) (hc : c ∈ cs) (r : Rect) (b : Int → Pixel) {t : Rect}
    (ht : (h root).getClientRect.getIntersectionWith r = t) :
    (flushInParent c r).run (paint h root m b) = if t.xsize ≤ 0 ∨ t.ysize ≤ 0 then .ok () (paint h root m b)
      else .ok () (paint h root m (flushedBuf h root m c t b)) := by
  rw [flushInParent, run_get_bind, paint_of_ne (hf.ne hc), hf.parent_of_mem hc]
  simp only [paint_root]
  rw [show Sheet.getClientRect { h root with map := some m, buf := b } =
    (h root).getClientRect from rfl, ht, hf.lineSize]
  by_cases hsize : t.xsize ≤ 0 ∨ t.ysize ≤ 0
  · rw [if_pos hsize, if_pos hsize]
    rfl
  · have hloop : (fun x y parentBuf => if m (y * (h root).rect.xsize + x) ≠ some c then parentBuf
        else update parentBuf (y * (h root).rect.xsize + x) ((h c).pixelAt x y)) =
        paintCell (h root).rect.xsize (fun x y => decide (m (cell h root x y) = some c)) (h c).pixelAt := by
      funext x y parentBuf
      simp only [paintCell, cell, ne_eq, ite_not]
      exact if_congr decide_eq_true_iff.symm rfl rfl
    rw [if_neg hsize, if_neg hsize, run_bind_eq (Sheet.run_assertHolds ht hsize _), hloop]
    exact congrArg (EStateM.Result.ok ()) paint_buf

theorem run_flushInParent (hf : Family root cs h) (hc : c ∈ cs) (r : Rect) (b : Int → Pixel) :
    ∃ b', (flushInParent c r).run (paint h root m b) = .ok () (paint h root m b') ∧ Flushed h root m [c] r b b' := by
  obtain ⟨t, ht⟩ : ∃ t, (h root).getClientRect.getIntersectionWith r = t := ⟨_, rfl⟩
  have hpt : ∀ x y, inClient h root x y → (t.isPointInRect x y ↔ r.isPointInRect x y) := by
    intro x y hp
    rw [← ht, Rect.isPointInRect_getIntersectionWith]
    exact and_iff_right hp
  have hrun := run_flushInParent_eq (m := m) hf hc r b ht
  by_cases hsize : t.xsize ≤ 0 ∨ t.ysize ≤ 0
  · rw [if_pos hsize] at hrun
    refine ⟨b, hrun, fun x y hp d _ => ?_⟩
    rw [if_neg]
    rintro ⟨-, hr⟩
    obtain ⟨h1, h2, h3, h4⟩ := (hpt x y hp).2 hr
    omega
  · rw [if_neg hsize] at hrun
    refine ⟨_, hrun, fun x y hp d hd => ?_⟩
    have hcol : t.InColumns (h root).rect.xsize :=
      ht ▸ .left fun _ => ⟨le_refl _, by simp [Sheet.getClientRect]⟩
    show forRect t _ b (y * (h root).rect.xsize + x) = _
    rw [forRect_paint hp.column hcol, hd]
    by_cases hdc : d = c
    · subst hdc
      refine if_congr ?_ rfl rfl
      simp [hpt x y hp]
    · rw [if_neg (by simp [hdc]), if_neg (by simp [hdc]), cell]

theorem run_flushLower (hf : Family root cs h) {c : α} {l2 : List α} (r : Rect) :
    ∀ {l1 : List α} {o : Option α} {fuel : Nat}
    (b : Int → Pixel), (∀ d ∈ l1, d ∈ cs ∧ d ≠ c) → Chain h o (l1 ++ c :: l2) → l1.length < fuel →
    ∃ b', (flushLower c r fuel o).run (paint h root m b) = .ok () (paint h root m b') ∧ Flushed h root m l1 r b b'
  | [], o, fuel + 1, b, _, ⟨ho, _⟩, _ => by
    subst ho
    refine ⟨b, ?_, fun x y _ d _ => by simp⟩
    rw [flushLower, if_pos rfl]
    rfl
  | d :: l1, o, fuel + 1, b, hl, ⟨ho, hchain⟩, hfuel => by
    subst ho
    obtain ⟨hd, hdc⟩ := hl d mem_cons_self
    obtain ⟨b1, hrun1, hb1⟩ := run_flushInParent hf hd r b
    obtain ⟨b2, hrun2, hb2⟩ := run_flushLower hf r b1 (fun e he => hl e (mem_cons_of_mem d he)) hchain
      (Nat.lt_of_succ_lt_succ hfuel)
    refine ⟨b2, ?_, hb1.cons hb2⟩
    rw [flushLower, if_neg hdc, run_bind_eq hrun1]
    show (flushLower c r fuel (paint h root m b1 d).upper).run _ = _
    rw [paint_of_ne (hf.ne hd), hrun2]

end

end Liumos.Gui
