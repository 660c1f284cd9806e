/-
Sheets: rectangles of pixels that are composed into the buffer of their parent. The parent links its
children from the bottom up, and keeps for each of its pixels the child that shows there.
Sources: sheet.h, sheet.cc. Sheets are known by pointers, of a type `α`; each one has a buffer of its own.
The loops along the children are cut off after `fuel` rounds.
-/
import Liumos.Machine.Basic
import Liumos.Gui.Rect

namespace Liumos.Gui

open Function

/-- A pixel: alpha, red, green and blue, a byte each. -/
abbrev Pixel := BitVec 32

/-- `map_`: for each cell of the buffer a child, or null. -/
abbrev SheetMap (α : Type) := Int → Option α

structure Sheet (α : Type) where
  parent : Option α
  upper : Option α
  bottomChild : Option α
  buf : Int → Pixel
  map : Option (SheetMap α)
  rect : Rect
  pixelsPerScanLine : Int
  isTopmost : Bool
  isAlphaEnabled : Bool

/-- The sheets in memory. -/
abbrev Sheets (α : Type) := α → Sheet α

section

variable {α : Type}

/-- `Init(buf, xsize, ysize, pixels_per_scan_line, x, y)`. -/
def Sheet.init (buf : Int → Pixel) (xsize ysize pixelsPerScanLine x y : Int) : Sheet α where
  parent := none
  upper := none
  bottomChild := none
  buf := buf
  map := none
  rect := ⟨x, y, xsize, ysize⟩
  pixelsPerScanLine := pixelsPerScanLine
  isTopmost := false
  isAlphaEnabled := false

def Sheet.getClientRect (s : Sheet α) : Rect := ⟨0, 0, s.rect.xsize, s.rect.ysize⟩

/-- The pixel of the buffer for a point of the parent. -/
def Sheet.pixelAt (s : Sheet α) (x y : Int) : Pixel := s.buf ((y - s.rect.y) * s.pixelsPerScanLine + (x - s.rect.x))

variable [DecidableEq α]

def modifySheet (this : α) (f : Sheet α → Sheet α) : KM (Sheets α) Unit := modify fun h => update h this (f (h this))

/-! ## The map -/

/-- One round of the loop of `UpdateMap` over the children. -/
def drawInMap (h : Sheets α) (pixelsPerScanLine : Int) (target : Rect) (s : α) (map : SheetMap α) : SheetMap α :=
  let inView := target.getIntersectionWith (h s).rect
  if (h s).isAlphaEnabled then
    forRect inView (fun x y map =>
      if (h s).pixelAt x y >>> 24 = 0#32 then map else update map (y * pixelsPerScanLine + x) (some s)) map
  else
    forRect inView (fun x y map => update map (y * pixelsPerScanLine + x) (some s)) map

/-- `for (s = bottom_child_; s; s = s->upper_)`. -/
def drawChildren (h : Sheets α) (pixelsPerScanLine : Int) (target : Rect) : Nat → Option α → SheetMap α →
    KM (Sheets α) (SheetMap α)
  | _, none, map => pure map
  | 0, some _, _ => throw .diverges
  | fuel + 1, some s, map =>
    drawChildren h pixelsPerScanLine target fuel (h s).upper (drawInMap h pixelsPerScanLine target s map)

def updateMap (fuel : Nat) (this : α) (target : Rect) : KM (Sheets α) Unit := do
  let h ← get
  match (h this).map with
  | none => pure ()
  | some map =>
    let target := target.getIntersectionWith (h this).getClientRect
    let map := forRect target (fun x y map => update map (y * (h this).rect.xsize + x) none) map
    let map ← drawChildren h (h this).pixelsPerScanLine target fuel (h this).bottomChild map
    modifySheet this fun s => { s with map := some map }

def setMap (fuel : Nat) (this : α) (map : SheetMap α) : KM (Sheets α) Unit := do
  modifySheet this fun s => { s with map := some map }
  updateMap fuel this ((← get) this).rect

/-! ## The buffer -/

/-- The assertion of `FlushInParent`: the area is inside the sheet. -/
abbrev Sheet.assertHolds {σ : Type} (s : Sheet α) (t : Rect) : KM σ Unit :=
  assert (decide (0 ≤ t.x ∧ 0 ≤ t.y ∧ t.x + t.xsize ≤ s.rect.xsize ∧ t.y + t.ysize ≤ s.rect.ysize))
    "0 <= tx && 0 <= ty && (tx + tw) <= parent_->rect_.xsize && (ty + th) <= parent_->rect_.ysize"

omit [DecidableEq α] in
theorem Sheet.run_assertHolds {σ : Type} {s : Sheet α} {r t : Rect} (ht : s.getClientRect.getIntersectionWith r = t)
    (hsize : ¬ (t.xsize ≤ 0 ∨ t.ysize ≤ 0)) (w : σ) : (s.assertHolds t).run w = .ok () w := by
  subst ht
  have hwithin := Rect.getIntersectionWith_within (r := s.getClientRect) (t := r) (by omega) (by omega)
  exact run_assert_true (decide_eq_true (by simpa [Sheet.getClientRect] using hwithin)) _ w

/-- The area of the parent that `Flush` hands to `FlushInParent`. -/
abbrev Sheet.flushArea (s parent : Sheet α) (r : Rect) : Rect :=
  parent.getClientRect.getIntersectionWith
    (s.rect.getIntersectionWith ⟨r.x + s.rect.x, r.y + s.rect.y, r.xsize, r.ysize⟩)

/-- `FlushInParent(rx, ry, rw, rh)`: the pixels that the map gives to this sheet. -/
def flushInParent (this : α) (r : Rect) : KM (Sheets α) Unit := do
  let h ← get
  match (h this).parent with
  | none => throw .nullPointer
  | some parent =>
    let t := (h parent).getClientRect.getIntersectionWith r
    if t.xsize ≤ 0 ∨ t.ysize ≤ 0 then pure ()
    else match (h parent).map with
    | none => pure ()
    | some parentMap =>
      (h parent).assertHolds t
      let parentLineSize := (h parent).pixelsPerScanLine
      let parentBuf := forRect t (fun x y parentBuf =>
        if parentMap (y * parentLineSize + x) ≠ some this then parentBuf
        else update parentBuf (y * parentLineSize + x) ((h this).pixelAt x y)) (h parent).buf
      modifySheet parent fun s => { s with buf := parentBuf }

/-- `Flush(rx, ry, rw, rh)`. -/
def flush (this : α) (r : Rect) : KM (Sheets α) Unit := do
  let h ← get
  match (h this).parent with
  | none => throw .nullPointer
  | some parent =>
    flushInParent this ((h this).flushArea (h parent) r)

/-! ## Links -/

/-- A `Sheet**`: the link from a parent to its bottom child, or from a child to the next one. -/
inductive Holder (α : Type) where
  | bottomChild (s : α)
  | upper (s : α)

def Holder.read (h : Sheets α) : Holder α → Option α
  | .bottomChild s => (h s).bottomChild
  | .upper s => (h s).upper

def Holder.write (h : Sheets α) (c : α) : Holder α → Sheets α
  | .bottomChild s => update h s { h s with bottomChild := some c }
  | .upper s => update h s { h s with upper := some c }

/-- The loop of `SetParent`: the link to the first child that is topmost, or the last link. -/
def topmostUpperHolder (h : Sheets α) : Nat → Holder α → KM (Sheets α) (Holder α)
  | 0, _ => throw .diverges
  | fuel + 1, holder =>
    match holder.read h with
    | none => pure holder
    | some s => if (h s).isTopmost then pure holder else topmostUpperHolder h fuel (.upper s)

def setParent (fuel : Nat) (this : α) (parent : Option α) : KM (Sheets α) Unit := do
  modifySheet this fun s => { s with parent := parent }
  match parent with
  | none => pure ()
  | some parent =>
    let h ← get
    let holder ← topmostUpperHolder h fuel (.bottomChild parent)
    modifySheet this fun s => { s with upper := holder.read h }
    modify fun h => holder.write h this
    updateMap fuel parent ((← get) this).rect
    flush this ((← get) this).getClientRect

/-! ## Moving -/

/-- The areas of the parent that `SetPosition` updates. -/
def updatedAreas (prevRect nextRect : Rect) : List Rect :=
  if (prevRect.getIntersectionWith nextRect).isEmptyRect then [prevRect, nextRect]
  else if prevRect = nextRect then [prevRect]
  else if prevRect.x = nextRect.x ∨ prevRect.y = nextRect.y then [prevRect.getUnionWith nextRect]
  else
    let s1 := if prevRect.x < nextRect.x then prevRect else nextRect
    let s2 := if prevRect.x < nextRect.x then nextRect else prevRect
    let dx := s2.x - s1.x
    let dy : Int := (s2.y - s1.y).natAbs
    let w := s1.xsize
    let h := s1.ysize
    if s1.y < s2.y then [⟨s1.x, s1.y, w, dy⟩, ⟨s1.x, s2.y, w + dx, h - dy⟩, ⟨s2.x, s1.y + h, w, dy⟩]
    else [⟨s2.x, s2.y, w, dy⟩, ⟨s1.x, s1.y, w + dx, h - dy⟩, ⟨s1.x, s2.y + h, w, dy⟩]

/-- `for (s = parent_->bottom_child_; s && s != this; s = s->upper_) s->FlushInParent(...)`. -/
def flushLower (this : α) (r : Rect) : Nat → Option α → KM (Sheets α) Unit
  | _, none => pure ()
  | 0, some _ => throw .diverges
  | fuel + 1, some s =>
    if s = this then pure ()
    else do
      flushInParent s r
      flushLower this r fuel ((← get) s).upper

def setPosition (fuel : Nat) (this : α) (x y : Int) : KM (Sheets α) Unit := do
  let prevRect := ((← get) this).rect
  modifySheet this fun s => { s with rect := { s.rect with x := x, y := y } }
  match ((← get) this).parent with
  | none => pure ()
  | some parent =>
    let nextRect := ((← get) this).rect
    (updatedAreas prevRect nextRect).forM (updateMap fuel parent)
    flushLower this ⟨prevRect.x, prevRect.y, nextRect.xsize, nextRect.ysize⟩ fuel ((← get) parent).bottomChild
    flushInParent this nextRect

def moveRelative (fuel : Nat) (this : α) (dx dy : Int) : KM (Sheets α) Unit := do
  let s := (← get) this
  setPosition fuel this (s.rect.x + dx) (s.rect.y + dy)

def setTopmost (this : α) (isTopmost : Bool) : KM (Sheets α) Unit :=
  modifySheet this fun s => { s with isTopmost := isTopmost }

def setAlphaEnabled (fuel : Nat) (this : α) (isEnabled : Bool) : KM (Sheets α) Unit := do
  modifySheet this fun s => { s with isAlphaEnabled := isEnabled }
  if isEnabled then moveRelative fuel this 0 0 else pure ()

end

end Liumos.Gui
