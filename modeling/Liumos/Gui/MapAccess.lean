/-
The cells of a map that are read and written. `UpdateMap` clears the cells of its area counted with the width of
the sheet, and draws the children into cells counted with its pixels per scan line; `FlushInParent` reads cells
counted with the pixels per scan line. The operations on sheets are taken once more with a log of these accesses.
With a map of one cell for each pixel, all accesses are inside the map and each pixel has one cell exactly when
the two counts agree on the pixels of the sheet.
Sources: sheet.h, sheet.cc.
-/
import Liumos.Gui.Compositing
import Liumos.Machine.Trace

namespace Liumos.Gui

open List Function

/-- An access to a cell of the map of the sheet `owner`, made for its pixel `(x, y)`. -/
structure Access (α : Type) where
  owner : α
  x : Int
  y : Int
  cell : Int
  deriving DecidableEq

section

variable {α : Type} [DecidableEq α]

/-! ## The operations with a log -/

namespace Accesses

/-- `map_[cell] = s`. -/
def writeMap (owner : α) (x y cell : Int) (s : Option α) (m : SheetMap α × List (Access α)) :
    SheetMap α × List (Access α) := (Function.update m.1 cell s, m.2 ++ [⟨owner, x, y, cell⟩])

def clearMap (this : α) (xsize : Int) (target : Rect) (m : SheetMap α × List (Access α)) :
    SheetMap α × List (Access α) :=
  forRect target (fun x y m => writeMap this x y (y * xsize + x) none m) m

def drawInMap (h : Sheets α) (this : α) (pixelsPerScanLine : Int) (target : Rect) (s : α)
    (m : SheetMap α × List (Access α)) : SheetMap α × List (Access α) :=
  let inView := target.getIntersectionWith (h s).rect
  if (h s).isAlphaEnabled then
    forRect inView (fun x y m =>
      if (h s).pixelAt x y >>> 24 = 0#32 then m else writeMap this x y (y * pixelsPerScanLine + x) (some s) m) m
  else
    forRect inView (fun x y m => writeMap this x y (y * pixelsPerScanLine + x) (some s) m) m

def drawChildren (h : Sheets α) (this : α) (pixelsPerScanLine : Int) (target : Rect) : Nat → Option α → SheetMap α →
    KM (Logged (Sheets α) (Access α)) (SheetMap α)
  | _, none, map => pure map
  | 0, some _, _ => throw .diverges
  | fuel + 1, some s, map => do
    let m := drawInMap h this pixelsPerScanLine target s (map, [])
    record m.2
    drawChildren h this pixelsPerScanLine target fuel (h s).upper m.1

def updateMap (fuel : Nat) (this : α) (target : Rect) : KM (Logged (Sheets α) (Access α)) Unit := do
  let h := (← get).state
  match (h this).map with
  | none => pure ()
  | some map =>
    let target := target.getIntersectionWith (h this).getClientRect
    let m := clearMap this (h this).rect.xsize target (map, [])
    record m.2
    let map ← drawChildren h this (h this).pixelsPerScanLine target fuel (h this).bottomChild m.1
    onState (modifySheet this fun s => { s with map := some map })

def setMap (fuel : Nat) (this : α) (map : SheetMap α) : KM (Logged (Sheets α) (Access α)) Unit := do
  onState (modifySheet this fun s => { s with map := some map })
  updateMap fuel this ((← get).state this).rect

/-- The loop of `FlushInParent`. -/
def flushPixels (parent this : α) (parentMap : SheetMap α) (parentLineSize : Int) (pixelAt : Int → Int → Pixel)
    (t : Rect) (b : (Int → Pixel) × List (Access α)) : (Int → Pixel) × List (Access α) :=
  forRect t (fun x y b =>
    (if parentMap (y * parentLineSize + x) ≠ some this then b.1
      else Function.update b.1 (y * parentLineSize + x) (pixelAt x y),
      b.2 ++ [⟨parent, x, y, y * parentLineSize + x⟩])) b

def flushInParent (this : α) (r : Rect) : KM (Logged (Sheets α) (Access α)) Unit := do
  let h := (← get).state
  match (h this).parent with
  | none => throw .nullPointer
  | some parent =>
    let t := (h parent).getClientRect.getIntersectionWith r
    if t.xsize ≤ 0 ∨ t.ysize ≤ 0 then pure ()
    else match (h parent).map with
    | none => pure ()
    | some parentMap =>
      (h parent).assertHolds t
      let b := flushPixels parent this parentMap (h parent).pixelsPerScanLine (h this).pixelAt t ((h parent).buf, [])
      record b.2
      onState (modifySheet parent fun s => { s with buf := b.1 })

def flush (this : α) (r : Rect) : KM (Logged (Sheets α) (Access α)) Unit := do
  let h := (← get).state
  match (h this).parent with
  | none => throw .nullPointer
  | some parent =>
    flushInParent this ((h this).flushArea (h parent) r)

def setParent (fuel : Nat) (this : α) (parent : Option α) : KM (Logged (Sheets α) (Access α)) Unit := do
  onState (modifySheet this fun s => { s with parent := parent })
  match parent with
  | none => pure ()
  | some parent =>
    let h := (← get).state
    let holder ← onState (topmostUpperHolder h fuel (.bottomChild parent))
    onState (modifySheet this fun s => { s with upper := holder.read h })
    onState (modify fun h => holder.write h this)
    updateMap fuel parent ((← get).state this).rect
    flush this ((← get).state this).getClientRect

def flushLower (this : α) (r : Rect) : Nat → Option α → KM (Logged (Sheets α) (Access α)) Unit
  | _, none => pure ()
  | 0, some _ => throw .diverges
  | fuel + 1, some s =>
    if s = this then pure ()
    else do
      flushInParent s r
      flushLower this r fuel ((← get).state s).upper

def setPosition (fuel : Nat) (this : α) (x y : Int) : KM (Logged (Sheets α) (Access α)) Unit := do
  let prevRect := ((← get).state this).rect
  onState (modifySheet this fun s => { s with rect := { s.rect with x := x, y := y } })
  match ((← get).state this).parent with
  | none => pure ()
  | some parent =>
    let nextRect := ((← get).state this).rect
    (updatedAreas prevRect nextRect).forM (updateMap fuel parent)
    flushLower this ⟨prevRect.x, prevRect.y, nextRect.xsize, nextRect.ysize⟩ fuel ((← get).state parent).bottomChild
    flushInParent this nextRect

def moveRelative (fuel : Nat) (this : α) (dx dy : Int) : KM (Logged (Sheets α) (Access α)) Unit := do
  let s := (← get).state this
  setPosition fuel this (s.rect.x + dx) (s.rect.y + dy)

def setTopmost (this : α) (isTopmost : Bool) : KM (Logged (Sheets α) (Access α)) Unit :=
  onState (Gui.setTopmost this isTopmost)

def setAlphaEnabled (fuel : Nat) (this : α) (isEnabled : Bool) : KM (Logged (Sheets α) (Access α)) Unit := do
  onState (modifySheet this fun s => { s with isAlphaEnabled := isEnabled })
  if isEnabled then moveRelative fuel this 0 0 else pure ()

end Accesses

/-- The calls that have to do with maps. -/
inductive MapOp (α : Type) where
  | setMap (s : α) (map : SheetMap α)
  | setParent (c : α) (parent : Option α)
  | setPosition (c : α) (x y : Int)
  | moveRelative (c : α) (dx dy : Int)
  | setAlphaEnabled (c : α) (isEnabled : Bool)
  | setTopmost (c : α) (isTopmost : Bool)
  | flush (c : α) (r : Rect)

def MapOp.exec (fuel : Nat) : MapOp α → KM (Sheets α) Unit
  | .setMap s map => Gui.setMap fuel s map
  | .setParent c parent => Gui.setParent fuel c parent
  | .setPosition c x y => Gui.setPosition fuel c x y
  | .moveRelative c dx dy => Gui.moveRelative fuel c dx dy
  | .setAlphaEnabled c isEnabled => Gui.setAlphaEnabled fuel c isEnabled
  | .setTopmost c isTopmost => Gui.setTopmost c isTopmost
  | .flush c r => Gui.flush c r

def MapOp.execLogged (fuel : Nat) : MapOp α → KM (Logged (Sheets α) (Access α)) Unit
  | .setMap s map => Accesses.setMap fuel s map
  | .setParent c parent => Accesses.setParent fuel c parent
  | .setPosition c x y => Accesses.setPosition fuel c x y
  | .moveRelative c dx dy => Accesses.moveRelative fuel c dx dy
  | .setAlphaEnabled c isEnabled => Accesses.setAlphaEnabled fuel c isEnabled
  | .setTopmost c isTopmost => Accesses.setTopmost c isTopmost
  | .flush c r => Accesses.flush c r

/-! ## What is accessed -/

/-- What the cells of a map are counted with. -/
def Sheet.size (s : Sheet α) : Int × Int × Int := (s.rect.xsize, s.rect.ysize, s.pixelsPerScanLine)

/-- An access for a pixel of the sheet, to the cell counted with its width or with its pixels per scan line. -/
def Access.Counted (h : Sheets α) (a : Access α) : Prop :=
  (h a.owner).getClientRect.isPointInRect a.x a.y ∧
    (a.cell = a.y * (h a.owner).rect.xsize + a.x ∨ a.cell = a.y * (h a.owner).pixelsPerScanLine + a.x)

omit [DecidableEq α] in
theorem Access.Counted.congr {h h' : Sheets α} {a : Access α} (hc : a.Counted h)
    (hs : (h' a.owner).size = (h a.owner).size) : a.Counted h' := by
  obtain ⟨hx, hy, hw⟩ : (h' a.owner).rect.xsize = (h a.owner).rect.xsize ∧ (h' a.owner).rect.ysize =
    (h a.owner).rect.ysize ∧
      (h' a.owner).pixelsPerScanLine = (h a.owner).pixelsPerScanLine := by
    simpa only [Sheet.size, Prod.mk.injEq] using hs
  unfold Counted Sheet.getClientRect at hc ⊢
  rwa [hx, hy, hw]

/-- What may happen between two states: no size changes, and counted accesses are added to the log. -/
structure Since (s t : Logged (Sheets α) (Access α)) : Prop where
  size : ∀ d, (t.state d).size = (s.state d).size
  old : ∀ a ∈ s.log, a ∈ t.log
  new : ∀ a ∈ t.log, a ∈ s.log ∨ a.Counted s.state

instance : Std.Refl (Since (α := α)) := ⟨fun _ => ⟨fun _ => rfl, fun _ ha => ha, fun _ ha => .inl ha⟩⟩

instance : IsTrans (Logged (Sheets α) (Access α)) Since where
  trans r s t h1 h2 := by
    refine ⟨fun d => (h2.size d).trans (h1.size d), fun a ha => h2.old a (h1.old a ha), fun a ha => ?_⟩
    rcases h2.new a ha with ha | hc
    · exact h1.new a ha
    · exact .inr (hc.congr (h1.size a.owner).symm)

namespace Accesses

variable {s : Logged (Sheets α) (Access α)}

section

omit [DecidableEq α]

theorem since_record {l : List (Access α)} (hl : ∀ a ∈ l, a.Counted s.state) :
    Since s { s with log := s.log ++ l } where
  size := fun _ => rfl
  old := fun _ ha => mem_append_left l ha
  new := fun a ha => (mem_append.1 ha).imp_right (hl a)

theorem since_modify {g : Sheets α → Sheets α} (hg : ∀ d, (g s.state d).size = (s.state d).size) :
    Since s { s with state := g s.state } where
  size := hg
  old := fun _ ha => ha
  new := fun _ ha => .inl ha

theorem leads_modify {g : Sheets α → Sheets α} (hg : ∀ h d, (g h d).size = (h d).size) :
    Leads Since (onState (modify g)) s :=
  since_modify (hg s.state)

end

variable {h : Sheets α} {f : Sheet α → Sheet α} {this : α}

theorem traces_modifySheet (this : α) (hf : ∀ s, (f s).size = s.size) :
    Traces Since (onState (modifySheet this f)) (modifySheet this f) s :=
  .onState (leads_modify fun _ => field_update Sheet.size (hf _))

theorem traces_modifySheet_bind {k : PUnit → KM (Logged (Sheets α) (Access α)) Unit} {k' : PUnit → KM (Sheets α) Unit}
    (hf : ∀ s, (f s).size = s.size) (hk : ∀ t, Traces Since (k ()) (k' ()) t) :
    Traces Since (onState (modifySheet this f) >>= k) (modifySheet this f >>= k') s :=
  (traces_modifySheet this hf).bind fun _ t => hk t

theorem size_write (h : Sheets α) (c : α) (holder : Holder α) (d : α) : (holder.write h c d).size = (h d).size := by
  cases holder with
  | bottomChild s => exact field_update Sheet.size (by rfl) d
  | upper s => exact field_update Sheet.size (by rfl) d

omit [DecidableEq α] in
theorem counted_snoc {l : List (Access α)} {a : Access α} (hl : ∀ b ∈ l, b.Counted h) (ha : a.Counted h) :
    ∀ b ∈ l ++ [a], b.Counted h := forall_mem_append.2 ⟨hl, forall_mem_singleton.2 ha⟩

section

variable {target : Rect} (hin : ∀ x y, target.isPointInRect x y → (h this).getClientRect.isPointInRect x y)

include hin

section

omit [DecidableEq α]

theorem mem_clearMap (map : SheetMap α) :
    ∀ a ∈ (clearMap this (h this).rect.xsize target (map, [])).2, a.Counted h := by
  refine forRect_inv (I := fun m : SheetMap α × List (Access α) => ∀ a ∈ m.2, a.Counted h) (fun x y m hp hm => ?_) nofun
  exact counted_snoc hm ⟨hin x y hp, .inl rfl⟩

theorem mem_drawInMap (c : α) (map : SheetMap α) :
    ∀ a ∈ (drawInMap h this (h this).pixelsPerScanLine target c (map, [])).2, a.Counted h := by
  have hwrite : ∀ x y (m : SheetMap α × List (Access α)), (target.getIntersectionWith (h c).rect).isPointInRect x y →
      (∀ a ∈ m.2, a.Counted h) → ∀ a ∈ (writeMap this x y (y * (h this).pixelsPerScanLine + x) (some c) m).2,
      a.Counted h := by
    intro x y m hp hm
    exact counted_snoc hm ⟨hin x y (Rect.isPointInRect_getIntersectionWith.1 hp).1, .inr rfl⟩
  unfold drawInMap
  split_ifs with halpha
  · refine forRect_inv (I := fun m : SheetMap α × List (Access α) => ∀ a ∈ m.2, a.Counted h)
      (fun x y m hp hm => ?_) nofun
    split_ifs with hpixel
    · exact hm
    · exact hwrite x y m hp hm
  · exact forRect_inv (I := fun m : SheetMap α × List (Access α) => ∀ a ∈ m.2, a.Counted h) hwrite nofun

omit hin in
theorem drawInMap_fst (w : Int) (c : α) (m : SheetMap α × List (Access α)) :
    (drawInMap h this w target c m).1 = Gui.drawInMap h w target c m.1 := by
  unfold drawInMap Gui.drawInMap
  split_ifs with halpha
  · refine forRect_map Prod.fst _ (fun x y m => ?_) m
    split_ifs with hpixel
    · rfl
    · rfl
  · exact forRect_map Prod.fst _ (fun _ _ _ => rfl) m

theorem traces_drawChildren :
    ∀ (fuel : Nat) (o : Option α) (map : SheetMap α) (s : Logged (Sheets α) (Access α)), s.state = h →
      Traces Since (drawChildren h this (h this).pixelsPerScanLine target fuel o map)
        (Gui.drawChildren h (h this).pixelsPerScanLine target fuel o map) s
  | 0, none, map, s, _ => .pure map s
  | fuel + 1, none, map, s, _ => .pure map s
  | 0, some _, _, s, _ => .throw _ s
  | fuel + 1, some c, map, s, hs => by
    refine .record_bind (since_record (hs ▸ mem_drawInMap hin c map)) ?_
    rw [drawInMap_fst]
    exact traces_drawChildren fuel (h c).upper _ _ hs

end

end

omit [DecidableEq α] in
theorem inClient_of_target (this : α) (target : Rect) (x y : Int)
    (hp : (target.getIntersectionWith (h this).getClientRect).isPointInRect x y) :
    (h this).getClientRect.isPointInRect x y :=
  (Rect.isPointInRect_getIntersectionWith.1 hp).2

omit [DecidableEq α] in
theorem clearMap_fst (xsize : Int) (target : Rect) (m : SheetMap α × List (Access α)) :
    (clearMap this xsize target m).1 = forRect target (fun x y map => update map (y * xsize + x) none) m.1 :=
  forRect_map Prod.fst target (fun _ _ _ => rfl) m

theorem traces_updateMap (fuel : Nat) (this : α) (target : Rect) :
    Traces Since (updateMap fuel this target) (Gui.updateMap fuel this target) s := by
  refine .get_bind ?_
  dsimp only
  cases (s.state this).map with
  | none => exact .pure () s
  | some map =>
    have hin := inClient_of_target (h := s.state) this target
    refine .record_bind (since_record (mem_clearMap hin map)) ?_
    rw [clearMap_fst]
    refine .bind ?_ fun map t => ?_
    · exact traces_drawChildren hin fuel _ _ _ rfl
    · exact traces_modifySheet this fun _ => rfl

theorem flushPixels_fst (parent : α) (parentMap : SheetMap α) (w : Int) (pixelAt : Int → Int → Pixel) (t : Rect)
    (b : (Int → Pixel) × List (Access α)) : (flushPixels parent this parentMap w pixelAt t b).1 =
      forRect t (fun x y b => if parentMap (y * w + x) ≠ some this then b else update b (y * w + x) (pixelAt x y))
      b.1 :=
  forRect_map Prod.fst t (fun _ _ _ => rfl) b

theorem traces_flushInParent (this : α) (r : Rect) :
    Traces Since (flushInParent this r) (Gui.flushInParent this r) s := by
  refine .get_bind ?_
  dsimp only
  cases (s.state this).parent with
  | none => exact .throw _ s
  | some parent =>
    dsimp only
    split_ifs with hsize
    · exact .pure () s
    · cases (s.state parent).map with
      | none => exact .pure () s
      | some parentMap =>
        refine .assert_bind (.record_bind (since_record ?_) ?_)
        · refine forRect_inv (I := fun b : (Int → Pixel) × List (Access α) => ∀ a ∈ b.2, a.Counted s.state)
            (fun x y b hp hb => ?_) nofun
          exact counted_snoc hb ⟨(Rect.isPointInRect_getIntersectionWith.1 hp).1, .inr rfl⟩
        · rw [flushPixels_fst]
          exact traces_modifySheet parent fun _ => rfl

theorem traces_flush (this : α) (r : Rect) : Traces Since (flush this r) (Gui.flush this r) s := by
  refine .get_bind ?_
  dsimp only
  cases (s.state this).parent with
  | none => exact .throw _ s
  | some parent => exact traces_flushInParent this _

section

omit [DecidableEq α]

theorem final_topmostUpperHolder (h s : Sheets α) : ∀ fuel holder, final ((topmostUpperHolder h fuel holder).run s) = s
  | 0, _ => rfl
  | fuel + 1, holder => by
    rw [topmostUpperHolder]
    cases holder.read h with
    | none => rfl
    | some c =>
      dsimp only
      split_ifs with htop
      · rfl
      · exact final_topmostUpperHolder h s fuel (.upper c)

theorem leads_topmostUpperHolder (h : Sheets α) (fuel : Nat) (holder : Holder α) :
    Leads Since (onState (topmostUpperHolder h fuel holder)) s := by
  unfold Leads
  rw [final_onState, final_topmostUpperHolder]
  exact refl_of Since s

end

theorem traces_setParent (fuel : Nat) (this : α) (parent : Option α) :
    Traces Since (setParent fuel this parent) (Gui.setParent fuel this parent) s := by
  refine traces_modifySheet_bind (fun _ => rfl) fun t => ?_
  cases parent with
  | none => exact .pure () t
  | some parent =>
    refine .get_bind ((Traces.onState (leads_topmostUpperHolder _ fuel _)).bind fun holder t => ?_)
    refine traces_modifySheet_bind (fun _ => rfl) fun t => ?_
    refine (Traces.onState (leads_modify fun h d => size_write h this holder d)).bind fun _ t => ?_
    refine .get_bind ((traces_updateMap fuel parent _).bind fun _ t => ?_)
    exact .get_bind (traces_flush this _)

theorem traces_flushLower (this : α) (r : Rect) : ∀ (fuel : Nat) (o : Option α) (s : Logged (Sheets α) (Access α)),
    Traces Since (flushLower this r fuel o) (Gui.flushLower this r fuel o) s
  | 0, none, s => .pure () s
  | fuel + 1, none, s => .pure () s
  | 0, some _, s => .throw _ s
  | fuel + 1, some c, s => by
    rw [flushLower, Gui.flushLower]
    split_ifs with hc
    · exact .pure () s
    · refine (traces_flushInParent c r).bind fun _ t => ?_
      exact .get_bind (traces_flushLower this r fuel _ t)

theorem traces_setPosition (fuel : Nat) (this : α) (x y : Int) :
    Traces Since (setPosition fuel this x y) (Gui.setPosition fuel this x y) s := by
  refine .get_bind (traces_modifySheet_bind (fun _ => rfl) fun t => .get_bind ?_)
  cases (t.state this).parent with
  | none => exact .pure () t
  | some parent =>
    refine Traces.get_bind ((Traces.forM (fun target _ => traces_updateMap fuel parent target) _ t).bind fun _ t => ?_)
    exact .get_bind ((traces_flushLower this _ fuel _ t).bind fun _ _ => traces_flushInParent this _)

theorem traces_moveRelative (fuel : Nat) (this : α) (dx dy : Int) :
    Traces Since (moveRelative fuel this dx dy) (Gui.moveRelative fuel this dx dy) s :=
  .get_bind (traces_setPosition fuel this _ _)

end Accesses

theorem MapOp.traces_exec (fuel : Nat) (ops : List (MapOp α)) (s : Logged (Sheets α) (Access α)) :
    Traces Since (ops.forM (MapOp.execLogged fuel)) (ops.forM (MapOp.exec fuel)) s := by
  refine .forM (fun op s => ?_) ops s
  cases op with
  | setMap c map =>
    refine Accesses.traces_modifySheet_bind (fun _ => rfl) fun t => ?_
    exact .get_bind (Accesses.traces_updateMap fuel c _)
  | setParent c parent => exact Accesses.traces_setParent fuel c parent
  | setPosition c x y => exact Accesses.traces_setPosition fuel c x y
  | moveRelative c dx dy => exact Accesses.traces_moveRelative fuel c dx dy
  | setAlphaEnabled c isEnabled =>
    refine Accesses.traces_modifySheet_bind (fun _ => rfl) fun t => ?_
    cases isEnabled with
    | true => exact Accesses.traces_moveRelative fuel c 0 0
    | false => exact .pure () t
  | setTopmost c isTopmost =>
    exact Accesses.traces_modifySheet c (f := fun s => { s with isTopmost := isTopmost }) fun _ => rfl
  | flush c r => exact Accesses.traces_flush c r

/-- Without their log, the logged calls are the calls. -/
theorem MapOp.erases_exec (fuel : Nat) (ops : List (MapOp α)) :
    Erases (ops.forM (MapOp.execLogged fuel)) (ops.forM (MapOp.exec fuel)) := fun s => (traces_exec fuel ops s).erases

/-- Whatever the calls, and whether they return: all accesses are for pixels of the sheets, to cells counted in one of
the two ways. -/
theorem MapOp.leads_exec (fuel : Nat) (ops : List (MapOp α)) (s : Logged (Sheets α) (Access α)) :
    Leads Since (ops.forM (MapOp.execLogged fuel)) s := (traces_exec fuel ops s).leads

/-! ## Padded lines -/

/-- The accesses to the map of `root` are inside its `cells` cells, and those for one pixel are to one cell. -/
structure AccessesOk (root : α) (cells : Int) (log : List (Access α)) : Prop where
  inside : ∀ a ∈ log, a.owner = root → 0 ≤ a.cell ∧ a.cell < cells
  same : ∀ a ∈ log, ∀ b ∈ log, a.owner = root → b.owner = root → a.x = b.x → a.y = b.y → a.cell = b.cell

omit [DecidableEq α] in
/-- Where both counts give the same cell, the accesses are as they should be. -/
theorem accessesOk_of_counted {root : α} {xsize ysize pixelsPerScanLine : Int}
    (hsize : (h root).size = (xsize, ysize, pixelsPerScanLine))
    (hcount : pixelsPerScanLine = xsize ∨ ysize ≤ 1 ∨ xsize ≤ 0) {log : List (Access α)}
    (hlog : ∀ a ∈ log, a.Counted h) : AccessesOk root (xsize * ysize) log := by
  obtain ⟨hx, hy, hw⟩ : (h root).rect.xsize = xsize ∧ (h root).rect.ysize = ysize ∧
      (h root).pixelsPerScanLine = pixelsPerScanLine := by
    simpa only [Sheet.size, Prod.mk.injEq] using hsize
  have hcell : ∀ a ∈ log, a.owner = root → (0 ≤ a.x ∧ a.x < xsize) ∧ (0 ≤ a.y ∧ a.y < ysize) ∧
      a.cell = a.y * xsize + a.x := by
    intro a ha hroot
    obtain ⟨hp, hc⟩ := hlog a ha
    rw [hroot, Sheet.getClientRect, hx, hy] at hp
    rw [hroot, hx, hw] at hc
    obtain ⟨h1, h2, h3, h4⟩ := hp
    dsimp only at h1 h2 h3 h4
    refine ⟨by omega, by omega, ?_⟩
    rcases hc with hc | hc
    · exact hc
    · rcases hcount with rfl | hline | hempty
      · exact hc
      · -- the only line is the first
        obtain hzero : a.y = 0 := by omega
        rw [hc, hzero, zero_mul, zero_mul]
      · omega
  constructor
  · intro a ha hroot
    obtain ⟨⟨hx1, hx2⟩, ⟨hy1, hy2⟩, hc⟩ := hcell a ha hroot
    have hlines : a.y * xsize ≤ (ysize - 1) * xsize := Int.mul_le_mul_of_nonneg_right (by omega) (by omega)
    have hfirst : 0 ≤ a.y * xsize := Int.mul_nonneg hy1 (by omega)
    rw [Int.sub_mul, Int.one_mul, Int.mul_comm ysize] at hlines
    omega
  · intro a ha b hb hra hrb hab1 hab2
    rw [(hcell a ha hra).2.2, (hcell b hb hrb).2.2, hab1, hab2]

namespace Accesses

variable {s : Logged (Sheets α) (Access α)} {root c : α}

omit [DecidableEq α] in
/-- What is in the log stays there. -/
theorem mem_log_bind {β γ : Type} {x : KM (Logged (Sheets α) (Access α)) β}
    {f : β → KM (Logged (Sheets α) (Access α)) γ} {a : Access α} (ha : a ∈ (final (x.run s)).log)
    (hf : ∀ b t, x.run s = .ok b t → Leads Since (f b) t) : a ∈ (final ((x >>= f).run s)).log := by
  cases hr : x.run s with
  | ok b t =>
    rw [hr] at ha
    rw [run_bind_eq hr]
    exact (hf b t hr).old a ha
  | error e t =>
    rw [hr] at ha
    rw [run_bind_error hr]
    exact ha

/-- A pixel of an opaque child is cleared and drawn. -/
theorem mem_log_updateMap {map : SheetMap α} (hmap : (s.state root).map = some map)
    (hb : (s.state root).bottomChild = some c) (halpha : (s.state c).isAlphaEnabled = false) (target : Rect) {x y : Int}
    (ht : target.isPointInRect x y) (hclient : (s.state root).getClientRect.isPointInRect x y)
    (hrect : (s.state c).rect.isPointInRect x y) (fuel : Nat) :
    ⟨root, x, y, y * (s.state root).rect.xsize + x⟩ ∈ (final ((updateMap (fuel + 1) root target).run s)).log ∧
    ⟨root, x, y, y * (s.state root).pixelsPerScanLine + x⟩ ∈
      (final ((updateMap (fuel + 1) root target).run s)).log := by
  have hwrite : ∀ (cell : Int → Int → Int) (o : Option α) (r : Rect) (m : SheetMap α × List (Access α)),
    r.isPointInRect x y →
      ⟨root, x, y, cell x y⟩ ∈ (forRect r (fun x y m => writeMap root x y (cell x y) o m) m).2 := by
    intro cell o r m hp
    refine forRect_reach (I := fun m : SheetMap α × List (Access α) => (⟨root, x, y, cell x y⟩ : Access α) ∈ m.2)
      (fun x' y' m hm => mem_append_left _ hm) (fun m => ?_) hp m
    exact mem_append_right _ (mem_singleton_self _)
  obtain ⟨t, ht'⟩ : ∃ t, target.getIntersectionWith (s.state root).getClientRect = t := ⟨_, rfl⟩
  have hin : ∀ x y, t.isPointInRect x y → (s.state root).getClientRect.isPointInRect x y :=
    ht' ▸ inClient_of_target (h := s.state) root target
  have htarget : t.isPointInRect x y := ht' ▸ Rect.isPointInRect_getIntersectionWith.2 ⟨ht, hclient⟩
  let m := clearMap root (s.state root).rect.xsize t (map, [])
  let m' := drawInMap s.state root (s.state root).pixelsPerScanLine t c (m.1, [])
  have hbody : (updateMap (fuel + 1) root target).run s = ((record m'.2 >>= fun _ =>
      drawChildren s.state root (s.state root).pixelsPerScanLine t fuel (s.state c).upper m'.1) >>= fun map =>
        onState (modifySheet root fun s => { s with map := some map })).run { s with log := s.log ++ m.2 } := by
    rw [updateMap, run_get_bind]
    simp only [hmap, hb, ht']
    rfl
  have hcleared : ⟨root, x, y, y * (s.state root).rect.xsize + x⟩ ∈ m.2 :=
    hwrite (fun x y => y * (s.state root).rect.xsize + x) none t (map, []) htarget
  have hdrawn : ⟨root, x, y, y * (s.state root).pixelsPerScanLine + x⟩ ∈ m'.2 := by
    have hview : (t.getIntersectionWith (s.state c).rect).isPointInRect x y :=
      Rect.isPointInRect_getIntersectionWith.2 ⟨htarget, hrect⟩
    have hloop := hwrite (fun x y => y * (s.state root).pixelsPerScanLine + x) (some c) _ (m.1, []) hview
    simpa only [m', drawInMap, halpha, Bool.false_eq_true, if_false] using hloop
  have hboth : ∀ a, a ∈ m.2 ∨ a ∈ m'.2 → a ∈ (final ((updateMap (fuel + 1) root target).run s)).log := by
    intro a ha
    rw [hbody]
    refine mem_log_bind (mem_log_bind ?_ fun _ t ht => ?_) fun map t _ =>
      Traces.leads (traces_modifySheet root fun _ => rfl)
    · rcases ha with ha | ha
      · exact mem_append_left _ (mem_append_right _ ha)
      · exact mem_append_right _ ha
    · cases ht
      exact Traces.leads (traces_drawChildren hin fuel _ _ _ rfl)
  exact ⟨hboth _ (.inl hcleared), hboth _ (.inr hdrawn)⟩

/-- The first child of a sheet that has a map. -/
theorem mem_log_setParent {map : SheetMap α} (hc : c ≠ root) (hmap : (s.state root).map = some map)
    (hb : (s.state root).bottomChild = none) (halpha : (s.state c).isAlphaEnabled = false) {x y : Int}
    (hclient : (s.state root).getClientRect.isPointInRect x y) (hrect : (s.state c).rect.isPointInRect x y)
    (fuel : Nat) :
    ⟨root, x, y, y * (s.state root).rect.xsize + x⟩ ∈ (final ((setParent (fuel + 1) c (some root)).run s)).log ∧
    ⟨root, x, y, y * (s.state root).pixelsPerScanLine + x⟩ ∈
      (final ((setParent (fuel + 1) c (some root)).run s)).log := by
  let h1 := update s.state c { s.state c with parent := some root }
  let s2 : Logged (Sheets α) (Access α) := { s with state := adopt s.state root (.bottomChild root) c }
  have hholder : (onState (topmostUpperHolder h1 (fuel + 1) (.bottomChild root))).run { s with state := h1 } =
      .ok (.bottomChild root) { s with state := h1 } := by
    have hnull : (Holder.bottomChild root).read h1 = none := by
      simp only [Holder.read, h1, update_of_ne hc.symm, hb]
    simp only [topmostUpperHolder, hnull]
    rfl
  have hbody : (setParent (fuel + 1) c (some root)).run s = (updateMap (fuel + 1) root (s2.state c).rect >>= fun _ =>
      get >>= fun s => flush c (s.state c).getClientRect).run s2 := run_bind_eq hholder
  obtain ⟨_, _, hroot⟩ := adopt_eq s.state root (.bottomChild root) c root
  obtain ⟨_, _, hself⟩ := adopt_eq s.state root (.bottomChild root) c c
  have hb2 : (s2.state root).bottomChild = some c := by
    show (Holder.bottomChild root).read (attach _ (.bottomChild root) c) = some c
    exact read_attach_self
  have hmap2 : (s2.state root).map = some map := by simp only [s2, hroot, hmap]
  have halpha2 : (s2.state c).isAlphaEnabled = false := by simp only [s2, hself, halpha]
  have hclient2 : (s2.state root).getClientRect.isPointInRect x y := by
    simp only [s2, hroot]
    exact hclient
  have hrect2 : (s2.state c).rect.isPointInRect x y := by simpa only [s2, hself] using hrect
  have hmem := mem_log_updateMap hmap2 hb2 halpha2 (s2.state c).rect hrect2 hclient2 hrect2 fuel
  have hrest : ∀ t, Leads Since (get >>= fun s => flush c (s.state c).getClientRect) t :=
    fun t => (traces_flush (s := t) c (t.state c).getClientRect).leads
  rw [hbody]
  have hxsize : (s2.state root).rect.xsize = (s.state root).rect.xsize := by simp only [s2, hroot]
  have hline : (s2.state root).pixelsPerScanLine = (s.state root).pixelsPerScanLine := by simp only [s2, hroot]
  rw [hxsize, hline] at hmem
  exact ⟨mem_log_bind hmem.1 fun _ t _ => hrest t, mem_log_bind hmem.2 fun _ t _ => hrest t⟩

end Accesses

/-- A sheet with a map, and others of its size without padding, none of them attached. -/
def padded (root : α) (xsize ysize pixelsPerScanLine : Int) : Sheets α := fun s =>
  if s = root then { Sheet.init (fun _ => 0#32) xsize ysize pixelsPerScanLine 0 0 with map := some fun _ => none }
  else .init (fun _ => 0#32) xsize ysize xsize 0 0

theorem padded_root (root : α) (xsize ysize pixelsPerScanLine : Int) : padded root xsize ysize pixelsPerScanLine root =
    { Sheet.init (fun _ => 0#32) xsize ysize pixelsPerScanLine 0 0 with map := some fun _ => none } := if_pos rfl

theorem padded_unlinked (root : α) (xsize ysize pixelsPerScanLine : Int) (s : α) :
    (padded root xsize ysize pixelsPerScanLine s).parent = none ∧
      (padded root xsize ysize pixelsPerScanLine s).bottomChild = none := by
  unfold padded
  split_ifs with hs
  · exact ⟨rfl, rfl⟩
  · exact ⟨rfl, rfl⟩

/-- When a child of the same size is attached, the pixel `(0, 1)` is cleared in one cell and drawn in another. -/
theorem padded_not_ok {root c : α} (hc : c ≠ root) {xsize ysize pixelsPerScanLine : Int}
    (hline : pixelsPerScanLine ≠ xsize) (hy : 1 < ysize) (hx : 0 < xsize) : ¬AccessesOk root (xsize * ysize)
      (final (([.setParent c (some root)] : List (MapOp α)).forM (MapOp.execLogged 1) |>.run
        ⟨padded root xsize ysize pixelsPerScanLine, []⟩)).log := by
  intro hok
  have hpixel : Rect.isPointInRect ⟨0, 0, xsize, ysize⟩ 0 1 := by
    unfold Rect.isPointInRect
    simp only
    omega
  obtain ⟨h, hh⟩ : ∃ h, padded root xsize ysize pixelsPerScanLine = h := ⟨_, rfl⟩
  have hroot := padded_root root xsize ysize pixelsPerScanLine
  have hchild : padded root xsize ysize pixelsPerScanLine c = _ := if_neg hc
  have hmap : (h root).map = some fun _ => none := by rw [← hh, hroot]
  have hb : (h root).bottomChild = none := by rw [← hh, hroot]; rfl
  have halpha : (h c).isAlphaEnabled = false := by rw [← hh, hchild]; rfl
  have hclient : (h root).getClientRect.isPointInRect 0 1 := by rw [← hh, hroot]; exact hpixel
  have hrect : (h c).rect.isPointInRect 0 1 := by rw [← hh, hchild]; exact hpixel
  have hxsize : (h root).rect.xsize = xsize := by rw [← hh, hroot]; rfl
  have hppsl : (h root).pixelsPerScanLine = pixelsPerScanLine := by rw [← hh, hroot]; rfl
  rw [hh] at hok
  obtain ⟨hcleared, hdrawn⟩ := Accesses.mem_log_setParent (s := ⟨h, []⟩) hc hmap hb halpha hclient hrect 0
  have hlast : ∀ t, Leads Since (pure () : KM (Logged (Sheets α) (Access α)) Unit) t := refl_of Since
  have hsame := hok.same _ (Accesses.mem_log_bind hcleared fun _ t _ => hlast t) _
    (Accesses.mem_log_bind hdrawn fun _ t _ => hlast t) rfl rfl rfl rfl
  simp only [hxsize, hppsl] at hsame
  omega

/-- Over all runs from sheets without parents and children: the accesses to the map of `root` are inside a map of one
cell for each pixel, and for each pixel to the same cell, exactly if its lines are not padded, it has one line at
most, or it has no pixels. -/
theorem mapAccesses_ok_iff {root c : α} (hc : c ≠ root) (xsize ysize pixelsPerScanLine : Int) :
    (∀ h : Sheets α, (∀ s, (h s).parent = none ∧ (h s).bottomChild = none) →
      (h root).size = (xsize, ysize, pixelsPerScanLine) → ∀ fuel (ops : List (MapOp α)),
      AccessesOk root (xsize * ysize) (final ((ops.forM (MapOp.execLogged fuel)).run ⟨h, []⟩)).log) ↔
    pixelsPerScanLine = xsize ∨ ysize ≤ 1 ∨ xsize ≤ 0 := by
  constructor
  · intro hall
    by_contra hcount
    simp only [not_or, not_le] at hcount
    obtain ⟨hline, hy, hx⟩ := hcount
    refine padded_not_ok hc hline hy hx (hall _ (padded_unlinked root xsize ysize pixelsPerScanLine) ?_ 1 _)
    rw [padded_root]
    rfl
  · intro hcount h _ hsize fuel ops
    refine accessesOk_of_counted hsize hcount fun a ha => ?_
    rcases (MapOp.leads_exec fuel ops ⟨h, []⟩).new a ha with ha | hcounted
    · cases ha
    · exact hcounted

theorem mapAccesses_ok_unpadded : (1 : Fin 3) ≠ 0 ∧ AccessesOk 0 (8 * 8)
    (final ((([.setMap 0 fun _ => none, .setParent 1 (some 0), .setPosition 1 6 6] : List (MapOp (Fin 3))).forM
      (MapOp.execLogged 2)).run ⟨twoWindows, []⟩)).log :=
  ⟨by decide, (mapAccesses_ok_iff (show (1 : Fin 3) ≠ 0 by decide) 8 8 8).2 (.inl rfl) twoWindows (by decide) rfl 2 _⟩

/-- A screen of one pixel in each of two lines, with padded lines, and a sheet of its size. -/
def paddedScreen : Sheets (Fin 2)
  | 0 => .init (fun _ => 0#32) 1 2 2 0 0
  | 1 => .init (fun _ => 0#32) 1 2 2 0 0

/-- `SetMap` with a map of two cells, then the sheet is attached: its second pixel is drawn behind the map. -/
theorem mapAccesses_padded_outside :
    let log := (final ((([.setMap 0 fun _ => none, .setParent 1 (some 0)] : List (MapOp (Fin 2))).forM
      (MapOp.execLogged 1)).run ⟨paddedScreen, []⟩)).log
    ⟨0, 0, 1, 1⟩ ∈ log ∧ ⟨0, 0, 1, 2⟩ ∈ log ∧ ¬AccessesOk 0 (1 * 2) log := by
  refine ⟨by decide +kernel, by decide +kernel, fun hok => ?_⟩
  have hinside := (hok.inside ⟨0, 0, 1, 2⟩ (by decide +kernel) rfl).2
  revert hinside
  decide

end

end Liumos.Gui
