/-
The text console on a sheet: characters of 8 by 16 pixels at a cursor that wraps at the right edge, goes back over the
left edge on a backspace, and stays on the sheet by scrolling at the lower edge.
Sources: console.cc (`PutCharWithoutLocking`), sheet_painter.cc, sheet.cc, asm.S. The sheet has a buffer. The pixels
that are written are logged, those of the sheet and those of its parent that a flush writes. What is sent to the serial
port and to EFI is kept as text.
-/
import Liumos.Gui.Sheet
import Liumos.Machine.Runs
import Liumos.Machine.Trace

namespace Liumos.Gui

open List Function

/-- A pixel that is written, in the buffer of a sheet or in that of its parent. -/
inductive Write where
  | own (x y : Int)
  | parent (x y : Int)
  deriving DecidableEq, Repr

structure Console (α : Type) where
  cursorX : Int
  cursorY : Int
  sheet : Option α
  serialPort : Option (List (BitVec 8))

/-- The console, the sheets, and what EFI has put out. -/
structure Screen (α : Type) where
  console : Console α
  sheets : Sheets α
  efi : List (BitVec 8)

/-- What is done to the screen, with the pixels that it writes. -/
abbrev Drawing (α : Type) := KM (Logged (Screen α) Write)

/-- A buffer and the pixels written to it. -/
abbrev Buffer := (Int → Pixel) × List Write

section

variable {α : Type} [DecidableEq α]

/-! ## Stores to a buffer -/

def writePixel (lineSize x y : Int) (col : Pixel) (b : Buffer) : Buffer :=
  (Function.update b.1 (y * lineSize + x) col, b.2 ++ [.own x y])

/-- Pixels from `(x, y)` on, the `i`-th one with `col i`. -/
def repeat4Bytes (lineSize : Int) (count : Nat) (x y : Int) (col : Int → Buffer → Pixel) (b : Buffer) : Buffer :=
  forRange (fun i b => writePixel lineSize (x + i) y (col i b) b) count 0 b

/-- Two pixels at a time. -/
def repeat8Bytes (lineSize : Int) (count : Nat) (x y : Int) (col : Int → Buffer → Pixel) (b : Buffer) : Buffer :=
  forRange (fun i b => writePixel lineSize (x + (2 * i + 1)) y (col (2 * i + 1) b)
    (writePixel lineSize (x + 2 * i) y (col (2 * i) b) b))
    count 0 b

/-- `RepeatStore4Bytes(count, &b32[y * lineSize + x], col)`. -/
def repeatStore4Bytes (lineSize : Int) (count : Nat) (x y : Int) (col : Pixel) : Buffer → Buffer :=
  repeat4Bytes lineSize count x y fun _ _ => col

/-- `RepeatStore8Bytes(count, &b32[y * lineSize + x], col << 32 | col)`. -/
def repeatStore8Bytes (lineSize : Int) (count : Nat) (x y : Int) (col : Pixel) : Buffer → Buffer :=
  repeat8Bytes lineSize count x y fun _ _ => col

def repeatMove4Bytes (lineSize : Int) (count : Nat) (x y fromX fromY : Int) : Buffer → Buffer :=
  repeat4Bytes lineSize count x y fun i b => b.1 (fromY * lineSize + (fromX + i))

def repeatMove8Bytes (lineSize : Int) (count : Nat) (x y fromX fromY : Int) : Buffer → Buffer :=
  repeat8Bytes lineSize count x y fun i b => b.1 (fromY * lineSize + (fromX + i))

/-! ## Painting -/

/-- A computation on the sheets of the screen. -/
def onSheets {β : Type} (x : KM (Sheets α) β) : KM (Screen α) β := fun s =>
  match x.run s.sheets with
  | .ok a h => .ok a { s with sheets := h }
  | .error e h => .error e { s with sheets := h }

/-- The stores `f` to the buffer of a sheet. -/
def paintBuf (h : Sheets α) (this : α) (f : Buffer → Buffer) : Drawing α Unit := do
  let b := f ((h this).buf, [])
  record b.2
  onState (onSheets (modifySheet this fun s => { s with buf := b.1 }))

/-- The loop of `FlushInParent`. -/
def flushPixels (this : α) (parentMap : SheetMap α) (parentLineSize : Int) (pixelAt : Int → Int → Pixel) (t : Rect)
    (b : Buffer) : Buffer :=
  forRect t (fun x y b =>
    if parentMap (y * parentLineSize + x) ≠ some this then b
    else (Function.update b.1 (y * parentLineSize + x) (pixelAt x y), b.2 ++ [.parent x y])) b

namespace Writes

def flushInParent (this : α) (r : Rect) : Drawing α Unit := do
  let h := (← get).state.sheets
  match (h this).parent with
  | none => throw .nullPointer
  | some parent =>
    let t := (h parent).getClientRect.getIntersectionWith r
    if t.xsize ≤ 0 ∨ t.ysize ≤ 0 then pure ()
    else match (h parent).map with
    | none => pure ()
    | some parentMap =>
      (h parent).assertHolds t
      paintBuf h parent (flushPixels this parentMap (h parent).pixelsPerScanLine (h this).pixelAt t)

def flush (this : α) (r : Rect) : Drawing α Unit := do
  let h := (← get).state.sheets
  match (h this).parent with
  | none => throw .nullPointer
  | some parent =>
    flushInParent this ((h this).flushArea (h parent) r)

end Writes

/-- `DrawCharacter(s, c, px, py, true)`. -/
def drawCharacter (font : BitVec 8 → Nat → BitVec 8) (this : α) (c : BitVec 8) (px py : Int) : Drawing α Unit := do
  let h := (← get).state.sheets
  paintBuf h this (forRect ⟨px, py, 8, 16⟩ fun x y => writePixel (h this).pixelsPerScanLine x y
    (if (font c (y - py).toNat >>> (7 - (x - px)).toNat) &&& 1#8 ≠ 0#8 then 0xffffff#32 else 0#32))
  Writes.flush this ⟨px, py, 8, 16⟩

/-- `DrawRect(s, px, py, w, h, col, true)`. -/
def drawRect (this : α) (px py w h : Int) (col : Pixel) : Drawing α Unit := do
  let sheets := (← get).state.sheets
  let lineSize := (sheets this).pixelsPerScanLine
  paintBuf sheets this (forRange (fun y =>
    if w % 2 = 1 then repeatStore4Bytes lineSize w.toNat px y col else repeatStore8Bytes lineSize (w / 2).toNat px y
    col) h.toNat py)
  Writes.flush this ⟨px, py, w, h⟩

def blockTransfer (this : α) (toX toY fromX fromY w h : Int) : Drawing α Unit := do
  let sheets := (← get).state.sheets
  let lineSize := (sheets this).pixelsPerScanLine
  paintBuf sheets this (forRange (fun dy =>
    if w % 2 = 1 then repeatMove4Bytes lineSize w.toNat toX (toY + dy) fromX (fromY + dy)
    else repeatMove8Bytes lineSize (w / 2).toNat toX (toY + dy) fromX (fromY + dy)) h.toNat 0)
  Writes.flush this ⟨toX, toY, w, h⟩

/-! ## Characters -/

/-- The character `'\n'`. -/
def newline : BitVec 8 := 0x0A#8

/-- The character `'\b'`. -/
def backspace : BitVec 8 := 0x08#8

def setCursor (x y : Int) : Drawing α Unit :=
  onState (modify fun s => { s with console := { s.console with cursorX := x, cursorY := y } })

/-- What goes to the serial port, with `'\r'` before `'\n'`. -/
def sendSerial (c : BitVec 8) : Drawing α Unit :=
  onState (modify fun s => { s with console := { s.console with
    serialPort := s.console.serialPort.map fun sent => sent ++ if c = newline then [0x0D#8, c] else [c] } })

def putWChar (c : BitVec 8) : Drawing α Unit :=
  onState (modify fun s => { s with efi := s.efi ++ if c = newline then [0x0D#8, c] else [c] })

/-- The character is drawn, or moves the cursor. -/
def advance (font : BitVec 8 → Nat → BitVec 8) (this : α) (c : BitVec 8) : Drawing α Unit := do
  let k := (← get).state.console
  if c = newline then setCursor 0 (k.cursorY + 16)
  else if c = backspace then setCursor (k.cursorX - 8) k.cursorY
  else
    drawCharacter font this c k.cursorX k.cursorY
    setCursor (k.cursorX + 8) k.cursorY

/-- The cursor is brought back between the left and the right edge. `n & ~7` is `n - n % 8`. -/
def wrap (this : α) : Drawing α Unit := do
  let s := (← get).state
  let xsize := (s.sheets this).rect.xsize
  if xsize ≤ s.console.cursorX then setCursor 0 (s.console.cursorY + 16)
  else if s.console.cursorX < 0 then setCursor (xsize - 8 - (xsize - 8) % 8) (s.console.cursorY - 16)
  else pure ()

/-- A backspace clears the character it went back to. -/
def eraseBack (this : α) (c : BitVec 8) : Drawing α Unit := do
  let k := (← get).state.console
  if c = backspace then drawRect this k.cursorX k.cursorY 8 16 0#32 else pure ()

def scroll (this : α) : Drawing α Unit := do
  let s := (← get).state
  let r := (s.sheets this).rect
  if r.ysize < s.console.cursorY + 16 then
    blockTransfer this 0 0 0 16 r.xsize (r.ysize - 16)
    drawRect this 0 (s.console.cursorY - 16) r.xsize 16 0#32
    setCursor s.console.cursorX (s.console.cursorY - 16)
  else pure ()

def putCharWithoutLocking (font : BitVec 8 → Nat → BitVec 8) (c : BitVec 8) : Drawing α Unit := do
  sendSerial c
  match (← get).state.console.sheet with
  | none => putWChar c
  | some this =>
    advance font this c
    wrap this
    eraseBack this c
    scroll this

/-! ## A flush is the flush of the sheets -/

theorem flushPixels_fst (this : α) (parentMap : SheetMap α) (w : Int) (pixelAt : Int → Int → Pixel) (t : Rect)
    (b : Buffer) :
    (flushPixels this parentMap w pixelAt t b).1 =
      forRect t (fun x y b => if parentMap (y * w + x) ≠ some this then b else update b (y * w + x) (pixelAt x y))
      b.1 := by
  refine forRect_map Prod.fst t (fun x y b => ?_) b
  split_ifs
  · rfl
  · rfl

section

omit [DecidableEq α]

theorem onSheets_get_bind {β : Type} (f : Sheets α → KM (Sheets α) β) :
    onSheets (get >>= f) = get >>= fun s => onSheets (f s.sheets) := rfl

theorem onSheets_assert_bind {β : Type} (b : Bool) (e : String) (f : Unit → KM (Sheets α) β) :
    onSheets (assert b e >>= f) = assert b e >>= fun a => onSheets (f a) := by
  cases b with
  | true => rfl
  | false => rfl

end

theorem erases_flushInParent (this : α) (r : Rect) :
    Erases (Writes.flushInParent this r) (onSheets (Gui.flushInParent this r)) := by
  unfold Gui.flushInParent
  rw [onSheets_get_bind]
  refine .get_bind fun s => ?_
  dsimp only
  cases (s.state.sheets this).parent with
  | none => exact .throw _
  | some parent =>
    dsimp only
    split_ifs with hempty
    · exact .pure ()
    · cases (s.state.sheets parent).map with
      | none => exact .pure ()
      | some parentMap =>
        dsimp only
        rw [onSheets_assert_bind]
        refine (Erases.assert _ _).bind fun _ => Erases.record_bind ?_
        rw [flushPixels_fst]
        exact Erases.onState _

/-- Without the log, a flush is that of the sheets. -/
theorem erases_flush (this : α) (r : Rect) : Erases (Writes.flush this r) (onSheets (Gui.flush this r)) := by
  unfold Gui.flush
  rw [onSheets_get_bind]
  refine .get_bind fun s => ?_
  dsimp only
  cases (s.state.sheets this).parent with
  | none => exact .throw _
  | some parent => exact erases_flushInParent this _

/-! ## What is written -/

/-- The sheet of a console, its rectangle and that of its parent. -/
structure Place (α : Type) where
  sheet : α
  rect : Rect
  parentRect : Rect

/-- A pixel of the sheet in `area`, or a pixel of the parent that the sheet covers. -/
def Write.Within (area : Rect) (P : Place α) : Write → Prop
  | .own x y => area.isPointInRect x y
  | .parent x y => P.rect.isPointInRect x y ∧ Rect.isPointInRect ⟨0, 0, P.parentRect.xsize, P.parentRect.ysize⟩ x y

/-- The console is at `P` with the cursor at `p`. -/
structure Place.At (P : Place α) (p : Int × Int) (s : Screen α) : Prop where
  sheet : s.console.sheet = some P.sheet
  rect : (s.sheets P.sheet).rect = P.rect
  parent : ∃ parent, (s.sheets P.sheet).parent = some parent ∧ (s.sheets parent).rect = P.parentRect
  cursorX : s.console.cursorX = p.1
  cursorY : s.console.cursorY = p.2

/-- The drawing returns with the cursor at `p`. All that it writes has `Q`, and what has `M` is written. -/
def Paints (P : Place α) (m : Drawing α Unit) (s : Logged (Screen α) Write) (p : Int × Int)
    (Q M : Write → Prop) : Prop :=
  ∃ t l, m.run s = .ok () t ∧ P.At p t.state ∧ t.log = s.log ++ l ∧ (∀ a ∈ l, Q a) ∧ ∀ a, M a → a ∈ l

section

variable {P : Place α} {area : Rect} {p q : Int × Int} {s t : Logged (Screen α) Write} {m n : Drawing α Unit}
  {Q M : Write → Prop} {c : BitVec 8}

section

omit [DecidableEq α]

theorem Paints.bind {N : Write → Prop} (h : Paints P m s p Q M) (hn : ∀ t, P.At p t.state → Paints P n t q Q N) :
    Paints P (m >>= fun _ => n) s q Q fun a => M a ∨ N a := by
  obtain ⟨t, l, hrun, hat, hlog, hQ, hM⟩ := h
  obtain ⟨u, l', hrun', hat', hlog', hQ', hN⟩ := hn t hat
  refine ⟨u, l ++ l', ?_, hat', ?_, ?_, fun a ha => ?_⟩
  · rw [run_bind_eq hrun, hrun']
  · rw [hlog', hlog, append_assoc]
  · exact forall_mem_append.2 ⟨hQ, hQ'⟩
  · exact mem_append.2 (ha.imp (hM a) (hN a))

theorem Paints.mono {Q' M' : Write → Prop} (h : Paints P m s p Q M) (hQ : ∀ a, Q a → Q' a) (hM : ∀ a, M' a → M a) :
    Paints P m s p Q' M' := by
  obtain ⟨t, l, hrun, hat, hlog, hQl, hMl⟩ := h
  exact ⟨t, l, hrun, hat, hlog, fun a ha => hQ a (hQl a ha), fun a ha => hMl a (hM a ha)⟩

/-- A step that only moves the cursor. -/
theorem paints_nothing (hrun : m.run s = .ok () t) (hat : P.At p t.state) (hlog : t.log = s.log) :
    Paints P m s p Q fun _ => False :=
  ⟨t, [], hrun, hat, by rw [hlog, append_nil], forall_mem_nil _, fun _ => False.elim⟩

theorem Place.At.paints_pure (hs : P.At p s.state) :
    Paints P (pure ()) s p Q fun _ => False := paints_nothing rfl hs rfl

theorem Place.At.paints_setCursor (hs : P.At p s.state) (x y : Int) :
    Paints P (setCursor x y) s (x, y) Q fun _ => False :=
  paints_nothing rfl ⟨hs.sheet, hs.rect, hs.parent, rfl, rfl⟩ rfl

end

/-- Stores to the buffer of any sheet leave the console where it is. -/
theorem Place.At.paints_paintBuf (hs : P.At p s.state) (d : α) (f : Buffer → Buffer)
    (hf : ∀ a ∈ (f ((s.state.sheets d).buf, [])).2, Q a) :
    Paints P (paintBuf s.state.sheets d f) s p Q (· ∈ (f ((s.state.sheets d).buf, [])).2) := by
  have hplace (buf : Int → Pixel) (e : α) : (update s.state.sheets d { s.state.sheets d with buf } e).parent =
      (s.state.sheets e).parent ∧ (update s.state.sheets d { s.state.sheets d with buf } e).rect =
      (s.state.sheets e).rect :=
    ⟨field_update Sheet.parent (by rfl) e, field_update Sheet.rect (by rfl) e⟩
  refine ⟨_, _, rfl, ?_, rfl, hf, fun _ ha => ha⟩
  obtain ⟨parent, hparent, hprect⟩ := hs.parent
  exact ⟨hs.sheet, (hplace _ _).2.trans hs.rect, ⟨parent, (hplace _ _).1.trans hparent, (hplace _ _).2.trans hprect⟩,
    hs.cursorX, hs.cursorY⟩

theorem mem_flushPixels (this : α) (parentMap : SheetMap α) (w : Int) (pixelAt : Int → Int → Pixel) (r : Rect)
    (buf : Int → Pixel) :
    ∀ a ∈ (flushPixels this parentMap w pixelAt r (buf, [])).2, ∃ x y, a = .parent x y ∧ r.isPointInRect x y := by
  refine forRect_inv (I := fun b : Buffer => ∀ a ∈ b.2, ∃ x y, a = .parent x y ∧ r.isPointInRect x y)
    (fun x y b hp hb => ?_) (by simp)
  split_ifs
  · exact hb
  · refine forall_mem_append.2 ⟨hb, ?_⟩
    simpa using hp

/-- A flush returns, and writes pixels of the parent that the sheet covers. -/
theorem Place.At.paints_flush (hs : P.At p s.state) (r : Rect) :
    Paints P (Writes.flush P.sheet r) s p (Write.Within area P) fun _ => False := by
  obtain ⟨parent, hparent, hprect⟩ := hs.parent
  unfold Paints Writes.flush Writes.flushInParent
  rw [run_get_bind]
  dsimp only
  rw [hparent]
  dsimp only
  rw [run_get_bind, hparent]
  dsimp only
  generalize hq : (s.state.sheets P.sheet).flushArea (s.state.sheets parent) r = q
  split_ifs with hempty
  · exact hs.paints_pure
  · cases hmap : (s.state.sheets parent).map with
    | none => exact hs.paints_pure
    | some parentMap =>
      generalize ht : (s.state.sheets parent).getClientRect.getIntersectionWith q = t at hempty ⊢
      rw [run_bind_eq (Sheet.run_assertHolds ht hempty s)]
      refine (hs.paints_paintBuf parent _ fun a ha => ?_).mono (fun _ ha => ha) fun _ => False.elim
      obtain ⟨_, _, rfl, hpoint⟩ := mem_flushPixels _ _ _ _ _ _ a ha
      rw [← ht, ← hq] at hpoint
      simp only [Rect.isPointInRect_getIntersectionWith, Sheet.getClientRect, hprect, hs.rect] at hpoint
      exact ⟨hpoint.2.2.1, hpoint.1⟩

/-! ## The drawing loops -/

/-- All writes are to pixels of the sheet in `area`. -/
def InArea (area : Rect) (b : Buffer) : Prop := ∀ a ∈ b.2, ∃ x y, a = .own x y ∧ area.isPointInRect x y

theorem inArea_nil (buf : Int → Pixel) : InArea area (buf, []) := forall_mem_nil _

theorem InArea.writePixel {b : Buffer} {lineSize x y : Int} {col : Pixel} (h : InArea area b)
    (hp : area.isPointInRect x y) : InArea area (writePixel lineSize x y col b) := by
  refine forall_mem_append.2 ⟨h, ?_⟩
  simpa using hp

/-- A row, in single pixels or in pairs. -/
theorem InArea.row {b : Buffer} {lineSize w x y : Int} {col : Int → Buffer → Pixel} (h : InArea area b) (hw : 0 ≤ w)
    (hp : ∀ i, 0 ≤ i → i < w → area.isPointInRect (x + i) y) :
    InArea area ((if w % 2 = 1 then repeat4Bytes lineSize w.toNat x y col
      else repeat8Bytes lineSize (w / 2).toNat x y col) b) := by
  split_ifs
  · exact forRange_inv _ 0 (fun i _ h1 h2 hb => hb.writePixel (hp i h1 (by omega))) h
  · exact forRange_inv _ 0 (fun i _ h1 h2 hb =>
      (hb.writePixel (hp (2 * i) (by omega) (by omega))).writePixel (hp (2 * i + 1) (by omega) (by omega))) h

/-- Stores in `area` of the sheet, and the flush after them. -/
theorem Place.At.paints_draw (hs : P.At p s.state) {f : Buffer → Buffer} (r : Rect)
    (hf : InArea area (f ((s.state.sheets P.sheet).buf, []))) :
    Paints P (do paintBuf s.state.sheets P.sheet f; Writes.flush P.sheet r) s p (Write.Within area P)
      (· ∈ (f ((s.state.sheets P.sheet).buf, [])).2) := by
  refine ((hs.paints_paintBuf P.sheet f fun a ha => ?_).bind fun t ht => ht.paints_flush r).mono
    (fun _ ha => ha) fun _ => .inl
  obtain ⟨_, _, rfl, hp⟩ := hf a ha
  exact hp

theorem Place.At.paints_drawCharacter (hs : P.At p s.state) (font : BitVec 8 → Nat → BitVec 8) (c : BitVec 8)
    (px py : Int) :
    Paints P (drawCharacter font P.sheet c px py) s p (Write.Within ⟨px, py, 8, 16⟩ P) (· = .own (px + 7) py) := by
  unfold Paints drawCharacter
  rw [run_get_bind]
  refine (hs.paints_draw ⟨px, py, 8, 16⟩ (forRect_inv (fun x y b hp hb => hb.writePixel hp) (inArea_nil _))).mono
    (fun _ ha => ha) ?_
  -- the last column of the first row
  rintro _ rfl
  refine forRect_reach (I := fun b : Buffer => .own (px + 7) py ∈ b.2) (x := px + 7) (y := py)
    (fun x y b hb => mem_append_left _ hb) (fun b => mem_append_right _ mem_cons_self) ?_ _
  unfold Rect.isPointInRect
  dsimp only
  omega

theorem Place.At.paints_drawRect (hs : P.At p s.state) (px py : Int) {w : Int} (h : Int) (hw : 0 ≤ w) (col : Pixel) :
    Paints P (drawRect P.sheet px py w h col) s p (Write.Within ⟨px, py, w, h⟩ P) fun _ => False := by
  unfold Paints drawRect
  rw [run_get_bind]
  refine (hs.paints_draw ⟨px, py, w, h⟩ ?_).mono (fun _ ha => ha) fun _ => False.elim
  refine forRange_inv _ _ (fun j b h1 h2 hb => hb.row hw fun i hi1 hi2 => ?_) (inArea_nil _)
  unfold Rect.isPointInRect
  dsimp only
  omega

theorem Place.At.paints_blockTransfer (hs : P.At p s.state) (toX toY fromX fromY : Int) {w : Int} (h : Int)
    (hw : 0 ≤ w) :
    Paints P (blockTransfer P.sheet toX toY fromX fromY w h) s p (Write.Within ⟨toX, toY, w, h⟩ P) fun _ => False := by
  unfold Paints blockTransfer
  rw [run_get_bind]
  refine (hs.paints_draw ⟨toX, toY, w, h⟩ ?_).mono (fun _ ha => ha) fun _ => False.elim
  refine forRange_inv _ _ (fun j b h1 h2 hb => hb.row hw fun i hi1 hi2 => ?_) (inArea_nil _)
  unfold Rect.isPointInRect
  dsimp only
  omega

/-! ## The cursor -/

/-- The cursor after the character was drawn or has moved it. -/
def movedCursor (c : BitVec 8) (p : Int × Int) : Int × Int :=
  if c = newline then (0, p.2 + 16) else if c = backspace then (p.1 - 8, p.2) else (p.1 + 8, p.2)

def wrappedCursor (xsize : Int) (p : Int × Int) : Int × Int :=
  if xsize ≤ p.1 then (0, p.2 + 16) else if p.1 < 0 then (xsize - 8 - (xsize - 8) % 8, p.2 - 16) else p

def scrolledCursor (ysize : Int) (p : Int × Int) : Int × Int := if ysize < p.2 + 16 then (p.1, p.2 - 16) else p

/-- A character that is drawn. -/
def Printable (c : BitVec 8) : Prop := c ≠ newline ∧ c ≠ backspace

/-- What a character may write from the cursor `p`, which is at `q` before scrolling. -/
def Touches (P : Place α) (c : BitVec 8) (p q : Int × Int) (a : Write) : Prop :=
  Printable c ∧ a.Within ⟨p.1, p.2, 8, 16⟩ P ∨ c = backspace ∧ a.Within ⟨q.1, q.2, 8, 16⟩ P ∨
    P.rect.ysize < q.2 + 16 ∧ (a.Within ⟨0, 0, P.rect.xsize, P.rect.ysize - 16⟩ P ∨
    a.Within ⟨0, q.2 - 16, P.rect.xsize, 16⟩ P)

theorem Place.At.paints_advance (hs : P.At p s.state) (font : BitVec 8 → Nat → BitVec 8) (c : BitVec 8) :
    Paints P (advance font P.sheet c) s (movedCursor c p) (Touches P c p q) fun a => Printable c ∧
      a = .own (p.1 + 7) p.2 := by
  unfold Paints advance movedCursor
  rw [run_get_bind]
  dsimp only
  rw [hs.cursorX, hs.cursorY]
  split_ifs with hnl hbs
  · exact (hs.paints_setCursor _ _).mono (fun _ ha => ha) fun a ha => absurd hnl ha.1.1
  · exact (hs.paints_setCursor _ _).mono (fun _ ha => ha) fun a ha => absurd hbs ha.1.2
  · exact ((hs.paints_drawCharacter font c p.1 p.2).bind fun t ht => ht.paints_setCursor _ _).mono
      (fun a ha => .inl ⟨⟨hnl, hbs⟩, ha⟩) fun a ha => .inl ha.2

omit [DecidableEq α] in
theorem Place.At.paints_wrap (hs : P.At p s.state) :
    Paints P (wrap P.sheet) s (wrappedCursor P.rect.xsize p) Q fun _ => False := by
  unfold Paints wrap wrappedCursor
  rw [run_get_bind]
  dsimp only
  rw [hs.cursorX, hs.cursorY, hs.rect]
  split_ifs
  · exact hs.paints_setCursor _ _
  · exact hs.paints_setCursor _ _
  · exact hs.paints_pure

theorem Place.At.paints_eraseBack (hs : P.At q s.state) (c : BitVec 8) :
    Paints P (eraseBack P.sheet c) s q (Touches P c p q) fun _ => False := by
  unfold Paints eraseBack
  rw [run_get_bind]
  dsimp only
  rw [hs.cursorX, hs.cursorY]
  split_ifs with hbs
  · exact (hs.paints_drawRect q.1 q.2 16 (by decide) 0#32).mono (fun a ha => .inr (.inl ⟨hbs, ha⟩)) fun _ ha => ha
  · exact hs.paints_pure

theorem Place.At.paints_scroll (hs : P.At q s.state) (hw : 0 ≤ P.rect.xsize) :
    Paints P (scroll P.sheet) s (scrolledCursor P.rect.ysize q) (Touches P c p q) fun _ => False := by
  unfold Paints scroll scrolledCursor
  rw [run_get_bind]
  dsimp only
  rw [hs.cursorX, hs.cursorY, hs.rect]
  split_ifs with hlow
  · refine Paints.mono (Paints.bind
      ((hs.paints_blockTransfer 0 0 0 16 (P.rect.ysize - 16) hw).mono ?_ fun _ => False.elim) fun t ht =>
      .bind ((ht.paints_drawRect 0 (q.2 - 16) 16 hw 0#32).mono ?_ fun _ => .elim) fun u hu => hu.paints_setCursor _ _)
      (fun _ ha => ha) fun _ => False.elim
    · exact fun a ha => .inr (.inr ⟨hlow, .inl ha⟩)
    · exact fun a ha => .inr (.inr ⟨hlow, .inr ha⟩)
  · exact hs.paints_pure

/-- A character as a whole: where the cursor is then, and what was written. -/
theorem Place.At.paints_putChar (hs : P.At p s.state) (font : BitVec 8 → Nat → BitVec 8) (c : BitVec 8)
    (hw : 0 ≤ P.rect.xsize) (hq : wrappedCursor P.rect.xsize (movedCursor c p) = q) :
    Paints P (putCharWithoutLocking font c) s (scrolledCursor P.rect.ysize q)
      (Touches P c p q) fun a => Printable c ∧ a = .own (p.1 + 7) p.2 := by
  subst hq
  have hserial : (sendSerial c).run s = .ok () (final ((sendSerial c).run s)) := rfl
  have hat : P.At p (final ((sendSerial c).run s)).state := ⟨hs.sheet, hs.rect, hs.parent, hs.cursorX, hs.cursorY⟩
  unfold Paints putCharWithoutLocking
  rw [run_bind_eq hserial, run_get_bind, hat.sheet]
  exact ((hat.paints_advance font c).bind fun _ h1 => h1.paints_wrap.bind fun _ h2 =>
    (h2.paints_eraseBack c).bind fun _ h3 => h3.paints_scroll hw).mono (fun _ ha => ha) fun _ => .inl

/-! ## The edges of the sheet -/

/-- Everything that was written is on the sheet, and the next character has room between the upper and the lower edge.
-/
def OnSheet (P : Place α) (s : Logged (Screen α) Write) : Prop :=
  (∀ a ∈ s.log, a.Within ⟨0, 0, P.rect.xsize, P.rect.ysize⟩ P) ∧
    0 ≤ s.state.console.cursorX ∧ s.state.console.cursorX < P.rect.xsize ∧
    0 ≤ s.state.console.cursorY ∧ s.state.console.cursorY ≤ P.rect.ysize - 16

/-- A backspace is not at the upper left corner, and a character to draw has room up to the right edge. -/
def HasPlace (rect : Rect) (c : BitVec 8) (s : Logged (Screen α) Write) : Prop :=
  (c = backspace → ¬(s.state.console.cursorX = 0 ∧ s.state.console.cursorY = 0)) ∧
    (c ≠ newline ∧ c ≠ backspace → s.state.console.cursorX + 8 ≤ rect.xsize)

/-- A place for characters, at a column and a row of them, on the sheet or right below it. -/
structure CharPlace (rect : Rect) (p : Int × Int) : Prop where
  left : 0 ≤ p.1
  right : p.1 < rect.xsize
  column : p.1 % 8 = 0
  top : 0 ≤ p.2
  bottom : p.2 ≤ rect.ysize
  row : p.2 % 16 = 0

structure ConsoleInv (P : Place α) (s : Logged (Screen α) Write) : Prop where
  place : ∃ p, P.At p s.state ∧ CharPlace P.rect p ∧ p.2 ≤ P.rect.ysize - 16
  log : ∀ a ∈ s.log, a.Within ⟨0, 0, P.rect.xsize, P.rect.ysize⟩ P

section

omit [DecidableEq α]

theorem ConsoleInv.onSheet (h : ConsoleInv P s) : OnSheet P s := by
  obtain ⟨_, hat, hp, hbottom⟩ := h.place
  refine ⟨h.log, ?_⟩
  rw [hat.cursorX, hat.cursorY]
  exact ⟨hp.left, hp.right, hp.top, hbottom⟩

theorem Write.Within.onSheet {x y w h : Int} {a : Write} (ha : a.Within ⟨x, y, w, h⟩ P) (hx : 0 ≤ x)
    (hw : x + w ≤ P.rect.xsize) (hy : 0 ≤ y) (hh : y + h ≤ P.rect.ysize) :
    a.Within ⟨0, 0, P.rect.xsize, P.rect.ysize⟩ P := by
  cases a with
  | own px py =>
    simp only [Write.Within, Rect.isPointInRect] at ha ⊢
    omega
  | parent px py => exact ha

end

section

variable {rect : Rect}

section

variable (hw : 8 ≤ rect.xsize) (h : CharPlace rect p) (hy : p.2 ≤ rect.ysize - 16)

include hw h hy

/-- A backspace goes to a character that has room, unless it goes up from the first row. -/
theorem CharPlace.backspace (hp : ¬(p.1 = 0 ∧ p.2 = 0))
    (hq : wrappedCursor rect.xsize (movedCursor Gui.backspace p) = q) :
    CharPlace rect q ∧ q.1 + 8 ≤ rect.xsize ∧ q.2 ≤ rect.ysize - 16 := by
  obtain ⟨h1, h2, h3, h4, -, h5⟩ := h
  rw [movedCursor, if_neg (by decide), if_pos rfl, wrappedCursor, if_neg (by dsimp only; omega)] at hq
  dsimp only at hq
  split_ifs at hq with hleft
  all_goals
    subst hq
    refine ⟨?_, by dsimp only; omega, by dsimp only; omega⟩
    constructor <;> dsimp only <;> omega

/-- Where the cursor is before scrolling, for a character that has its place. -/
theorem CharPlace.wrapped (hback : c = Gui.backspace → ¬(p.1 = 0 ∧ p.2 = 0)) :
    CharPlace rect (wrappedCursor rect.xsize (movedCursor c p)) := by
  by_cases hbs : c = Gui.backspace
  · subst hbs
    exact (h.backspace hw hy (hback rfl) rfl).1
  · obtain ⟨h1, h2, h3, h4, -, h5⟩ := h
    unfold wrappedCursor movedCursor
    split_ifs <;> constructor <;> dsimp only at * <;> omega

end

theorem CharPlace.scrolled (hh : 16 ≤ rect.ysize) (h : CharPlace rect p) :
    CharPlace rect (scrolledCursor rect.ysize p) ∧ (scrolledCursor rect.ysize p).2 ≤ rect.ysize - 16 := by
  obtain ⟨h1, h2, h3, h4, h5, h6⟩ := h
  unfold scrolledCursor
  split_ifs with hlow
  · refine ⟨?_, by dsimp only; omega⟩
    constructor <;> dsimp only <;> omega
  · exact ⟨⟨h1, h2, h3, h4, h5, h6⟩, by omega⟩

end

omit [DecidableEq α] in
/-- What such a character writes is on the sheet. -/
theorem CharPlace.touches (hw : 8 ≤ P.rect.xsize) (hh : 16 ≤ P.rect.ysize) (h : CharPlace P.rect p)
    (hy : p.2 ≤ P.rect.ysize - 16) (hback : c = Gui.backspace → ¬(p.1 = 0 ∧ p.2 = 0))
    (hchar : Printable c → p.1 + 8 ≤ P.rect.xsize) {a : Write} (hq : wrappedCursor P.rect.xsize (movedCursor c p) = q)
    (ha : Touches P c p q a) : a.Within ⟨0, 0, P.rect.xsize, P.rect.ysize⟩ P := by
  have hq' : CharPlace P.rect q := hq ▸ h.wrapped hw hy hback
  rcases ha with ⟨hc, ha⟩ | ⟨rfl, ha⟩ | ⟨hlow, ha | ha⟩
  · exact ha.onSheet h.left (hchar hc) h.top (by omega)
  · obtain ⟨-, hright, hbottom⟩ := h.backspace hw hy (hback rfl) hq
    exact ha.onSheet hq'.left hright hq'.top (by omega)
  · exact ha.onSheet (le_refl 0) (by omega) (le_refl 0) (by omega)
  · have := hq'.bottom
    have := hq'.row
    have := hq'.top
    exact ha.onSheet (le_refl 0) (by omega) (by omega) (by omega)

section

variable (font : BitVec 8 → Nat → BitVec 8) (hw : 8 ≤ P.rect.xsize) (hh : 16 ≤ P.rect.ysize) (hs : ConsoleInv P s)

include font hw hh hs

/-- A character that has its place leaves everything on the sheet. -/
theorem ConsoleInv.step (hc : HasPlace P.rect c s) :
    ∃ t, (putCharWithoutLocking font c).run s = .ok () t ∧ ConsoleInv P t := by
  obtain ⟨_, hat, hp, hy⟩ := hs.place
  obtain ⟨hback, hchar⟩ := hc
  rw [hat.cursorX] at hback hchar
  rw [hat.cursorY] at hback
  obtain ⟨t, _, hrun, hat', hlog, hl, -⟩ := hat.paints_putChar font c (by omega) rfl
  refine ⟨t, hrun, ⟨_, hat', (hp.wrapped hw hy hback).scrolled hh⟩, ?_⟩
  rw [hlog]
  exact forall_mem_append.2 ⟨hs.log, fun a ha => hp.touches hw hh hy hback hchar rfl (hl a ha)⟩

/-- Any other character writes outside or leaves the cursor above the sheet. -/
theorem ConsoleInv.not_onSheet
    (hc : ¬HasPlace P.rect c s) (hrun : (putCharWithoutLocking font c).run s = .ok () t) : ¬OnSheet P t := by
  rintro ⟨hlog, -, -, htop, -⟩
  obtain ⟨p, hat, -⟩ := hs.place
  obtain ⟨t', l, hrun', hat', hlog', -, hmem⟩ := hat.paints_putChar font c (by omega) rfl
  obtain rfl : t' = t := (EStateM.Result.ok.inj (hrun'.symm.trans hrun)).2
  unfold HasPlace at hc
  rw [hat.cursorX, hat.cursorY] at hc
  by_cases hchar : Printable c
  · -- the last column of the character is outside
    have hin := hlog _ (hlog' ▸ mem_append_right _ (hmem _ ⟨hchar, rfl⟩))
    refine hc ⟨fun hbs => absurd hbs hchar.2, fun _ => ?_⟩
    simp only [Write.Within, Rect.isPointInRect] at hin
    omega
  · obtain ⟨rfl, hx, hy⟩ : c = backspace ∧ p.1 = 0 ∧ p.2 = 0 := by
      by_contra hno
      exact hc ⟨fun hbs hxy => hno ⟨hbs, hxy⟩, fun h => absurd h hchar⟩
    have hcursor : (scrolledCursor P.rect.ysize (wrappedCursor P.rect.xsize (movedCursor backspace p))).2 = -16 := by
      rw [movedCursor, if_neg (by decide), if_pos rfl, wrappedCursor, if_neg (by dsimp only; omega),
        if_pos (by dsimp only; omega), scrolledCursor, if_neg (by dsimp only; omega)]
      dsimp only
      omega
    rw [hat'.cursorY, hcursor] at htop
    omega

end

end

/-- From the upper left corner, all that a sequence of characters writes is on the sheet, and so is the cursor after
each of them, exactly when no backspace is made at the upper left corner and no character is drawn with less than 8
columns left. -/
theorem console_onSheet_iff (font : BitVec 8 → Nat → BitVec 8) {P : Place α} {s : Screen α} (hs : P.At (0, 0) s)
    (hw : 8 ≤ P.rect.xsize) (hh : 16 ≤ P.rect.ysize) (cs : List (BitVec 8)) :
    AfterEach (putCharWithoutLocking font) (OnSheet P) cs ⟨s, []⟩ ↔
      BeforeEach (putCharWithoutLocking font) (HasPlace P.rect) cs ⟨s, []⟩ := by
  refine afterEach_iff_beforeEach (I := fun _ => ConsoleInv P) (fun _ s hs => hs.onSheet)
    (fun c _ s hs hc => hs.step font hw hh hc) (fun c _ s hs hc t hrun => hs.not_onSheet font hw hh hc hrun) cs _ ?_
  refine ⟨⟨(0, 0), hs, ?_, by dsimp only; omega⟩, forall_mem_nil _⟩
  constructor <;> dsimp only <;> omega

/-! ## A screen of 20 by 16 pixels -/

/-- The sheet `true` shows in the sheet `false`, which has no map. -/
def smallScreen : Screen Bool where
  console := ⟨0, 0, some true, none⟩
  sheets b := if b then { Sheet.init (fun _ => 0#32) 20 16 20 0 0 with parent := some false } else Sheet.init
    (fun _ => 0#32) 20 16 20 0 0
  efi := []

def smallPlace : Place Bool := ⟨true, ⟨0, 0, 20, 16⟩, ⟨0, 0, 20, 16⟩⟩

/-- A font in which every character is blank. -/
def blankFont : BitVec 8 → Nat → BitVec 8 := fun _ _ => 0#8

theorem smallScreen_at : smallPlace.At (0, 0) smallScreen := ⟨rfl, rfl, ⟨false, rfl, rfl⟩, rfl, rfl⟩

/-- Two letters, the second of which is deleted, a new line and another letter. -/
theorem console_onSheet_letters :
    AfterEach (putCharWithoutLocking blankFont) (OnSheet smallPlace) [0x61#8, 0x62#8, backspace, 0x0A#8, 0x63#8]
      ⟨smallScreen, []⟩ := by
  refine (console_onSheet_iff blankFont smallScreen_at (by decide) (by decide) _).2 ?_
  intro i c t hc hrun
  obtain rfl : final _ = t := congrArg final hrun
  have hi : i < 5 := (List.getElem?_eq_some_iff.1 hc).1
  interval_cases i <;> cases hc <;> exact ⟨by decide +kernel, by decide +kernel⟩

/-- A backspace at the upper left corner leaves the sheet, and so does the third letter in a row of 20 columns. -/
theorem console_leaves_sheet : smallPlace.At (0, 0) smallScreen ∧ smallPlace.rect = ⟨0, 0, 20, 16⟩ ∧
    ¬AfterEach (putCharWithoutLocking blankFont) (OnSheet smallPlace) [backspace] ⟨smallScreen, []⟩ ∧
    ¬AfterEach (putCharWithoutLocking blankFont) (OnSheet smallPlace) [0x61#8, 0x61#8, 0x61#8] ⟨smallScreen, []⟩ := by
  refine ⟨smallScreen_at, rfl, fun h => ?_, fun h => ?_⟩
  · obtain ⟨t, hrun, hon⟩ := h.first
    have hinv : ConsoleInv smallPlace ⟨smallScreen, []⟩ :=
      ⟨⟨(0, 0), smallScreen_at, by constructor <;> decide, by decide⟩, forall_mem_nil _⟩
    exact hinv.not_onSheet blankFont (by decide) (by decide) (fun hc => hc.1 rfl ⟨rfl, rfl⟩) hrun hon
  · obtain ⟨t, hrun, hlog, -⟩ := h 3
    have hmem : .own 23 0 ∈ (final (([0x61#8, 0x61#8, 0x61#8].forM (putCharWithoutLocking blankFont)).run
        (⟨smallScreen, []⟩ : Logged (Screen Bool) Write))).log := by decide +kernel
    have hrun' : (([0x61#8, 0x61#8, 0x61#8] : List (BitVec 8)).forM (putCharWithoutLocking blankFont)).run
        (⟨smallScreen, []⟩ : Logged (Screen Bool) Write) = .ok () t := hrun
    rw [hrun'] at hmem
    have hin := hlog _ hmem
    simp only [Write.Within, Rect.isPointInRect, smallPlace] at hin
    omega

end

end Liumos.Gui
