/-
Compositing is exact: after every sequence of operations on the children of a sheet, its map names at
every pixel the topmost child that is visible there, and its buffer holds the pixel of that child.
`SetPosition` updates the map in one to three areas and flushes the lower sheets and the moved one; the
areas always cover the old and the new place of the sheet, and no other sheet can come to show outside.
Sources: sheet.h, sheet.cc.
-/
import Liumos.Gui.Drawing

namespace Liumos.Gui

open List

open Function (update update_of_ne update_self)
open Layers (top)

/-! ## The areas of a move -/

/-- The three areas of a move that is not straight: `s1` is the place on the left, before or after the move. -/
theorem threeAreas_cover {s1 s2 : Rect} (hx : s2.xsize = s1.xsize) (hy : s2.ysize = s1.ysize) (hlt : s1.x ≤ s2.x)
    {x y : Int} (hp : s1.isPointInRect x y ∨ s2.isPointInRect x y) :
    ∃ r ∈ (if s1.y < s2.y then
        [⟨s1.x, s1.y, s1.xsize, (s2.y - s1.y).natAbs⟩,
        ⟨s1.x, s2.y, s1.xsize + (s2.x - s1.x), s1.ysize - (s2.y - s1.y).natAbs⟩,
          ⟨s2.x, s1.y + s1.ysize, s1.xsize, (s2.y - s1.y).natAbs⟩]
      else
        [⟨s2.x, s2.y, s1.xsize, (s2.y - s1.y).natAbs⟩,
        ⟨s1.x, s1.y, s1.xsize + (s2.x - s1.x), s1.ysize - (s2.y - s1.y).natAbs⟩,
          ⟨s1.x, s2.y + s1.ysize, s1.xsize, (s2.y - s1.y).natAbs⟩] : List Rect), r.isPointInRect x y := by
  unfold Rect.isPointInRect at *
  split <;> simp only [exists_mem_cons_iff, not_mem_nil, false_and, exists_false, or_false] <;> omega

/-- The updated areas cover the old and the new place. -/
theorem updatedAreas_cover {prev next : Rect} (hx : next.xsize = prev.xsize) (hy : next.ysize = prev.ysize) {x y : Int}
    (hp : prev.isPointInRect x y ∨ next.isPointInRect x y) : ∃ r ∈ updatedAreas prev next, r.isPointInRect x y := by
  unfold updatedAreas
  split_ifs with h1 h2 h3 hlt
  · simpa using hp
  · subst h2
    simpa using hp
  · simp only [mem_singleton, exists_eq_left]
    unfold Rect.isPointInRect Rect.getUnionWith at *
    simp only
    omega
  · exact threeAreas_cover hx hy hlt.le hp
  · exact threeAreas_cover hx.symm hy.symm (not_lt.1 hlt) hp.symm

variable {α : Type} [DecidableEq α] {h h0 : Sheets α} {root c : α} {cs : List α} {fuel : Nat}
  {m : SheetMap α} {b : Int → Pixel}

/-- The map and the buffer are exact for the children `cs` as they are in `h`. -/
structure Exact (h : Sheets α) (root : α) (cs : List α) (m : SheetMap α) (b : Int → Pixel) : Prop where
  map : ∀ x y, inClient h root x y → m (cell h root x y) = top (visible h x y) cs
  buf : ∀ x y, inClient h root x y → ∀ d, m (cell h root x y) = some d → b (cell h root x y) = (h d).pixelAt x y

/-- The rest of `SetPosition` once the sheet has its new place: the old map and buffer were exact for `h0`,
from which `h` differs in the sheet `c` only. -/
theorem run_redraw (hf : Family root cs h) (hc : c ∈ cs) (hfuel : cs.length ≤ fuel) (hoff : ∀ d, d ≠ c → h d = h0 d)
    (hx : (h c).rect.xsize = (h0 c).rect.xsize) (hy : (h c).rect.ysize = (h0 c).rect.ysize)
    (he : Exact h0 root cs m b) :
    ∃ m' b', (do
        (updatedAreas (h0 c).rect (h c).rect).forM (updateMap fuel root)
        flushLower c ⟨(h0 c).rect.x, (h0 c).rect.y, (h c).rect.xsize, (h c).rect.ysize⟩ fuel ((← get) root).bottomChild
        flushInParent c (h c).rect : KM (Sheets α) Unit).run (paint h root m b) = .ok () (paint h root m' b') ∧
      Exact h root cs m' b' := by
  have hroot : h root = h0 root := hoff root (hf.ne hc).symm
  have hcell : ∀ x y, cell h0 root x y = cell h root x y := fun x y => by rw [cell, cell, hroot]
  have hclient : ∀ {x y}, inClient h root x y → inClient h0 root x y := fun hp => by rwa [inClient, ← hroot]
  obtain ⟨l1, l2, rfl⟩ := append_of_mem hc
  have hnodup : c ∉ l1 ++ l2 := (nodup_middle.1 hf.nodup).notMem
  have hl1 : ∀ d ∈ l1, d ∈ l1 ++ c :: l2 ∧ d ≠ c := fun d hd =>
    ⟨mem_append_left _ hd, fun hdc => hnodup (mem_append_left _ (hdc ▸ hd))⟩
  have hlen : l1.length < fuel := by
    rw [length_append, length_cons] at hfuel
    omega
  obtain ⟨m', hrun1, hm'⟩ := run_updateMaps hf hfuel (b := b) (updatedAreas (h0 c).rect (h c).rect) m
  obtain ⟨b1, hrun2, hb1⟩ := run_flushLower (m := m') hf
    ⟨(h0 c).rect.x, (h0 c).rect.y, (h c).rect.xsize, (h c).rect.ysize⟩ b hl1 hf.chain hlen
  obtain ⟨b2, hrun3, hb2⟩ := run_flushInParent (m := m') hf hc (h c).rect b1
  -- outside the old and the new place the sheet shows neither before nor after
  have hmap : ∀ x y, inClient h root x y → m' (cell h root x y) = top (visible h x y) (l1 ++ c :: l2) := by
    intro x y hp
    rw [hm' x y hp]
    split_ifs with hr
    · rfl
    · have hout := mt (updatedAreas_cover hx hy) hr
      rw [not_or] at hout
      rw [← hcell, he.map x y (hclient hp)]
      refine Layers.top_congr fun d _ => ?_
      by_cases hdc : d = c
      · subst hdc
        rw [Bool.eq_false_iff.2 (mt visible_rect hout.1), Bool.eq_false_iff.2 (mt visible_rect hout.2)]
      · rw [visible, visible, hoff d hdc]
  refine ⟨m', b2, ?_, hmap, fun x y hp d hd => ?_⟩
  · rw [run_bind_eq hrun1]
    show (flushLower c _ fuel (paint h root m' b root).bottomChild >>= fun _ => _).run _ = _
    rw [paint_root, run_bind_eq hrun2, hrun3]
  · have htop := (hmap x y hp).symm.trans hd
    by_cases hdc : d = c
    · subst hdc
      rw [hb2 x y hp d hd, if_pos ⟨mem_singleton_self d, visible_rect (Layers.mem_of_top htop).2⟩]
    · refine hb2.keeps hp hd ?_
      have hvis : ∀ e, e ≠ c → visible h x y e = visible h0 x y e := fun e he => by rw [visible, visible, hoff e he]
      rcases Layers.top_change hvis hnodup htop hdc with hbefore | ⟨hvc, hdl⟩
      · refine hb1.keeps hp hd ?_
        have hm := he.map x y (hclient hp)
        rw [← hcell, he.buf x y (hclient hp) d (hm.trans hbefore), hoff d hdc]
      · rw [hb1 x y hp d hd, if_pos ⟨hdl, by rw [hx, hy]; exact visible_rect hvc⟩]

/-! ## The invariant -/

/-- `cs` are the children of `root`, and its map and buffer are exact. -/
structure Inv (root : α) (cs : List α) (h : Sheets α) : Prop where
  family : Family root cs h
  exact : ∃ m, (h root).map = some m ∧ Exact h root cs m (h root).buf

/-- A change of one child that keeps its links. -/
theorem Family.update (hf : Family root cs h) (hc : c ≠ root) {s : Sheet α} (hu : s.upper = (h c).upper)
    (hp : s.parent = (h c).parent) : Family root cs (update h c s) where
  notMem := hf.notMem
  nodup := hf.nodup
  chain := by
    rw [update_of_ne hc.symm]
    exact hf.chain.congr fun d _ => field_update Sheet.upper hu d
  parent := fun d hd => (field_update Sheet.parent hp d).trans (hf.parent d hd)
  lineSize := by
    rw [update_of_ne hc.symm]
    exact hf.lineSize

omit [DecidableEq α] in
/-- What is exact for some sheets is exact for others that look the same. -/
theorem Exact.congr (he : Exact h0 root cs m b) (hr : (h root).rect = (h0 root).rect)
    (hv : ∀ d ∈ cs, ∀ x y, visible h x y d = visible h0 x y d ∧ (h d).pixelAt x y = (h0 d).pixelAt x y) :
    Exact h root cs m b := by
  have hcell : ∀ x y, cell h root x y = cell h0 root x y := fun x y => by rw [cell, cell, hr]
  have hclient : ∀ {x y}, inClient h root x y → inClient h0 root x y := fun hp => by
    rwa [inClient, Sheet.getClientRect, ← hr]
  constructor
  · intro x y hp
    rw [hcell, he.map x y (hclient hp)]
    exact Layers.top_congr fun d hd => ((hv d hd x y).1).symm
  · intro x y hp d hd
    rw [hcell] at hd ⊢
    have hmem := (Layers.mem_of_top ((he.map x y (hclient hp)).symm.trans hd)).1
    rw [he.buf x y (hclient hp) d hd, (hv d hmem x y).2]

theorem Inv.paint (hf : Family root cs h) (he : Exact h root cs m b) : Inv root cs (paint h root m b) where
  family := {
    notMem := hf.notMem
    nodup := hf.nodup
    chain := by
      rw [paint_root]
      exact hf.chain.congr fun d hd => congrArg Sheet.upper (paint_of_ne (hf.ne hd))
    parent := fun d hd => by rw [paint_of_ne hd, hf.parent d hd]
    lineSize := by
      rw [paint_root]
      exact hf.lineSize }
  exact := by
    rw [paint_root]
    refine ⟨m, rfl, he.congr (by rw [paint_root]) fun d hd x y => ?_⟩
    rw [visible_paint (hf.ne hd), paint_of_ne (hf.ne hd)]
    exact ⟨rfl, rfl⟩

/-! ## Moving -/

/-- `SetPosition` on a sheet that differs from what the map and the buffer are exact for. -/
theorem run_setPosition (hf : Family root cs h) (hc : c ≠ root) (hfuel : cs.length ≤ fuel)
    (hoff : ∀ d, d ≠ c → h d = h0 d) (hrect : (h c).rect = (h0 c).rect) (hm : (h root).map = some m)
    (he : Exact h0 root cs m (h root).buf) (x y : Int) :
    ∃ h', (setPosition fuel c x y).run h = .ok () h' ∧ Inv root cs h' := by
  obtain ⟨h1, hh1⟩ : ∃ h1, update h c { h c with rect := { (h c).rect with x := x, y := y } } = h1 := ⟨_, rfl⟩
  have hf1 : Family root cs h1 := hh1 ▸ hf.update hc rfl rfl
  have hself : h1 c = { h c with rect := { (h c).rect with x := x, y := y } } := by rw [← hh1, update_self]
  have hother : ∀ d, d ≠ c → h1 d = h d := fun d hd => by rw [← hh1, update_of_ne hd]
  have hm1 : (h1 root).map = some m := by rw [hother root hc.symm, hm]
  have hoff1 : ∀ d, d ≠ c → h1 d = h0 d := fun d hd => (hother d hd).trans (hoff d hd)
  by_cases hmem : c ∈ cs
  · obtain ⟨m', b', hrun', he'⟩ := run_redraw hf1 hmem hfuel hoff1 (by rw [hself, ← hrect]) (by rw [hself, ← hrect]) he
    refine ⟨Gui.paint h1 root m' b', ?_, .paint hf1 he'⟩
    rw [← hrect, ← hother root hc.symm, paint_eq hm1] at hrun'
    rw [setPosition, run_get_bind, modifySheet, run_modify_bind, run_get_bind, hh1, hf1.parent_of_mem hmem]
    exact hrun'
  · refine ⟨h1, ?_, hf1, m, hm1, ?_⟩
    · rw [setPosition, run_get_bind, modifySheet, run_modify_bind, run_get_bind, hh1, hf1.parent c hc, if_neg hmem]
      rfl
    · rw [hother root hc.symm]
      refine he.congr (by rw [hoff1 root hc.symm]) fun d hd x y => ?_
      have hd' : d ≠ c := fun h => hmem (h ▸ hd)
      rw [visible, visible, hoff1 d hd']
      exact ⟨rfl, rfl⟩

theorem Inv.setPosition (hi : Inv root cs h) (hc : c ≠ root) (hfuel : cs.length ≤ fuel) (x y : Int) :
    ∃ h', (setPosition fuel c x y).run h = .ok () h' ∧ Inv root cs h' := by
  obtain ⟨_, hm, he⟩ := hi.exact
  exact run_setPosition hi.family hc hfuel (fun _ _ => rfl) rfl hm he x y

theorem run_moveRelative (dx dy : Int) : (moveRelative fuel c dx dy).run h =
    (setPosition fuel c ((h c).rect.x + dx) ((h c).rect.y + dy)).run h := by
  rw [moveRelative, run_get_bind]

section

variable (hi : Inv root cs h) (hc : c ≠ root)

include hi hc

theorem Inv.moveRelative (hfuel : cs.length ≤ fuel) (dx dy : Int) :
    ∃ h', (moveRelative fuel c dx dy).run h = .ok () h' ∧ Inv root cs h' := by
  rw [run_moveRelative]
  exact hi.setPosition hc hfuel _ _

theorem Inv.setAlphaEnabled (hfuel : cs.length ≤ fuel) :
    ∃ h', (setAlphaEnabled fuel c true).run h = .ok () h' ∧ Inv root cs h' := by
  obtain ⟨m, hm, he⟩ := hi.exact
  obtain ⟨h1, hh1⟩ : ∃ h1, update h c { h c with isAlphaEnabled := true } = h1 := ⟨_, rfl⟩
  have hroot : h1 root = h root := by rw [← hh1, update_of_ne hc.symm]
  have he1 : Exact h root cs m (h1 root).buf := by rwa [hroot]
  obtain ⟨h', hrun, hi'⟩ := run_setPosition (hh1 ▸ hi.family.update hc rfl rfl) hc hfuel
    (fun d hd => by rw [← hh1, update_of_ne hd]) (by rw [← hh1, update_self]) (hroot ▸ hm) he1
    ((h1 c).rect.x + 0) ((h1 c).rect.y + 0)
  refine ⟨h', ?_, hi'⟩
  subst hh1
  exact hrun

theorem Inv.setTopmost (isTopmost : Bool) : ∃ h', (setTopmost c isTopmost).run h = .ok () h' ∧ Inv root cs h' := by
  obtain ⟨m, hm, he⟩ := hi.exact
  refine ⟨update h c { h c with isTopmost := isTopmost }, rfl, hi.family.update hc rfl rfl, m, ?_, ?_⟩
  · rw [update_of_ne hc.symm, hm]
  · rw [update_of_ne hc.symm]
    refine he.congr (by rw [update_of_ne hc.symm]) fun d _ x y => ?_
    by_cases hd : d = c
    · subst hd
      simp [visible, Sheet.pixelAt]
    · simp [visible, update_of_ne hd]

end

/-! ## Attaching -/

/-- `upper_ = *holder; *holder = this`. -/
def attach (h : Sheets α) (holder : Holder α) (c : α) : Sheets α :=
  holder.write (update h c { h c with upper := holder.read h }) c

/-- Attaching changes links only. -/
theorem attach_eq (h : Sheets α) (holder : Holder α) (c d : α) :
    ∃ u bc, attach h holder c d = { h d with upper := u, bottomChild := bc } := by
  have hwrite : ∀ h s, ∃ u bc, (Holder.write h c holder) s = { h s with upper := u, bottomChild := bc } := by
    intro h s
    cases holder with
    | bottomChild t =>
      by_cases hs : s = t
      · subst hs
        exact ⟨(h s).upper, some c, update_self ..⟩
      · exact ⟨(h s).upper, (h s).bottomChild, update_of_ne hs ..⟩
    | upper t =>
      by_cases hs : s = t
      · subst hs
        exact ⟨some c, (h s).bottomChild, update_self ..⟩
      · exact ⟨(h s).upper, (h s).bottomChild, update_of_ne hs ..⟩
  obtain ⟨u, bc, hu⟩ := hwrite (update h c { h c with upper := holder.read h }) d
  exact ⟨u, bc, hu.trans (field_update (fun s : Sheet α => { s with upper := u, bottomChild := bc }) (by rfl) d)⟩

section

variable {holder holder' : Holder α}

theorem read_write_self : holder.read (holder.write h c) = some c := by
  cases holder <;> simp [Holder.read, Holder.write]

theorem read_write_of_ne (hne : holder' ≠ holder) : holder'.read (holder.write h c) = holder'.read h := by
  cases holder' with
  | bottomChild s =>
    cases holder with
    | bottomChild t =>
      have hs : s ≠ t := fun h => hne (h ▸ rfl)
      simp [Holder.read, Holder.write, hs]
    | upper t => exact field_update Sheet.bottomChild (by rfl) s
  | upper s =>
    cases holder with
    | bottomChild t => exact field_update Sheet.upper (by rfl) s
    | upper t =>
      have hs : s ≠ t := fun h => hne (h ▸ rfl)
      simp [Holder.read, Holder.write, hs]

theorem read_attach_self : holder.read (attach h holder c) = some c := read_write_self

theorem read_attach_upper (hc : holder ≠ .upper c) : (Holder.upper c).read (attach h holder c) = holder.read h := by
  rw [attach, read_write_of_ne hc.symm]
  simp [Holder.read]

theorem read_attach_of_ne (hne : holder' ≠ holder) (hc : holder' ≠ .upper c) :
    holder'.read (attach h holder c) = holder'.read h := by
  -- giving `c` its own link is a write too
  have hself : ∀ u, holder'.read (update h c { h c with upper := u }) = holder'.read h := by
    intro u
    cases holder' with
    | bottomChild s => exact field_update Sheet.bottomChild (by rfl) s
    | upper s =>
      have hs : s ≠ c := fun h => hc (h ▸ rfl)
      simp [Holder.read, hs]
  rw [attach, read_write_of_ne hne, hself]

/-- The loop of `SetParent` stops at a link of the chain; with the sheet attached there, the chain is that of
before with the sheet put in. -/
theorem run_topmostUpperHolder {s : Sheets α} :
    ∀ {cs : List α} {holder : Holder α} {fuel : Nat}, Chain h (holder.read h) cs →
    (c :: cs).Nodup → (∀ d ∈ c :: cs, holder ≠ .upper d) → cs.length < fuel →
    ∃ holder' l1 l2, (topmostUpperHolder h fuel holder).run s = .ok holder' s ∧ cs = l1 ++ l2 ∧
      (holder' = holder ∨ ∃ d ∈ cs, holder' = .upper d) ∧
      Chain (attach h holder' c) (holder.read (attach h holder' c)) (l1 ++ c :: l2) := by
  intro cs
  induction cs with
  | nil =>
    intro holder fuel hchain _ hfree hfuel
    obtain ⟨fuel, rfl⟩ : ∃ n, fuel = n + 1 := ⟨fuel - 1, by omega⟩
    refine ⟨holder, [], [], ?_, rfl, .inl rfl, read_attach_self, ?_⟩
    · rw [topmostUpperHolder, show holder.read h = none from hchain]
      rfl
    · exact (read_attach_upper (hfree c mem_cons_self)).trans hchain
  | cons d cs ih =>
    intro holder fuel hchain hnodup hfree hfuel
    obtain ⟨fuel, rfl⟩ : ∃ n, fuel = n + 1 := ⟨fuel - 1, by omega⟩
    have hread : holder.read h = some d := hchain.1
    by_cases htop : (h d).isTopmost = true
    · refine ⟨holder, [], d :: cs, ?_, rfl, .inl rfl, read_attach_self, ?_⟩
      · rw [topmostUpperHolder, hread]
        simp only [htop, if_true]
        rfl
      · show Chain _ ((Holder.upper c).read _) _
        rw [read_attach_upper (hfree c mem_cons_self)]
        refine hchain.congr fun e he => ?_
        have hec : e ≠ c := fun hec => (nodup_cons.1 hnodup).1 (hec ▸ he)
        exact read_attach_of_ne (fun h => hfree e (mem_cons_of_mem c he) h.symm) fun h => hec (Holder.upper.inj h)
    · have hnodup' : (c :: cs).Nodup := hnodup.sublist (.cons_cons c (sublist_cons_self d cs))
      have hdc : d ≠ c := fun hdc => (nodup_cons.1 hnodup).1 (hdc ▸ mem_cons_self)
      have hd : d ∉ cs := (nodup_cons.1 (nodup_cons.1 hnodup).2).1
      have hnext : Chain h ((Holder.upper d).read h) cs := hchain.2
      obtain ⟨holder', l1, l2, hrun, rfl, hholder, hchain'⟩ := ih hnext hnodup' (by
        intro e he hde
        cases hde
        rcases mem_cons.1 he with rfl | he
        · exact hdc rfl
        · exact hd he) (Nat.lt_of_succ_lt_succ hfuel)
      have hmem : ∃ e ∈ d :: (l1 ++ l2), holder' = .upper e := by
        rcases hholder with rfl | ⟨e, he, rfl⟩
        · exact ⟨d, mem_cons_self, rfl⟩
        · exact ⟨e, mem_cons_of_mem d he, rfl⟩
      refine ⟨holder', d :: l1, l2, ?_, rfl, .inr hmem, ?_, hchain'⟩
      · rw [topmostUpperHolder, hread]
        simp only [htop]
        exact hrun
      · -- the link to `d` is not the one that is changed
        obtain ⟨e, he, rfl⟩ := hmem
        rw [read_attach_of_ne (hfree e (mem_cons_of_mem c he)) (hfree c mem_cons_self), hread]

/-- `parent_ = parent` and the links. -/
def adopt (h : Sheets α) (root : α) (holder : Holder α) (c : α) : Sheets α :=
  attach (update h c { h c with parent := some root }) holder c

theorem adopt_eq (h : Sheets α) (root : α) (holder : Holder α) (c d : α) :
    ∃ u bc, adopt h root holder c d =
      { h d with parent := if d = c then some root else (h d).parent, upper := u, bottomChild := bc } := by
  obtain ⟨u, bc, hd⟩ := attach_eq (update h c { h c with parent := some root }) holder c d
  refine ⟨u, bc, hd.trans ?_⟩
  by_cases hdc : d = c
  · subst hdc
    rw [update_self, if_pos rfl]
  · rw [update_of_ne hdc, if_neg hdc]

/-- Links and parents cannot be seen. -/
theorem visible_adopt (d : α) (x y : Int) : visible (adopt h root holder c) x y d = visible h x y d ∧
    (adopt h root holder c d).pixelAt x y = (h d).pixelAt x y := by
  obtain ⟨_, _, hd⟩ := adopt_eq h root holder c d
  rw [visible, visible, hd]
  exact ⟨rfl, rfl⟩

theorem Family.adopt {l1 l2 : List α} (hf : Family root (l1 ++ l2) h) (hc : c ≠ root) (hmem : c ∉ l1 ++ l2)
    (hchain : Chain (adopt h root holder c) ((Holder.bottomChild root).read (adopt h root holder c)) (l1 ++ c :: l2)) :
    Family root (l1 ++ c :: l2) (adopt h root holder c) where
  notMem := by
    have hroot := hf.notMem
    simp only [mem_append, mem_cons, not_or] at hroot ⊢
    exact ⟨hroot.1, hc.symm, hroot.2⟩
  nodup := nodup_middle.2 (nodup_cons.2 ⟨hmem, hf.nodup⟩)
  chain := hchain
  parent := by
    intro d hd
    obtain ⟨u, bc, hd'⟩ := adopt_eq h root holder c d
    rw [hd']
    by_cases hdc : d = c
    · subst hdc
      simp
    · simp [hdc, hf.parent d hd]
  lineSize := by
    obtain ⟨_, _, hr⟩ := adopt_eq h root holder c root
    rw [hr]
    exact hf.lineSize

/-- The rest of `SetParent` once the sheet has its links: only the new sheet can come to show. -/
theorem run_drawNew {l1 l2 : List α} (hf : Family root (l1 ++ c :: l2) h) (hfuel : (l1 ++ c :: l2).length ≤ fuel)
    (he : Exact h root (l1 ++ l2) m b) : ∃ m' b', (do
        updateMap fuel root (h c).rect
        flush c ((← get) c).getClientRect : KM (Sheets α) Unit).run (paint h root m b) = .ok () (paint h root m' b') ∧
      Exact h root (l1 ++ c :: l2) m' b' := by
  have hc : c ∈ l1 ++ c :: l2 := mem_append_right l1 mem_cons_self
  obtain ⟨m', hrun1, hm'⟩ := run_updateMap hf hfuel (b := b) (h c).rect m
  obtain ⟨b', hrun2, hb'⟩ := run_flushInParent (m := m') hf hc ((h c).flushArea (h root) (h c).getClientRect) b
  have hmap : ∀ x y, inClient h root x y → m' (cell h root x y) = top (visible h x y) (l1 ++ c :: l2) := by
    intro x y hp
    rw [hm' x y hp]
    split_ifs with hr
    · rfl
    · rw [he.map x y hp, Layers.top_insert_hidden (Bool.eq_false_iff.2 (mt visible_rect hr))]
  refine ⟨m', b', ?_, hmap, fun x y hp d hd => ?_⟩
  · rw [run_bind_eq hrun1]
    rw [run_get_bind, flush, run_get_bind, paint_of_ne (hf.ne hc), hf.parent_of_mem hc]
    simp only [paint_root]
    exact hrun2
  · have htop := (hmap x y hp).symm.trans hd
    by_cases hdc : d = c
    · subst hdc
      have hin := visible_rect (Layers.mem_of_top htop).2
      rw [hb' x y hp d hd, if_pos]
      simp only [Rect.isPointInRect_getIntersectionWith, Sheet.getClientRect, Int.zero_add]
      exact ⟨mem_singleton_self d, hp, hin, hin⟩
    · have hbefore := (he.map x y hp).trans (Layers.top_insert htop hdc)
      exact hb'.keeps hp hd (he.buf x y hp d hbefore)

theorem Inv.setParent (hi : Inv root cs h) (hc : c ≠ root) (hmem : c ∉ cs) (hfuel : cs.length < fuel) :
    ∃ h' cs', (setParent fuel c (some root)).run h = .ok () h' ∧ Inv root cs' h' ∧ cs'.length = cs.length + 1 ∧
      ∀ d, d ∈ cs' ↔ d = c ∨ d ∈ cs := by
  obtain ⟨m, hm, he⟩ := hi.exact
  obtain ⟨h1, hh1⟩ : ∃ h1, update h c { h c with parent := some root } = h1 := ⟨_, rfl⟩
  have hroot : h1 root = h root := by rw [← hh1, update_of_ne hc.symm]
  have hchain1 : Chain h1 ((Holder.bottomChild root).read h1) cs := by
    rw [Holder.read, hroot]
    exact hi.family.chain.congr fun d _ => hh1 ▸ field_update Sheet.upper (by rfl) d
  obtain ⟨holder, l1, l2, hholder, rfl, -, hchain⟩ := run_topmostUpperHolder (s := h1) hchain1
    (nodup_cons.2 ⟨hmem, hi.family.nodup⟩) (fun _ _ => nofun) hfuel
  obtain ⟨h2, hh2⟩ : ∃ h2, adopt h root holder c = h2 := ⟨_, rfl⟩
  have hlen : (l1 ++ c :: l2).length = (l1 ++ l2).length + 1 := by simp; omega
  have hf2 : Family root (l1 ++ c :: l2) h2 := by
    subst hh1 hh2
    exact hi.family.adopt hc hmem hchain
  obtain ⟨_, _, hr⟩ := adopt_eq h root holder c root
  rw [hh2] at hr
  have he2 : Exact h2 root (l1 ++ l2) m (h2 root).buf := by
    rw [hr]
    exact he.congr (by rw [hr]) fun d _ x y => hh2 ▸ visible_adopt d x y
  obtain ⟨m', b', hrun, he'⟩ := run_drawNew hf2 (show _ ≤ fuel by omega) he2
  rw [paint_eq (show (h2 root).map = some m by rw [hr]; exact hm)] at hrun
  refine ⟨Gui.paint h2 root m' b', _, ?_, .paint hf2 he', hlen, fun d => ?_⟩
  · subst hh1 hh2
    exact (run_bind_eq hholder).trans hrun
  · simp only [mem_append, mem_cons]
    tauto

end

/-! ## Runs -/

/-- The operations on the children of a sheet. -/
inductive Op (α : Type) where
  | setParent (c : α)
  | setPosition (c : α) (x y : Int)
  | moveRelative (c : α) (dx dy : Int)
  | setAlphaEnabled (c : α)
  | setTopmost (c : α) (isTopmost : Bool)

def Op.sheet : Op α → α
  | .setParent c => c
  | .setPosition c _ _ => c
  | .moveRelative c _ _ => c
  | .setAlphaEnabled c => c
  | .setTopmost c _ => c

/-- The sheet that becomes a child. -/
def Op.attached : Op α → Option α
  | .setParent c => some c
  | _ => none

def Op.exec (fuel : Nat) (root : α) : Op α → KM (Sheets α) Unit
  | .setParent c => Gui.setParent fuel c (some root)
  | .setPosition c x y => Gui.setPosition fuel c x y
  | .moveRelative c dx dy => Gui.moveRelative fuel c dx dy
  | .setAlphaEnabled c => Gui.setAlphaEnabled fuel c true
  | .setTopmost c isTopmost => Gui.setTopmost c isTopmost

/-- One operation returns and keeps the invariant. -/
theorem Inv.exec (hi : Inv root cs h) (op : Op α) (hc : op.sheet ≠ root) (hnew : ∀ c, op.attached = some c → c ∉ cs)
    (hfuel : cs.length < fuel) : ∃ h' cs', (op.exec fuel root).run h = .ok () h' ∧ Inv root cs' h' ∧
      cs'.length ≤ cs.length + 1 ∧ ∀ d, d ∈ cs' ↔ d ∈ cs ∨ op.attached = some d := by
  have same : ∀ {x : KM (Sheets α) Unit}, (∃ h', x.run h = .ok () h' ∧ Inv root cs h') → ∃ h' cs', x.run h = .ok () h' ∧
      Inv root cs' h' ∧ cs'.length ≤ cs.length + 1 ∧ ∀ d, d ∈ cs' ↔ d ∈ cs ∨ none = some d := by
    rintro x ⟨h', hrun, hi'⟩
    exact ⟨h', cs, hrun, hi', Nat.le_succ _, fun d => by simp⟩
  cases op with
  | setParent c =>
    obtain ⟨h', cs', hrun, hi', hlen, hmem⟩ := hi.setParent hc (hnew c rfl) hfuel
    refine ⟨h', cs', hrun, hi', hlen.le, fun d => ?_⟩
    rw [hmem d, Op.attached, Op.sheet, Option.some_inj, or_comm, eq_comm]
  | setPosition c x y => exact same (hi.setPosition hc hfuel.le x y)
  | moveRelative c dx dy => exact same (hi.moveRelative hc hfuel.le dx dy)
  | setAlphaEnabled c => exact same (hi.setAlphaEnabled hc hfuel.le)
  | setTopmost c isTopmost => exact same (hi.setTopmost hc isTopmost)

omit [DecidableEq α] in
/-- When every sheet is attached at most once, those still to come are not among the children. -/
theorem notMem_attached {β : Type} {attached : β → Option α} {op : β} {ops : List β} {cs' : List α}
    (hnew : ∀ c ∈ (op :: ops).filterMap attached, c ∉ cs) (honce : ((op :: ops).filterMap attached).Nodup)
    (hmem : ∀ d, d ∈ cs' ↔ d ∈ cs ∨ attached op = some d) : ∀ c ∈ ops.filterMap attached, c ∉ cs' := by
  intro c hc hcs
  rcases (hmem c).1 hcs with hcs | hop
  · obtain ⟨op', hop', hc'⟩ := mem_filterMap.1 hc
    exact hnew c (mem_filterMap.2 ⟨op', mem_cons_of_mem op hop', hc'⟩) hcs
  · rw [filterMap_cons_some hop] at honce
    exact (nodup_cons.1 honce).1 hc

theorem Inv.run : ∀ (ops : List (Op α)) {h : Sheets α} {cs : List α}, Inv root cs h → (∀ op ∈ ops, op.sheet ≠ root) →
    (∀ c ∈ ops.filterMap Op.attached, c ∉ cs) → (ops.filterMap Op.attached).Nodup → cs.length + ops.length ≤ fuel →
    ∃ h' cs', (ops.forM (Op.exec fuel root)).run h = .ok () h' ∧ Inv root cs' h' ∧
      ∀ d, d ∈ cs' ↔ d ∈ cs ∨ d ∈ ops.filterMap Op.attached
  | [], h, cs, hi, _, _, _, _ => ⟨h, cs, rfl, hi, fun d => by simp⟩
  | op :: ops, h, cs, hi, hroot, hnew, honce, hfuel => by
    rw [length_cons] at hfuel
    obtain ⟨h1, cs1, hrun1, hi1, hlen, hmem1⟩ := hi.exec op (hroot op mem_cons_self)
      (fun c hc => hnew c (mem_filterMap.2 ⟨op, mem_cons_self, hc⟩)) (show cs.length < fuel by omega)
    obtain ⟨h2, cs2, hrun2, hi2, hmem2⟩ := Inv.run ops hi1 (fun op' h' => hroot op' (mem_cons_of_mem op h'))
      (notMem_attached hnew honce hmem1) (honce.sublist ((sublist_cons_self op ops).filterMap _))
      (show _ ≤ fuel by omega)
    refine ⟨h2, cs2, (run_bind_eq hrun1).trans hrun2, hi2, fun d => ?_⟩
    rw [hmem2 d, hmem1 d, or_assoc]
    refine or_congr_right ?_
    cases hop : op.attached with
    | none => rw [filterMap_cons_none hop]; simp
    | some e => rw [filterMap_cons_some hop, mem_cons, Option.some_inj, eq_comm]

/-- Before the first child: the parent is at the origin, without children and with lines of its width; no other
sheet has a parent. -/
structure Start (root : α) (h : Sheets α) : Prop where
  x : (h root).rect.x = 0
  y : (h root).rect.y = 0
  lineSize : (h root).pixelsPerScanLine = (h root).rect.xsize
  bottomChild : (h root).bottomChild = none
  parent : ∀ c, c ≠ root → (h c).parent = none

theorem Start.setMap (hs : Start root h) (fuel : Nat) (map : SheetMap α) :
    ∃ h', (setMap fuel root map).run h = .ok () h' ∧ Inv root [] h' := by
  have hf : Family root [] h := ⟨not_mem_nil, nodup_nil, hs.bottomChild, fun c hc => hs.parent c hc, hs.lineSize⟩
  obtain ⟨m', hrun, hm'⟩ := run_updateMap (b := (h root).buf) hf
    (show ([] : List α).length ≤ fuel from Nat.zero_le _) (h root).rect map
  have hin : ∀ x y, inClient h root x y → (h root).rect.isPointInRect x y := by
    intro x y hp
    unfold inClient Sheet.getClientRect Rect.isPointInRect at hp
    have hx := hs.x
    have hy := hs.y
    unfold Rect.isPointInRect
    simp only at hp
    omega
  have hnull : ∀ x y, inClient h root x y → m' (cell h root x y) = none := fun x y hp => by
    rw [hm' x y hp, if_pos (hin x y hp), Layers.top_nil]
  refine ⟨paint h root m' (h root).buf, ?_, .paint hf ⟨hnull, fun x y hp d hd => ?_⟩⟩
  · show (updateMap fuel root (update h root { h root with map := some map } root).rect).run _ = _
    rw [update_self]
    exact hrun
  · rw [hnull x y hp] at hd
    cases hd

/-- `SetMap` on a parent without children, then any operations on other sheets, each attached at most once: all of
them return, and then the map names at every pixel the topmost of the attached children that covers it and is
opaque there, or none, and where it names one the buffer of the parent holds the pixel of that child. -/
theorem compositing_exact (hs : Start root h0) (map : SheetMap α) {ops : List (Op α)}
    (hroot : ∀ op ∈ ops, op.sheet ≠ root) (honce : (ops.filterMap Op.attached).Nodup) (hfuel : ops.length ≤ fuel) :
    ∃ h, (do
        setMap fuel root map
        ops.forM (Op.exec fuel root) : KM (Sheets α) Unit).run h0 = .ok () h ∧
      ∃ cs m, Chain h (h root).bottomChild cs ∧ (∀ c, c ∈ cs ↔ c ∈ ops.filterMap Op.attached) ∧ (h root).map = some m ∧
        ∀ x y, (h root).getClientRect.isPointInRect x y →
          m (y * (h root).rect.xsize + x) = top (visible h x y) cs ∧
          ∀ c, m (y * (h root).rect.xsize + x) = some c →
            (h root).buf (y * (h root).rect.xsize + x) = (h c).pixelAt x y := by
  obtain ⟨h1, hrun1, hi1⟩ := hs.setMap fuel map
  obtain ⟨h2, cs, hrun2, hi2, hmem⟩ := hi1.run ops hroot (fun _ _ => not_mem_nil) honce
    (show _ ≤ fuel by simpa using hfuel)
  obtain ⟨m, hm, he⟩ := hi2.exact
  refine ⟨h2, (run_bind_eq hrun1).trans hrun2, cs, m, hi2.family.chain, fun c => ?_, hm, fun x y hp => ?_⟩
  · rw [hmem c]
    simp
  · exact ⟨he.map x y hp, he.buf x y hp⟩

/-- A screen of 8 by 8 pixels with two windows of 4 by 4, a cursor over a background. -/
def twoWindows : Sheets (Fin 3)
  | 0 => .init (fun _ => 0#32) 8 8 8 0 0
  | 1 => .init (fun _ => 0xff0000ff#32) 4 4 4 0 0
  | 2 => { Sheet.init (fun i => if i % 2 = 0 then 0#32 else 0xffffffff#32) 4 4 4 2 2 with isTopmost := true }

/-- The cursor becomes transparent, and the window moves below it and off the screen. -/
theorem compositing_exact_twoWindows : ∃ h, (do
      setMap 5 0 (fun _ => some 2)
      [Op.setParent 2, .setAlphaEnabled 2, .setParent 1, .moveRelative 1 3 1, .setPosition 1 (-2) 5].forM
        (Op.exec 5 0) : KM (Sheets (Fin 3)) Unit).run twoWindows = .ok () h ∧
      ∃ cs m, Chain h (h 0).bottomChild cs ∧ (∀ c, c ∈ cs ↔ c ∈ [2, 1]) ∧ (h 0).map = some m ∧
        ∀ x y, (h 0).getClientRect.isPointInRect x y → m (y * (h 0).rect.xsize + x) = top (visible h x y) cs ∧
          ∀ c, m (y * (h 0).rect.xsize + x) = some c → (h 0).buf (y * (h 0).rect.xsize + x) = (h c).pixelAt x y :=
  compositing_exact ⟨rfl, rfl, rfl, rfl, by decide⟩ _ (by decide) (by decide) (by decide)

end Liumos.Gui
