/-
Switching transparency. `SetAlphaEnabled(true)` updates the map, `SetAlphaEnabled(false)` does not: a sheet
that was transparent at a pixel covers it from then on, while the map still names what showed through. Over
every history, the map stays exact as long as no such call uncovers the sheet at a pixel.
Source: sheet.h.
-/
import Liumos.Gui.Compositing
import Liumos.Machine.Crash
import Liumos.Machine.Runs

namespace Liumos.Gui

open List

open Layers (top)

section

variable {α : Type} {h : Sheets α} {root c : α} {cs : List α}

/-- The map of `root` names at each of its pixels the topmost of its children that is visible there. -/
def MapExact (root : α) (h : Sheets α) : Prop :=
  ∃ cs m, Chain h (h root).bottomChild cs ∧ (∀ c, c ≠ root → (c ∈ cs ↔ (h c).parent = some root)) ∧ (h root).map =
    some m ∧ ∀ x y, inClient h root x y → m (cell h root x y) = top (visible h x y) cs

/-- Without transparency the child `c` would show at some pixel at which it does not show: it covers the pixel, it
is transparent there, and no sheet above it is visible. -/
def Uncovers (h : Sheets α) (root c : α) : Prop :=
  (h c).parent = some root ∧ ∃ x y, inClient h root x y ∧ (h c).rect.isPointInRect x y ∧ visible h x y c = false ∧
    ∀ l, Chain h (h c).upper l → ∀ d ∈ l, visible h x y d = false

theorem Chain.unique : ∀ {cs cs' : List α} {o : Option α}, Chain h o cs → Chain h o cs' → cs = cs'
  | [], [], _, _, _ => rfl
  | [], c :: _, _, h1, h2 => by
    cases h1.symm.trans h2.1
  | c :: _, [], _, h1, h2 => by
    cases h2.symm.trans h1.1
  | c :: cs, c' :: cs', _, h1, h2 => by
    obtain rfl : c = c' := Option.some_inj.1 (h1.1.symm.trans h2.1)
    rw [h1.2.unique h2.2]

theorem Chain.above : ∀ {l1 l2 : List α} {o : Option α}, Chain h o (l1 ++ c :: l2) → Chain h (h c).upper l2
  | [], _, _, hc => hc.2
  | _ :: _, _, _, hc => hc.2.above

variable [DecidableEq α] {fuel : Nat}

theorem Family.mem_iff (hf : Family root cs h) (hc : c ≠ root) : c ∈ cs ↔ (h c).parent = some root := by
  rw [hf.parent c hc]
  split_ifs with hmem
  · exact iff_of_true hmem rfl
  · exact iff_of_false hmem nofun

theorem Inv.mapExact (hi : Inv root cs h) : MapExact root h := by
  obtain ⟨m, hm, he⟩ := hi.exact
  exact ⟨cs, m, hi.family.chain, fun c hc => hi.family.mem_iff hc, hm, he.map⟩

/-! ## Without transparency -/

/-- `is_alpha_enabled_ = false`. -/
def withoutAlpha (h : Sheets α) (c : α) : Sheets α := Function.update h c { h c with isAlphaEnabled := false }

theorem withoutAlpha_of_ne {d : α} (hd : d ≠ c) : withoutAlpha h c d = h d := Function.update_of_ne hd ..

theorem visible_withoutAlpha_of_ne {d : α} (hd : d ≠ c) (x y : Int) :
    visible (withoutAlpha h c) x y d = visible h x y d := by
  rw [visible, visible, withoutAlpha_of_ne hd]

theorem visible_withoutAlpha (x y : Int) :
    visible (withoutAlpha h c) x y c = decide ((h c).rect.isPointInRect x y) := by
  rw [visible, withoutAlpha, Function.update_self]
  simp

theorem Inv.family_withoutAlpha (hi : Inv root cs h) (hc : c ≠ root) : Family root cs (withoutAlpha h c) :=
  hi.family.update hc rfl rfl

/-- What shows at a pixel stays the same without transparency, if the sheet is not uncovered there. -/
theorem Inv.top_withoutAlpha_iff {l1 l2 : List α} (hi : Inv root (l1 ++ c :: l2) h) (x y : Int) :
    top (visible (withoutAlpha h c) x y) (l1 ++ c :: l2) = top (visible h x y) (l1 ++ c :: l2) ↔
      ¬((h c).rect.isPointInRect x y ∧ visible h x y c = false ∧ ∀ l, Chain h (h c).upper l → ∀ d ∈ l, visible h x y d =
      false) := by
  have hnodup : c ∉ l1 ++ l2 := (nodup_middle.1 hi.family.nodup).notMem
  have habove : ∀ l, Chain h (h c).upper l ↔ l = l2 := fun l =>
    ⟨fun hl => hl.unique hi.family.chain.above, fun hl => hl ▸ hi.family.chain.above⟩
  have hmono : visible h x y c = true → visible (withoutAlpha h c) x y c = true := by
    rw [visible_withoutAlpha, decide_eq_true_iff]
    exact visible_rect
  rw [Layers.top_show_iff (fun e he => visible_withoutAlpha_of_ne he x y) hnodup hmono, visible_withoutAlpha,
    decide_eq_true_iff]
  simp only [habove, forall_eq, not_and, not_forall, Bool.not_eq_false, exists_prop]

theorem Inv.setAlphaDisabled (hi : Inv root cs h) (hc : c ≠ root) (hu : ¬Uncovers h root c) :
    Inv root cs (withoutAlpha h c) := by
  obtain ⟨m, hm, he⟩ := hi.exact
  have hroot : withoutAlpha h c root = h root := withoutAlpha_of_ne hc.symm
  have hclient : ∀ {x y}, inClient (withoutAlpha h c) root x y → inClient h root x y :=
    fun hp => by rwa [inClient, hroot] at hp
  have hcell : ∀ x y, cell (withoutAlpha h c) root x y = cell h root x y := fun x y => by rw [cell, cell, hroot]
  have htop : ∀ x y, inClient h root x y → top (visible (withoutAlpha h c) x y) cs = top (visible h x y) cs := by
    intro x y hp
    by_cases hmem : c ∈ cs
    · obtain ⟨_, _, rfl⟩ := append_of_mem hmem
      refine (hi.top_withoutAlpha_iff x y).2 fun hshow => hu ?_
      exact ⟨hi.family.parent_of_mem hmem, x, y, hp, hshow⟩
    · exact Layers.top_congr_of_notMem (fun e he => visible_withoutAlpha_of_ne he x y) hmem
  refine ⟨hi.family_withoutAlpha hc, m, by rw [hroot, hm], ?_, ?_⟩
  · intro x y hp
    rw [hcell, he.map x y (hclient hp), htop x y (hclient hp)]
  · intro x y hp d hd
    rw [hcell] at hd
    rw [hroot, hcell, he.buf x y (hclient hp) d hd]
    by_cases hdc : d = c
    · subst hdc
      rw [withoutAlpha, Function.update_self]
      rfl
    · rw [withoutAlpha_of_ne hdc]

/-- The map does not follow when the sheet is uncovered. -/
theorem Inv.not_mapExact (hi : Inv root cs h) (hc : c ≠ root) (hu : Uncovers h root c) :
    ¬MapExact root (withoutAlpha h c) := by
  rintro ⟨cs', m', hchain, -, hm', hexact⟩
  obtain ⟨m, hm, he⟩ := hi.exact
  obtain ⟨hparent, x, y, hp, hshow⟩ := hu
  have hroot : withoutAlpha h c root = h root := withoutAlpha_of_ne hc.symm
  obtain rfl : cs = cs' := (hi.family_withoutAlpha hc).chain.unique hchain
  obtain rfl : m = m' := by
    rw [hroot, hm] at hm'
    exact Option.some_inj.1 hm'
  have hmap := hexact x y (by rwa [inClient, hroot])
  rw [cell, hroot] at hmap
  obtain ⟨_, _, rfl⟩ := append_of_mem ((hi.family.mem_iff hc).2 hparent)
  exact (hi.top_withoutAlpha_iff x y).1 (hmap.symm.trans (he.map x y hp)) hshow

/-! ## Runs -/

/-- The operations of before, with `SetAlphaEnabled(true)` among them, and `SetAlphaEnabled(false)`. -/
inductive AlphaOp (α : Type) where
  | of (op : Op α)
  | setAlphaDisabled (c : α)

def AlphaOp.sheet : AlphaOp α → α
  | .of op => op.sheet
  | .setAlphaDisabled c => c

def AlphaOp.attached : AlphaOp α → Option α
  | .of op => op.attached
  | .setAlphaDisabled _ => none

def AlphaOp.exec (fuel : Nat) (root : α) : AlphaOp α → KM (Sheets α) Unit
  | .of op => op.exec fuel root
  | .setAlphaDisabled c => Gui.setAlphaEnabled fuel c false

theorem Inv.execAlpha (hi : Inv root cs h) (op : AlphaOp α) (hc : op.sheet ≠ root)
    (hnew : ∀ c, op.attached = some c → c ∉ cs) (hcovered : ∀ c, op = .setAlphaDisabled c → ¬Uncovers h root c)
    (hfuel : cs.length < fuel) :
    ∃ h' cs', (op.exec fuel root).run h = .ok () h' ∧ Inv root cs' h' ∧ cs'.length ≤ cs.length + 1 ∧
      ∀ d, d ∈ cs' ↔ d ∈ cs ∨ op.attached = some d := by
  cases op with
  | of op => exact hi.exec op hc hnew hfuel
  | setAlphaDisabled c =>
    exact ⟨_, cs, rfl, hi.setAlphaDisabled hc (hcovered c rfl), Nat.le_succ _, fun d => by simp [AlphaOp.attached]⟩

/-- The map is exact, and the operations that are still to come attach sheets that are not attached yet. -/
def Ready (fuel : Nat) (root : α) (ops : List (AlphaOp α)) (h : Sheets α) : Prop :=
  ∃ cs, Inv root cs h ∧ (∀ op ∈ ops, op.sheet ≠ root) ∧ (∀ c ∈ ops.filterMap AlphaOp.attached, c ∉ cs) ∧
    (ops.filterMap AlphaOp.attached).Nodup ∧ cs.length + ops.length ≤ fuel

theorem Ready.exec {op : AlphaOp α} {ops : List (AlphaOp α)} (hr : Ready fuel root (op :: ops) h)
    (hcovered : ∀ c, op = .setAlphaDisabled c → ¬Uncovers h root c) :
    ∃ h', (op.exec fuel root).run h = .ok () h' ∧ Ready fuel root ops h' := by
  obtain ⟨cs, hi, hroot, hnew, honce, hfuel⟩ := hr
  rw [length_cons] at hfuel
  obtain ⟨h', cs', hrun, hi', hlen, hmem⟩ := hi.execAlpha op (hroot op mem_cons_self)
    (fun c hc => hnew c (mem_filterMap.2 ⟨op, mem_cons_self, hc⟩)) hcovered (show cs.length < fuel by omega)
  refine ⟨h', hrun, cs', hi', fun op' hop' => hroot op' (mem_cons_of_mem op hop'),
    notMem_attached hnew honce hmem, ?_, by omega⟩
  exact honce.sublist ((sublist_cons_self op ops).filterMap _)

theorem Ready.not_mapExact {op : AlphaOp α} {ops : List (AlphaOp α)} (hr : Ready fuel root (op :: ops) h)
    (hcovered : ¬∀ c, op = .setAlphaDisabled c → ¬Uncovers h root c) {h' : Sheets α}
    (hrun : (op.exec fuel root).run h = .ok () h') : ¬MapExact root h' := by
  obtain ⟨_, hi, hroot, -⟩ := hr
  simp only [not_forall, not_not, exists_prop] at hcovered
  obtain ⟨c, rfl, hu⟩ := hcovered
  obtain rfl : withoutAlpha h c = h' := (run_pure_ok (a := ()) hrun).2
  exact hi.not_mapExact (hroot _ mem_cons_self) hu

/-- `SetMap` on a parent without children, then any operations on other sheets, each attached at most once, with
transparency switched on and off: after every call the map names at every pixel the topmost child that covers it
and is opaque there, exactly when no call of `SetAlphaEnabled(false)` uncovers its sheet at a pixel. -/
theorem alpha_mapExact_iff (hs : Start root h) (map : SheetMap α) {ops : List (AlphaOp α)}
    (hroot : ∀ op ∈ ops, op.sheet ≠ root) (honce : (ops.filterMap AlphaOp.attached).Nodup) (hfuel : ops.length ≤ fuel) :
    (∀ i, ∃ h', (do
        setMap fuel root map
        (ops.take i).forM (AlphaOp.exec fuel root) : KM (Sheets α) Unit).run h = .ok () h' ∧ MapExact root h') ↔
      ∀ i c h', ops[i]? = some (.setAlphaDisabled c) → (do
        setMap fuel root map
        (ops.take i).forM (AlphaOp.exec fuel root) : KM (Sheets α) Unit).run h = .ok () h' → ¬Uncovers h' root c := by
  obtain ⟨h1, hrun1, hi1⟩ := hs.setMap fuel map
  simp only [run_bind_eq hrun1]
  have hready : Ready fuel root ops h1 := ⟨[], hi1, hroot, fun _ _ => not_mem_nil, honce, by simpa using hfuel⟩
  have hiff := afterEach_iff_beforeEach (P := MapExact root)
    (Q := fun op h => ∀ c, op = .setAlphaDisabled c → ¬Uncovers h root c)
    (fun _ _ hr => by obtain ⟨_, hi, -⟩ := hr; exact hi.mapExact) (fun _ _ _ hr hq => hr.exec hq)
    (fun _ _ _ hr hq _ hrun => hr.not_mapExact hq hrun) ops h1 hready
  refine hiff.trans ⟨fun hall i c h' hop hrun => hall i _ h' hop hrun c rfl, fun hall i op h' hop hrun c hc => ?_⟩
  exact hall i c h' (hc ▸ hop) hrun

end

/-- A screen of one pixel, a sheet that is transparent and one that is not. -/
def panes : Sheets (Fin 3)
  | 0 => .init (fun _ => 0#32) 1 1 1 0 0
  | 1 => .init (fun _ => 0#32) 1 1 1 0 0
  | 2 => .init (fun _ => 0xffffffff#32) 1 1 1 0 0

theorem panes_start : Start 0 panes := ⟨rfl, rfl, rfl, rfl, by decide⟩

/-- `SetMap`, then one of the sheets is attached and becomes transparent. -/
def showPane (c : Fin 3) : KM (Sheets (Fin 3)) Unit := do
  setMap 3 0 fun _ => none
  [AlphaOp.of (.setParent c), .of (.setAlphaEnabled c)].forM (AlphaOp.exec 3 0)

theorem inClient_panes {h : Sheets (Fin 3)} (hr : (h 0).rect = ⟨0, 0, 1, 1⟩) {x y : Int} (hp : inClient h 0 x y) :
    x = 0 ∧ y = 0 := by
  unfold inClient Sheet.getClientRect Rect.isPointInRect at hp
  rw [hr] at hp
  simp only at hp
  omega

/-- A sheet without transparent pixels is switched to transparent and back. -/
theorem alpha_mapExact_pane : Start 0 panes ∧ ∀ i, ∃ h', (do
      setMap 3 0 fun _ => none
      ([AlphaOp.of (.setParent 2), .of (.setAlphaEnabled 2), .setAlphaDisabled 2].take i).forM (AlphaOp.exec 3 0) :
        KM (Sheets (Fin 3)) Unit).run panes = .ok () h' ∧ MapExact 0 h' := by
  refine ⟨panes_start, ?_⟩
  refine (alpha_mapExact_iff panes_start _ (by decide) (by decide) (by decide)).2 ?_
  rintro i c h' hop hrun ⟨-, x, y, hp, -, hhidden, -⟩
  obtain ⟨rfl, rfl⟩ : i = 2 ∧ c = 2 := by
    rcases i with _ | _ | _ | i <;> cases hop
    exact ⟨rfl, rfl⟩
  have hh' : h' = final ((showPane 2).run panes) := congrArg final hrun.symm
  obtain ⟨rfl, rfl⟩ := inClient_panes (h := h') (by rw [hh']; decide +kernel) hp
  rw [hh'] at hhidden
  revert hhidden
  decide +kernel

/-- The transparent sheet is switched to transparent and back: it covers the pixel, but the map does not name it. -/
theorem alpha_map_stale : Start 0 panes ∧ ∃ h', (do
      setMap 3 0 fun _ => none
      [AlphaOp.of (.setParent 1), .of (.setAlphaEnabled 1), .setAlphaDisabled 1].forM (AlphaOp.exec 3 0) :
        KM (Sheets (Fin 3)) Unit).run panes = .ok () h' ∧ ¬MapExact 0 h' := by
  obtain ⟨h0, hrun0, hi0⟩ := panes_start.setMap 3 fun _ => none
  obtain ⟨h1, _, hrun1, hi1, -⟩ := hi0.run [.setParent 1, .setAlphaEnabled 1] (by decide) (by decide) (by decide)
    (show 0 + 2 ≤ 3 by decide)
  have hrun : (showPane 1).run panes = .ok () h1 := (run_bind_eq hrun0).trans hrun1
  have hh1 : h1 = final ((showPane 1).run panes) := congrArg final hrun.symm
  have hupper : (h1 1).upper = none := by
    rw [hh1]
    decide +kernel
  have hu : Uncovers h1 0 1 := by
    rw [Uncovers, hupper]
    refine ⟨?_, 0, 0, ?_, ?_, ?_, fun l hl d hd => ?_⟩
    · rw [hh1]
      decide +kernel
    · rw [hh1]
      show (final ((showPane 1).run panes) 0).getClientRect.isPointInRect 0 0
      decide +kernel
    · rw [hh1]
      decide +kernel
    · rw [hh1]
      decide +kernel
    · cases l with
      | nil => cases hd
      | cons e l => cases hl.1
  refine ⟨panes_start, withoutAlpha h1 1, ?_, hi1.not_mapExact (by decide) hu⟩
  rw [run_bind_eq hrun0]
  have hsplit : ([.of (.setParent 1), .of (.setAlphaEnabled 1)] ++ [.setAlphaDisabled 1] : List (AlphaOp (Fin 3))).forM
      (AlphaOp.exec 3 0) = _ := forM_append
  exact (congrArg (fun x => x.run h0) hsplit).trans (run_bind_eq hrun1)

end Liumos.Gui
