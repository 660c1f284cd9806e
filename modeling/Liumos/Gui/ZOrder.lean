/-
The z-order of the sheets. A sheet links its children through their own links `upper_`, and `SetParent` puts a
sheet into the list of its new parent without taking it out of the list it was in. The lists of all sheets stay
well formed exactly as long as no sheet that has a parent is given another one, the same one, or none.
Source: sheet.h.
-/
import Liumos.Gui.Compositing
import Liumos.Machine.Runs

namespace Liumos.Gui

open List Function
open Holder (upper bottomChild)

variable {α : Type} {h h' : Sheets α} {p q c : α} {cs : List α} {k k' : Holder α}

/-- The links from the bottom child of `p` on lead to `cs`, which are the children of `p`, each one once. -/
structure Children (h : Sheets α) (p : α) (cs : List α) : Prop where
  chain : Chain h ((Holder.bottomChild p).read h) cs
  nodup : cs.Nodup
  mem : ∀ c, c ∈ cs ↔ (h c).parent = some p

def WellFormed (h : Sheets α) : Prop := ∀ p, ∃ cs, Children h p cs

/-! ## Links -/

/-- A chain and what its links read: each of its sheets, and null at the end. -/
theorem Chain.reads : ∀ {cs : List α} {k : Holder α}, Chain h (k.read h) cs →
    (k :: cs.map upper).map (Holder.read h) = cs.map some ++ [none]
  | [], k, hc => by
    have hnull : k.read h = none := hc
    simp [hnull]
  | c :: cs, k, ⟨hread, hc⟩ => by
    have hrest := Chain.reads (k := upper c) hc
    rw [map_cons, map_cons, hread, hrest]
    rfl

/-- No sheet of a chain is above itself. -/
theorem Chain.upper_ne : ∀ {cs : List α} {o : Option α}, Chain h o cs → c ∈ cs → (h c).upper ≠ some c
  | [], _, _, hmem => nomatch hmem
  | d :: cs, _, ⟨_, hc⟩, hmem => by
    intro hself
    rcases mem_cons.1 hmem with rfl | hmem
    · -- the chain would go on from here for ever
      rw [hself] at hc
      cases cs with
      | nil => cases hc
      | cons e cs =>
        have he : e = c := (Option.some_inj.1 hc.1).symm
        exact hc.upper_ne (he ▸ mem_cons_self) hself
    · exact hc.upper_ne hmem hself

/-- A link of the list of the children of `p`. -/
def IsLink (h : Sheets α) (p : α) (k : Holder α) : Prop :=
  k = .bottomChild p ∨ ∃ d, (h d).parent = some p ∧ k = .upper d

theorem Children.mem_links (hcs : Children h p cs) : k ∈ bottomChild p :: cs.map upper ↔ IsLink h p k := by
  simp only [IsLink, mem_cons, mem_map, hcs.mem, eq_comm]

/-- Only one link leads to a child. -/
theorem WellFormed.link_unique (hw : WellFormed h) (hk : IsLink h p k) (hk' : IsLink h p k') (hread : k.read h = some c)
    (hread' : k'.read h = some c) : k = k' := by
  obtain ⟨cs, hcs⟩ := hw p
  have hnodup : ((bottomChild p :: cs.map upper).map (Holder.read h)).Nodup := by
    rw [hcs.chain.reads, nodup_append]
    refine ⟨hcs.nodup.map (Option.some_injective α), nodup_singleton none, ?_⟩
    simp
  exact inj_on_of_nodup_map hnodup (hcs.mem_links.2 hk) (hcs.mem_links.2 hk') (hread.trans hread'.symm)

/-- What a link leads to is a child. -/
theorem WellFormed.parent_of_link (hw : WellFormed h) (hk : IsLink h p k) (hread : k.read h = some c) :
    (h c).parent = some p := by
  obtain ⟨_, hcs⟩ := hw p
  have hmem := mem_map_of_mem (f := Holder.read h) (hcs.mem_links.2 hk)
  rw [hcs.chain.reads, hread] at hmem
  exact (hcs.mem c).1 (by simpa using hmem)

theorem WellFormed.upper_ne (hw : WellFormed h) (hc : (h c).parent = some p) : (h c).upper ≠ some c := by
  obtain ⟨_, hcs⟩ := hw p
  exact hcs.chain.upper_ne ((hcs.mem c).2 hc)

/-- Some link leads to a child, and not its own. -/
theorem WellFormed.exists_link (hw : WellFormed h) (hc : (h c).parent = some p) :
    ∃ k, IsLink h p k ∧ k.read h = some c ∧ k ≠ .upper c := by
  obtain ⟨cs, hcs⟩ := hw p
  have hmem : some c ∈ cs.map some ++ [none] := mem_append_left _ (mem_map_of_mem ((hcs.mem c).2 hc))
  rw [← hcs.chain.reads] at hmem
  obtain ⟨k, hk, hread⟩ := mem_map.1 hmem
  refine ⟨k, hcs.mem_links.1 hk, hread, ?_⟩
  rintro rfl
  exact hw.upper_ne hc hread

/-! ## Drawing leaves the links alone -/

/-- What a sheet has of the lists. -/
def linksOf (h : Sheets α) (s : α) : Option α × Option α × Option α := ((h s).parent, (h s).upper, (h s).bottomChild)

section

variable (hl : linksOf h' = linksOf h) (s : α)

include hl s

theorem parent_eq_of_linksOf : (h' s).parent = (h s).parent := congrArg Prod.fst (congrFun hl s)

theorem upper_eq_of_linksOf : (h' s).upper = (h s).upper := congrArg (fun l => l.2.1) (congrFun hl s)

theorem bottomChild_eq_of_linksOf : (h' s).bottomChild = (h s).bottomChild := congrArg (fun l => l.2.2) (congrFun hl s)

end

theorem Children.congr (hcs : Children h p cs) (hl : linksOf h' = linksOf h) : Children h' p cs where
  chain := by
    rw [Holder.read, bottomChild_eq_of_linksOf hl]
    exact hcs.chain.congr fun c _ => upper_eq_of_linksOf hl c
  nodup := hcs.nodup
  mem := fun c => by rw [hcs.mem c, parent_eq_of_linksOf hl]

theorem WellFormed.congr (hw : WellFormed h) (hl : linksOf h' = linksOf h) : WellFormed h' := by
  intro p
  obtain ⟨cs, hcs⟩ := hw p
  exact ⟨cs, hcs.congr hl⟩

section

variable [DecidableEq α] {fuel : Nat} {target r : Rect}

theorem linksOf_update {s : Sheet α} (hs : (s.parent, s.upper, s.bottomChild) = linksOf h c) :
    linksOf (update h c s) = linksOf h :=
  funext (field_update (fun s : Sheet α => (s.parent, s.upper, s.bottomChild)) hs)

omit [DecidableEq α] in
theorem keeps_drawChildren {w : Int} : ∀ fuel o map, Keeps linksOf (drawChildren h w target fuel o map)
  | _, none, map => by
    unfold drawChildren
    exact .pure map
  | 0, some _, _ => .throw _
  | fuel + 1, some s, map => keeps_drawChildren fuel (h s).upper _

theorem keeps_updateMap (fuel : Nat) (this : α) (target : Rect) : Keeps linksOf (updateMap fuel this target) := by
  refine .bind .get fun h => ?_
  cases (h this).map with
  | none => exact .pure ()
  | some map => exact (keeps_drawChildren fuel _ _).bind fun map => .modify fun s => linksOf_update rfl

theorem keeps_flushInParent (this : α) (r : Rect) : Keeps linksOf (flushInParent this r) := by
  refine .bind .get fun h => ?_
  cases (h this).parent with
  | none => exact .throw _
  | some parent =>
    refine .ite (.pure ()) ?_
    cases (h parent).map with
    | none => exact .pure ()
    | some map => exact (Keeps.assert _ _).bind fun _ => Keeps.modify fun s => linksOf_update rfl

theorem keeps_flush (this : α) (r : Rect) : Keeps linksOf (flush this r) := by
  refine .bind .get fun h => ?_
  cases (h this).parent with
  | none => exact .throw _
  | some parent => exact keeps_flushInParent this _

/-- The rest of `SetParent` once the sheet has its links. -/
def drawNew (fuel : Nat) (this parent : α) : KM (Sheets α) Unit := do
  updateMap fuel parent ((← get) this).rect
  flush this ((← get) this).getClientRect

theorem keeps_drawNew : Keeps linksOf (drawNew fuel c p) :=
  Keeps.get.bind fun _ => (keeps_updateMap _ _ _).bind fun _ => Keeps.get.bind fun _ => keeps_flush _ _

/-! ## Drawing returns -/

theorem exists_run_updateMap (hcs : Children h p cs) (hfuel : cs.length ≤ fuel) (target : Rect) :
    ∃ h', (updateMap fuel p target).run h = .ok () h' := by
  rw [updateMap, run_get_bind]
  cases (h p).map with
  | none => exact ⟨h, rfl⟩
  | some map => exact ⟨_, run_bind_eq (run_drawChildren _ hcs.chain hfuel)⟩

theorem exists_run_flushInParent (hp : (h c).parent = some p) (r : Rect) :
    ∃ h', (flushInParent c r).run h = .ok () h' := by
  rw [flushInParent, run_get_bind, hp]
  dsimp only
  split_ifs with hsize
  · exact ⟨h, rfl⟩
  · cases (h p).map with
    | none => exact ⟨h, rfl⟩
    | some map =>
      exact ⟨_, run_bind_eq (Sheet.run_assertHolds rfl hsize h)⟩

theorem exists_run_drawNew (hcs : Children h p cs) (hc : (h c).parent = some p) (hfuel : cs.length ≤ fuel) :
    ∃ h', (drawNew fuel c p).run h = .ok () h' := by
  obtain ⟨h1, hrun1⟩ := exists_run_updateMap hcs hfuel (h c).rect
  have hc1 : (h1 c).parent = some p := (parent_eq_of_linksOf (keeps_updateMap _ _ _ _ _ _ hrun1) c).trans hc
  obtain ⟨h2, hrun2⟩ := exists_run_flushInParent hc1 ((h1 c).flushArea (h1 p) (h1 c).getClientRect)
  refine ⟨h2, ?_⟩
  rw [drawNew, run_get_bind, run_bind_eq hrun1, run_get_bind, flush, run_get_bind, hc1]
  exact hrun2

/-! ## One call -/

omit [DecidableEq α] in
/-- Whatever the link at which the loop of `SetParent` stops, it is one of the new parent. -/
theorem topmostUpperHolder_mem {s s' : Sheets α} : ∀ {cs : List α} {fuel : Nat} {k : Holder α}, Chain h (k.read h) cs →
    (topmostUpperHolder h fuel k).run s = .ok k' s' → s' = s ∧ k' ∈ k :: cs.map upper
  | [], fuel + 1, k, hc, hrun => by
    rw [topmostUpperHolder, show k.read h = none from hc] at hrun
    cases hrun
    exact ⟨rfl, mem_cons_self⟩
  | c :: cs, fuel + 1, k, ⟨hread, hc⟩, hrun => by
    rw [topmostUpperHolder, hread] at hrun
    dsimp only at hrun
    split_ifs at hrun with htop
    · cases hrun
      exact ⟨rfl, mem_cons_self⟩
    · obtain ⟨hs, hmem⟩ := topmostUpperHolder_mem (k := .upper c) hc hrun
      exact ⟨hs, mem_cons_of_mem k hmem⟩

variable {holder : Holder α} {h1 : Sheets α} {n : Nat}

theorem run_setParent_eq (hh1 : h1 = update h c { h c with parent := some p })
    (hholder : (topmostUpperHolder h1 fuel (.bottomChild p)).run h1 = .ok holder h1) :
    (setParent fuel c (some p)).run h = (drawNew fuel c p).run (adopt h p holder c) := by
  subst hh1
  exact run_bind_eq hholder

theorem parent_adopt (holder : Holder α) (d : α) :
    (adopt h p holder c d).parent = if d = c then some p else (h d).parent := by
  obtain ⟨_, _, hd⟩ := adopt_eq h p holder c d
  rw [hd]

/-- Giving a parent is no change of links. -/
theorem read_setParent (k : Holder α) (o : Option α) : k.read (update h c { h c with parent := o }) = k.read h := by
  cases k with
  | bottomChild s => exact field_update Sheet.bottomChild (by rfl) s
  | upper s => exact field_update Sheet.upper (by rfl) s

theorem Chain.setParent {o : Option α} (hc : Chain h (k.read h) cs) :
    Chain (update h c { h c with parent := o }) (k.read (update h c { h c with parent := o })) cs := by
  rw [read_setParent]
  exact hc.congr fun d _ => read_setParent (.upper d) o

/-- A sheet that has a parent is still linked where it was, so the lists are not well formed after any call of
`SetParent` on it that returns. -/
theorem WellFormed.not_of_setParent (hw : WellFormed h) (hq : (h c).parent = some q) {parent : Option α}
    (hrun : (Gui.setParent fuel c parent).run h = .ok () h') : ¬WellFormed h' := by
  obtain ⟨k, hk, hread, hself⟩ := hw.exists_link hq
  -- a link other than the sheet's own stays one of its old parent
  have hstay : ∀ {h' : Sheets α}, (∀ d, d ≠ c → (h' d).parent = (h d).parent) → IsLink h' q k := by
    rintro h' hpar
    rcases hk with hk | ⟨d, hd, rfl⟩
    · exact .inl hk
    · have hdc : d ≠ c := fun hdc => hself (hdc ▸ rfl)
      exact .inr ⟨d, (hpar d hdc).trans hd, rfl⟩
  cases parent with
  | none =>
    obtain rfl : update h c { h c with parent := none } = h' := (run_pure_ok (a := ()) hrun).2
    intro hw'
    have hc := hw'.parent_of_link (hstay fun d hd => by rw [update_of_ne hd]) ((read_setParent k none).trans hread)
    rw [update_self] at hc
    cases hc
  | some p =>
    obtain ⟨_, hcs⟩ := hw p
    obtain ⟨holder, _, hholder, -⟩ := run_bind_ok (x := topmostUpperHolder _ fuel (.bottomChild p)) hrun
    obtain ⟨rfl, hmem⟩ := topmostUpperHolder_mem (hcs.chain.setParent (c := c) (o := some p)) hholder
    rw [run_setParent_eq rfl hholder] at hrun
    have hl := keeps_drawNew _ _ _ hrun
    intro hw'
    have hw2 : WellFormed (adopt h p holder c) := hw'.congr hl.symm
    have hc2 : (adopt h p holder c c).parent = some p := by rw [parent_adopt, if_pos rfl]
    by_cases hkh : k = holder
    · -- the link to the sheet is where it is put in: it comes above itself
      subst hkh
      refine hw2.upper_ne hc2 ?_
      exact ((read_attach_upper hself).trans (read_setParent k _)).trans hread
    · -- otherwise two links lead to it
      have hread2 : k.read (adopt h p holder c) = some c :=
        ((read_attach_of_ne hkh hself).trans (read_setParent k _)).trans hread
      have hk2 : IsLink (adopt h p holder c) q k := hstay fun d hd => by rw [parent_adopt, if_neg hd]
      obtain rfl : p = q := Option.some_inj.1 (hc2.symm.trans (hw2.parent_of_link hk2 hread2))
      have hholder2 : IsLink (adopt h p holder c) p holder := by
        rcases hcs.mem_links.1 hmem with hb | ⟨d, hd, hu⟩
        · exact .inl hb
        · refine .inr ⟨d, ?_, hu⟩
          rw [parent_adopt, hd, ite_self]
      exact hkh (hw2.link_unique hk2 hholder2 hread2 read_attach_self)

/-- The lists are well formed and have at most `n` sheets. -/
def Linked (n : Nat) (h : Sheets α) : Prop := ∀ p, ∃ cs, Children h p cs ∧ cs.length ≤ n

section

omit [DecidableEq α]

theorem Linked.wellFormed (hl : Linked n h) : WellFormed h := by
  intro p
  obtain ⟨cs, hcs, -⟩ := hl p
  exact ⟨cs, hcs⟩

theorem Linked.congr {n : Nat} (hn : Linked n h) (hl : linksOf h' = linksOf h) : Linked (n + 1) h' := by
  intro p
  obtain ⟨cs, hcs, hlen⟩ := hn p
  exact ⟨cs, hcs.congr hl, Nat.le_succ_of_le hlen⟩

end

/-- The list of another parent, when a sheet without a parent is put into the list of `p`. -/
theorem Children.adopt_of_ne (hcs : Children h q cs) (hqp : q ≠ p) (hc : (h c).parent = none)
    (hholder : IsLink h p holder) : Children (adopt h p holder c) q cs where
  chain := by
    have hne : ∀ k, IsLink h q k → k ≠ holder := by
      rintro _ (rfl | ⟨d, hd, rfl⟩) rfl
      · rcases hholder with hb | ⟨e, -, hu⟩
        · exact hqp (Holder.bottomChild.inj hb)
        · cases hu
      · rcases hholder with hb | ⟨e, he, hu⟩
        · cases hb
        · cases hu
          exact hqp (Option.some_inj.1 (hd.symm.trans he))
    rw [adopt, read_attach_of_ne (hne _ (.inl rfl)) nofun, read_setParent]
    refine hcs.chain.congr fun d hd => ?_
    have hd' := (hcs.mem d).1 hd
    have hdc : d ≠ c := by
      rintro rfl
      cases hd'.symm.trans hc
    exact (read_attach_of_ne (hne _ (.inr ⟨d, hd', rfl⟩)) fun hu => hdc (Holder.upper.inj hu)).trans
      (read_setParent (.upper d) (some p))
  nodup := hcs.nodup
  mem := by
    intro d
    rw [hcs.mem d, parent_adopt]
    by_cases hdc : d = c
    · subst hdc
      rw [if_pos rfl, hc, Option.some_inj]
      exact iff_of_false nofun hqp.symm
    · rw [if_neg hdc]

theorem Linked.setParent {n : Nat} (hl : Linked n h) (hc : (h c).parent = none) (hfuel : n < fuel) (parent : Option α) :
    ∃ h', (Gui.setParent fuel c parent).run h = .ok () h' ∧ Linked (n + 1) h' ∧
      ∀ d, (h' d).parent = if d = c then parent else (h d).parent := by
  cases parent with
  | none =>
    have hsame : linksOf (update h c { h c with parent := none }) = linksOf h :=
      linksOf_update (by rw [linksOf, hc])
    refine ⟨_, rfl, hl.congr hsame, fun d => ?_⟩
    rw [parent_eq_of_linksOf hsame]
    split_ifs with hd
    · rw [hd, hc]
    · rfl
  | some p =>
    obtain ⟨cs, hcs, hlen⟩ := hl p
    have hnew : c ∉ cs := fun hmem => by cases hc.symm.trans ((hcs.mem c).1 hmem)
    obtain ⟨holder, l1, l2, hholder, rfl, hlink, hchain⟩ := run_topmostUpperHolder
      (s := update h c { h c with parent := some p }) (hcs.chain.setParent (c := c) (o := some p))
      (nodup_cons.2 ⟨hnew, hcs.nodup⟩) (fun _ _ => nofun) (Nat.lt_of_le_of_lt hlen hfuel)
    have hlink' : IsLink h p holder := by
      rcases hlink with hb | ⟨d, hd, hu⟩
      · exact .inl hb
      · exact .inr ⟨d, (hcs.mem d).1 hd, hu⟩
    have hp : Children (adopt h p holder c) p (l1 ++ c :: l2) := by
      refine ⟨hchain, nodup_middle.2 (nodup_cons.2 ⟨hnew, hcs.nodup⟩), fun d => ?_⟩
      have hd := hcs.mem d
      rw [parent_adopt]
      by_cases hdc : d = c
      · simp [hdc]
      · rw [if_neg hdc, ← hd]
        simp [hdc]
    have hlen' : (l1 ++ c :: l2).length ≤ n + 1 := by
      rw [length_append] at hlen ⊢
      rw [length_cons]
      omega
    obtain ⟨h', hrun⟩ := exists_run_drawNew hp (show _ = some p by rw [parent_adopt, if_pos rfl])
      (hlen'.trans (Nat.succ_le_of_lt hfuel))
    have hsame := keeps_drawNew _ _ _ hrun
    refine ⟨h', (run_setParent_eq rfl hholder).trans hrun, fun q => ?_, fun d => ?_⟩
    · by_cases hqp : q = p
      · subst hqp
        exact ⟨_, hp.congr hsame, hlen'⟩
      · obtain ⟨ds, hds, hdlen⟩ := hl q
        exact ⟨ds, (hds.adopt_of_ne hqp hc hlink').congr hsame, Nat.le_succ_of_le hdlen⟩
    · rw [parent_eq_of_linksOf hsame, parent_adopt]

/-! ## Runs -/

/-- The calls that have to do with the lists. -/
inductive LinkOp (α : Type) where
  | setParent (c : α) (parent : Option α)
  | setTopmost (c : α) (isTopmost : Bool)

def LinkOp.exec (fuel : Nat) : LinkOp α → KM (Sheets α) Unit
  | .setParent c parent => Gui.setParent fuel c parent
  | .setTopmost c isTopmost => Gui.setTopmost c isTopmost

/-- No call of `SetParent` on a sheet that an earlier call gave a parent. -/
def ParentsStay (ops : List (LinkOp α)) : Prop :=
  ops.Pairwise fun op op' => ∀ c p parent, op = .setParent c (some p) → op' ≠ .setParent c parent

/-- The sheet of a call of `SetParent` has no parent yet. -/
def LinkOp.Free (op : LinkOp α) (h : Sheets α) : Prop := ∀ c parent, op = .setParent c parent → (h c).parent = none

theorem Linked.exec {n : Nat} (hl : Linked n h) (op : LinkOp α) (hfree : op.Free h) (hfuel : n < fuel) :
    ∃ h', (op.exec fuel).run h = .ok () h' ∧ Linked (n + 1) h' ∧
      (∀ c parent, op = .setParent c parent → (h' c).parent = parent) ∧ ∀ d, (∀ parent, op ≠ .setParent d parent) →
      (h' d).parent = (h d).parent := by
  cases op with
  | setParent c parent =>
    obtain ⟨h', hrun, hl', hpar⟩ := hl.setParent (hfree c parent rfl) hfuel parent
    refine ⟨h', hrun, hl', ?_, fun d hd => ?_⟩
    · rintro _ _ ⟨⟩
      rw [hpar, if_pos rfl]
    · rw [hpar, if_neg]
      rintro rfl
      exact hd parent rfl
  | setTopmost c isTopmost =>
    have hsame : linksOf (update h c { h c with isTopmost := isTopmost }) = linksOf h := linksOf_update rfl
    exact ⟨_, rfl, hl.congr hsame, nofun, fun d _ => parent_eq_of_linksOf hsame d⟩

variable {ops : List (LinkOp α)}

omit [DecidableEq α] in
/-- The sheets of the calls to come have no parents, before and after a call. -/
theorem parentsStay_cons {op : LinkOp α} (hfree : op.Free h)
    (hset : ∀ c parent, op = .setParent c parent → (h1 c).parent = parent)
    (hother : ∀ d, (∀ parent, op ≠ .setParent d parent) → (h1 d).parent = (h d).parent) :
    (ParentsStay ops ∧ ∀ op' ∈ ops, op'.Free h1) ↔ (ParentsStay (op :: ops) ∧ ∀ op' ∈ op :: ops, op'.Free h) := by
  have hafter : ∀ c, (h1 c).parent = none ↔ (∀ p, op ≠ .setParent c (some p)) ∧ (h c).parent = none := by
    intro c
    by_cases hop : ∃ parent, op = .setParent c parent
    · obtain ⟨parent, rfl⟩ := hop
      rw [hset c parent rfl, and_iff_left (hfree c parent rfl)]
      cases parent with
      | none => exact iff_of_true rfl nofun
      | some p => exact iff_of_false nofun fun hne => hne p rfl
    · rw [hother c fun parent hp => hop ⟨parent, hp⟩, and_iff_right fun p hp => hop ⟨some p, hp⟩]
  rw [ParentsStay, ParentsStay, pairwise_cons, forall_mem_cons, and_iff_right hfree]
  constructor
  · rintro ⟨hstay, hnone⟩
    refine ⟨⟨?_, hstay⟩, fun op' hop' c parent hc => ((hafter c).1 (hnone op' hop' c parent hc)).2⟩
    rintro op' hop' c p parent hc rfl
    exact ((hafter c).1 (hnone _ hop' c parent rfl)).1 p hc
  · rintro ⟨⟨hfirst, hstay⟩, hnone⟩
    refine ⟨hstay, fun op' hop' c parent hc => (hafter c).2 ⟨fun p hp => ?_, hnone op' hop' c parent hc⟩⟩
    exact hfirst op' hop' c p parent hp hc

/-- Each call finds its sheet without a parent exactly when they all do now, and no call is on a sheet that an earlier
one gave a parent. -/
theorem Linked.beforeEach_iff : ∀ {ops : List (LinkOp α)} {h : Sheets α} {n : Nat}, Linked n h → n + ops.length ≤ fuel →
    (BeforeEach (LinkOp.exec fuel) LinkOp.Free ops h ↔ ParentsStay ops ∧ ∀ op ∈ ops, op.Free h)
  | [], h, n, _, _ => by
    refine iff_of_true (fun i op t hop => ?_) ⟨.nil, fun op hop => ?_⟩
    · cases hop
    · cases hop
  | op :: ops, h, n, hl, hfuel => by
    rw [length_cons] at hfuel
    by_cases hfree : op.Free h
    · obtain ⟨h1, hrun1, hl1, hset, hother⟩ := hl.exec op hfree (show n < fuel by omega)
      rw [beforeEach_cons hrun1, hl1.beforeEach_iff (by omega), and_iff_right hfree]
      exact parentsStay_cons hfree hset hother
    · exact iff_of_false (fun hall => hfree (hall 0 op h rfl rfl)) fun hall => hfree (hall.2 op mem_cons_self)

/-- From lists that are well formed: they are so after each of the calls exactly when no call is on a sheet that
has a parent then. -/
theorem Linked.afterEach_iff (hl : Linked n h) (hfuel : n + ops.length ≤ fuel) :
    AfterEach (LinkOp.exec fuel) WellFormed ops h ↔ BeforeEach (LinkOp.exec fuel) LinkOp.Free ops h := by
  refine afterEach_iff_beforeEach (I := fun ops h => ∃ n, Linked n h ∧ n + ops.length ≤ fuel) ?_ ?_ ?_
    ops h ⟨n, hl, hfuel⟩
  · rintro ops h ⟨n, hl, -⟩
    exact hl.wellFormed
  · rintro op ops h ⟨n, hl, hfuel⟩ hfree
    rw [length_cons] at hfuel
    obtain ⟨h1, hrun1, hl1, -⟩ := hl.exec op hfree (show n < fuel by omega)
    exact ⟨h1, hrun1, n + 1, hl1, by omega⟩
  · rintro op ops h ⟨n, hl, -⟩ hfree h1 hrun1
    simp only [LinkOp.Free, not_forall] at hfree
    obtain ⟨_, _, rfl, hc⟩ := hfree
    obtain ⟨_, hq⟩ := Option.ne_none_iff_exists'.1 hc
    exact hl.wellFormed.not_of_setParent hq hrun1

omit [DecidableEq α] in
theorem linked_zero (hstart : ∀ s, (h s).parent = none ∧ (h s).bottomChild = none) : Linked 0 h :=
  fun p => ⟨[], ⟨(hstart p).2, nodup_nil, fun c => by simp [(hstart c).1]⟩, le_refl _⟩

/-- From sheets without parents and children: after each call of `SetParent` and `SetTopmost` the links from
every bottom child lead to the children and to each one once, exactly when no call of `SetParent` is on a sheet
that an earlier one gave a parent. -/
theorem zOrder_wellFormed_iff (hstart : ∀ s, (h s).parent = none ∧ (h s).bottomChild = none) {ops : List (LinkOp α)}
    (hfuel : ops.length ≤ fuel) :
    (∀ i, ∃ h', ((ops.take i).forM (LinkOp.exec fuel)).run h = .ok () h' ∧ WellFormed h') ↔ ParentsStay ops := by
  have hl := linked_zero hstart
  refine (hl.afterEach_iff (by omega)).trans ((hl.beforeEach_iff (by omega)).trans ?_)
  exact and_iff_left fun op _ c _ _ => (hstart c).1

theorem twoWindows_unlinked (s : Fin 3) : (twoWindows s).parent = none ∧ (twoWindows s).bottomChild = none := by
  fin_cases s <;> exact ⟨rfl, rfl⟩

theorem zOrder_wellFormed_twoWindows : (∀ i, ∃ h',
    ((([.setParent 1 (some 0), .setTopmost 2 true, .setParent 2 (some 0)] : List (LinkOp (Fin 3))).take i).forM
      (LinkOp.exec 3)).run twoWindows = .ok () h' ∧ WellFormed h') ∧
    ParentsStay ([.setParent 1 (some 0), .setTopmost 2 true, .setParent 2 (some 0)] : List (LinkOp (Fin 3))) := by
  have hstay : ParentsStay
      ([.setParent 1 (some 0), .setTopmost 2 true, .setParent 2 (some 0)] : List (LinkOp (Fin 3))) := by
    refine pairwise_cons.2 ⟨?_, pairwise_cons.2 ⟨?_, pairwise_singleton _ _⟩⟩
    · intro op hop c p parent h1 h2
      cases h1
      subst h2
      simp at hop
    · intro op hop c p parent h1
      cases h1
  exact ⟨(zOrder_wellFormed_iff twoWindows_unlinked (by decide)).2 hstay, hstay⟩

/-- A window that is given its parent a second time ends up above itself; one that is given no parent stays in the
list. -/
theorem setParent_twice_broken :
    (∃ h', (([.setParent 1 (some 0), .setParent 1 (some 0)] : List (LinkOp (Fin 3))).forM (LinkOp.exec 2)).run
      twoWindows = .ok () h' ∧ ¬WellFormed h') ∧
    (∃ h', (([.setParent 1 (some 0), .setParent 1 none] : List (LinkOp (Fin 3))).forM (LinkOp.exec 2)).run twoWindows =
      .ok () h' ∧ ¬WellFormed h') := by
  have hbroken : ∀ parent : Option (Fin 3), returned
      ((([.setParent 1 (some 0), .setParent 1 parent] : List (LinkOp (Fin 3))).forM (LinkOp.exec 2)).run
        twoWindows) = true →
      ∃ h', (([.setParent 1 (some 0), .setParent 1 parent] : List (LinkOp (Fin 3))).forM (LinkOp.exec 2)).run
        twoWindows = .ok () h' ∧ ¬WellFormed h' := by
    intro parent hreturned
    obtain ⟨_, h', hrun⟩ := exists_of_returned hreturned
    obtain ⟨h1, hrun1, hl1, hpar⟩ := (linked_zero twoWindows_unlinked).setParent (c := 1) rfl
      (show 0 < 2 by decide) (some 0)
    obtain ⟨_, t, hrun2, hnil⟩ := run_bind_ok ((run_bind_eq hrun1).symm.trans hrun)
    obtain rfl : t = h' := (run_pure_ok hnil).2
    exact ⟨t, hrun, hl1.wellFormed.not_of_setParent (show (h1 1).parent = some 0 by rw [hpar, if_pos rfl]) hrun2⟩
  exact ⟨hbroken (some 0) rfl, hbroken none rfl⟩

end

end Liumos.Gui
