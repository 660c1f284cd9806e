/-
Persistent allocation is crash consistent. While nothing is being allocated, every word of the manager
and of the headers is durable. An allocation first writes the new header and makes it durable, which
no reader can see, and then moves the head; a crash at any point finds the old list or the new one.
-/
import Liumos.Machine.Crash
import Liumos.Pmem.Manager

namespace Liumos.Pmem

open PersistentObjectHeader (idAddr nextAddr getObjectBase setNext)
open WriteBack PersistentMemoryManager List BitVec
open Memory (load_store load_store_self load_flush)

/-! ## Objects and their layout -/

/-- An object: the address `AllocPages` returned and the number of pages asked for. -/
structure Obj where
  base : Word
  numOfPages : Word

/-- The header of an object ends where its pages begin. -/
def Obj.header (o : Obj) : Word := o.base - PersistentObjectHeader.size

def Obj.stop (o : Obj) : Nat := o.base.toNat + 4096 * o.numOfPages.toNat

/-- A region of persistent memory with its manager in front; the address behind it is representable. -/
structure Region where
  self : Word
  numOfPages : Word
  aligned : self.toNat % 4096 = 0
  fits : self.toNat + 4096 * numOfPages.toNat < 2 ^ 64

def Region.stop (r : Region) : Nat := r.self.toNat + 4096 * r.numOfPages.toNat

/-- The first page index behind the newest object. -/
def frontier (r : Region) : List Obj → Nat
  | [] => r.self.toNat / 4096
  | o :: _ => o.base.toNat / 4096 + o.numOfPages.toNat

/-- The objects, newest first, follow each other with one page for the header in between. -/
def Layout (r : Region) : List Obj → Prop
  | [] => True
  | o :: os => o.base.toNat = 4096 * (frontier r os + 1) ∧
      frontier r (o :: os) ≤ r.self.toNat / 4096 + r.numOfPages.toNat ∧ Layout r os

/-- What `head_` points to. -/
def headOf (r : Region) : List Obj → Word
  | [] => sentinel r.self
  | o :: _ => o.header

section

variable {r : Region}

theorem Layout.frontier_le :
    ∀ {os : List Obj}, Layout r os → os ≠ [] → frontier r os ≤ r.self.toNat / 4096 + r.numOfPages.toNat
  | _ :: _, h, _ => h.2.1

/-- Each object needs a page for its header. -/
theorem Layout.length_le : ∀ {os : List Obj}, Layout r os → r.self.toNat / 4096 + os.length ≤ frontier r os
  | [], _ => le_refl _
  | o :: os, h => by
    have := h.2.2.length_le
    have := h.1
    simp only [frontier, length_cons]
    omega

/-- The older objects end before the frontier. -/
theorem Layout.older : ∀ {os : List Obj}, Layout r os → ∀ o ∈ os,
    o.base.toNat % 4096 = 0 ∧ r.self.toNat + 4096 ≤ o.base.toNat ∧ o.stop ≤ 4096 * frontier r os
  | o :: os, h, o', ho' => by
    have := r.aligned
    have := h.2.2.length_le
    have h1 := h.1
    rcases mem_cons.1 ho' with rfl | ho'
    · simp only [frontier, Obj.stop]
      omega
    · have := h.2.2.older o' ho'
      simp only [frontier]
      omega

theorem sentinel_toNat (r : Region) : (sentinel r.self).toNat = r.self.toNat + 32 := by
  have := r.aligned
  rw [sentinel, toNat_add]
  simp only [toNat_ofNat]
  omega

theorem Obj.header_toNat {o : Obj} (h : 32 ≤ o.base.toNat) : o.header.toNat = o.base.toNat - 32 := by
  rw [Obj.header, PersistentObjectHeader.size]
  exact toNat_sub_of_le (le_def.2 h)

theorem Layout.header_toNat {os : List Obj} (h : Layout r os) {o : Obj} (ho : o ∈ os) :
    o.header.toNat = o.base.toNat - 32 := by
  have := (h.older o ho).2.1
  exact Obj.header_toNat (by omega)

end

/-! ## The words of the list -/

/-- The four words of a header, where `P a v` says that `v` is at `a`. -/
structure HeaderIs (P : Nat → Word → Prop) (h id numOfPages next : Word) : Prop where
  signature : P (PersistentObjectHeader.signatureAddr h) PersistentObjectHeader.kSignature
  id : P (idAddr h) id
  numOfPages : P (PersistentObjectHeader.numOfPagesAddr h) numOfPages
  next : P (nextAddr h) next

/-- The headers of the objects and the sentinel behind them, with ids that count the objects. -/
def HeadersAre (P : Nat → Word → Prop) (r : Region) : List Obj → Prop
  | [] => HeaderIs P (sentinel r.self) 0#64 0#64 0#64
  | o :: os => HeaderIs P o.header (BitVec.ofNat 64 (os.length + 1)) o.numOfPages (headOf r os) ∧ HeadersAre P r os

/-- The words of the manager but `head_`, and all headers. -/
structure WordsAre (P : Nat → Word → Prop) (r : Region) (os : List Obj) : Prop where
  pageIdx : P (pageIdxAddr r.self) (r.self >>> kPageSizeExponent)
  numOfPages : P (numOfPagesAddr r.self) r.numOfPages
  signature : P (signatureAddr r.self) kSignature
  headers : HeadersAre P r os

/-- The addresses these words are at: in the manager, up to `head_` and from the sentinel on, and in
the headers. -/
def Words (r : Region) (os : List Obj) (a : Nat) : Prop :=
  (r.self.toNat ≤ a ∧ a < r.self.toNat + 16) ∨ (r.self.toNat + 32 ≤ a ∧ a < r.self.toNat + 72) ∨
    ∃ o ∈ os, o.header.toNat ≤ a ∧ a < o.header.toNat + 32

/-- The addresses that only the allocator stores to. -/
def Uses (r : Region) (os : List Obj) (a : Nat) : Prop :=
  a = headAddr r.self ∨ Words r os a

section

variable {r : Region} {P Q : Nat → Word → Prop}

theorem HeaderIs.mono {h id n next : Word} (H : HeaderIs P h id n next)
    (hPQ : ∀ a v, h.toNat ≤ a → a < h.toNat + 32 → P a v → Q a v) : HeaderIs Q h id n next := by
  refine ⟨hPQ _ _ ?_ ?_ H.signature, hPQ _ _ ?_ ?_ H.id, hPQ _ _ ?_ ?_ H.numOfPages, hPQ _ _ ?_ ?_ H.next⟩ <;>
    simp only [PersistentObjectHeader.signatureAddr, idAddr, PersistentObjectHeader.numOfPagesAddr, nextAddr] <;> omega

theorem HeadersAre.mono :
    ∀ {os : List Obj}, HeadersAre P r os → (∀ a v, Words r os a → P a v → Q a v) → HeadersAre Q r os
  | [], H, hPQ => by
    refine HeaderIs.mono H fun a v h1 h2 => hPQ a v (.inr (.inl ?_))
    rw [sentinel_toNat] at h1 h2
    omega
  | o :: os, H, hPQ => by
    refine ⟨H.1.mono fun a v h1 h2 => hPQ a v (.inr (.inr ⟨o, mem_cons_self, h1, h2⟩)),
      H.2.mono fun a v hu => hPQ a v ?_⟩
    rcases hu with hu | hu | ⟨o', ho', hu⟩
    · exact .inl hu
    · exact .inr (.inl hu)
    · exact .inr (.inr ⟨o', mem_cons_of_mem o ho', hu⟩)

/-- The number of pages in the newest header. -/
def numOfPagesOf : List Obj → Word
  | [] => 0#64
  | o :: _ => o.numOfPages

/-- The id of the newest header is the number of objects. -/
theorem HeadersAre.id_head : ∀ {os : List Obj}, HeadersAre P r os → P (idAddr (headOf r os)) (BitVec.ofNat 64 os.length)
  | [], h => h.id
  | _ :: _, h => h.1.id

theorem HeadersAre.numOfPages_head : ∀ {os : List Obj}, HeadersAre P r os →
    P (PersistentObjectHeader.numOfPagesAddr (headOf r os)) (numOfPagesOf os)
  | [], h => h.numOfPages
  | _ :: _, h => h.1.numOfPages

theorem WordsAre.mono {os : List Obj} (H : WordsAre P r os) (hPQ : ∀ a v, Words r os a → P a v → Q a v) :
    WordsAre Q r os := by
  refine ⟨hPQ _ _ (.inl ?_) H.pageIdx, hPQ _ _ (.inl ?_) H.numOfPages, hPQ _ _ (.inr (.inl ?_)) H.signature,
    H.headers.mono hPQ⟩ <;> simp only [pageIdxAddr, numOfPagesAddr, signatureAddr] <;> omega

end

/-! ## The state between allocations -/

/-- Between allocations every word of the list is durable. -/
structure Inv (r : Region) (m : Mem) (os : List Obj) : Prop where
  layout : Layout r os
  head : Durable line m (headAddr r.self) (headOf r os)
  words : WordsAre (Durable line m) r os

section

variable {r : Region} {m : Mem} {os : List Obj}

/-- A store elsewhere. -/
theorem Inv.store (h : Inv r m os) {a : Nat} (ha : ¬ Uses r os a) (v : Word) : Inv r (m.store a v) os := by
  refine ⟨h.layout, h.head.store_ne ?_ v, h.words.mono fun x u hx hu => hu.store_ne ?_ v⟩
  · rintro rfl; exact ha (.inl rfl)
  · rintro rfl; exact ha (.inr hx)

theorem Inv.flush (h : Inv r m os) (a : Nat) : Inv r (m.flush a) os :=
  ⟨h.layout, h.head.flush a, h.words.mono fun _ _ _ hu => hu.flush a⟩

/-- No object reaches into a header. -/
theorem Layout.object_header : ∀ {os : List Obj}, Layout r os → ∀ o ∈ os, ∀ o' ∈ os,
    o.stop ≤ o'.header.toNat ∨ o'.header.toNat + 32 ≤ o.base.toNat
  | o :: os, h, a, ha, b, hb => by
    have hb' := h.header_toNat hb
    have h1 := h.1
    rcases mem_cons.1 ha with rfl | ha' <;> rcases mem_cons.1 hb with rfl | hb
    · right; omega
    · have := h.2.2.older b hb
      have : b.base.toNat ≤ b.stop := Nat.le_add_right _ _
      right; omega
    · have := h.2.2.older a ha'
      left; omega
    · exact h.2.2.object_header a ha' b hb

variable {o : Obj} {a : Nat}

theorem Layout.object_not_uses (h : Layout r os) (ho : o ∈ os) (h1 : o.base.toNat ≤ a) (h2 : a < o.stop) :
    ¬ Uses r os a := by
  have := (h.older o ho).2.1
  rintro (rfl | hu | hu | ⟨o', ho', hu⟩)
  · unfold headAddr at h1
    omega
  · omega
  · omega
  · have := h.object_header o ho o' ho'
    omega

/-- The header of the next object is new. -/
theorem Layout.header_not_uses (h : Layout r (o :: os)) (h1 : o.header.toNat ≤ a)
    (h2 : a < o.header.toNat + 32) : ¬ Uses r os a := by
  have hh := h.header_toNat mem_cons_self
  have hb := h.1
  have := h.2.2.length_le
  have := r.aligned
  rintro (rfl | hu | hu | ⟨o', ho', hu⟩)
  · unfold headAddr at h1
    omega
  · omega
  · omega
  · have := h.2.2.older o' ho'
    have := h.2.2.header_toNat ho'
    have : o'.base.toNat ≤ o'.stop := Nat.le_add_right _ _
    omega

theorem Layout.headAddr_not_words (h : Layout r os) : ¬ Words r os (headAddr r.self) := by
  unfold headAddr
  rintro (hu | hu | ⟨o, ho, hu⟩)
  · omega
  · omega
  · have := h.older o ho
    have := h.header_toNat ho
    omega

end

/-! ## What a crash must leave -/

def Obj.Disjoint (o o' : Obj) : Prop := o.stop ≤ o'.base.toNat ∨ o'.stop ≤ o.base.toNat

/-- In the image `f`, a chain of valid headers with strictly decreasing ids leads from `h` through the
headers of the objects to the sentinel. -/
def ChainIn (f : Nat → Word) (r : Region) : Word → List Obj → Prop
  | h, [] => h = sentinel r.self ∧
      f (PersistentObjectHeader.signatureAddr h) = PersistentObjectHeader.kSignature
  | h, o :: os => h = o.header ∧ f (PersistentObjectHeader.signatureAddr h) = PersistentObjectHeader.kSignature ∧
      f (PersistentObjectHeader.numOfPagesAddr h) = o.numOfPages ∧
      (f (idAddr (f (nextAddr h)))).toNat <
        (f (idAddr h)).toNat ∧
      ChainIn f r (f (nextAddr h)) os

/-- The image `f` holds the objects `os`: a chain from `head_` leads through them, and they are page
aligned, inside the region, and apart from each other, from all headers and from the manager. -/
structure Consistent (f : Nat → Word) (r : Region) (os : List Obj) : Prop where
  chain : ChainIn f r (f (headAddr r.self)) os
  aligned : ∀ o ∈ os, o.base.toNat % 4096 = 0
  inside : ∀ o ∈ os, r.self.toNat ≤ o.base.toNat ∧ o.stop ≤ r.stop
  disjoint : os.Pairwise Obj.Disjoint
  headers : ∀ o ∈ os, ∀ o' ∈ os, o.stop ≤ o'.header.toNat ∨ o'.header.toNat + 32 ≤ o.base.toNat
  manager : ∀ o ∈ os, o.stop ≤ r.self.toNat ∨ r.self.toNat + size ≤ o.base.toNat

section

variable {r : Region} {f : Nat → Word}

theorem Layout.disjoint : ∀ {os : List Obj}, Layout r os → os.Pairwise Obj.Disjoint
  | [], _ => .nil
  | o :: os, h => by
    refine pairwise_cons.2 ⟨fun o' ho' => .inr ?_, h.2.2.disjoint⟩
    have := h.2.2.older o' ho'
    have := h.1
    omega

variable {os : List Obj}

theorem Layout.inside (h : Layout r os) {o : Obj} (ho : o ∈ os) : o.stop ≤ r.stop := by
  have := (h.older o ho).2.2
  have := h.frontier_le (ne_nil_of_mem ho)
  unfold Region.stop
  omega

theorem HeadersAre.chainIn :
    ∀ {os : List Obj}, Layout r os → HeadersAre (fun a v => f a = v) r os → ChainIn f r (headOf r os) os
  | [], _, h => ⟨rfl, h.signature⟩
  | o :: os, hl, h => by
    have hlen := hl.length_le
    have hle := hl.2.1
    refine ⟨rfl, h.1.signature, h.1.numOfPages, ?_, ?_⟩
    · rw [show f (nextAddr (headOf r (o :: os))) = _ from h.1.next, h.2.id_head,
        show f (idAddr (headOf r (o :: os))) = _ from h.1.id, toNat_ofNat, toNat_ofNat]
      simp only [length_cons] at hlen
      omega
    · rw [show f (nextAddr (headOf r (o :: os))) = _ from h.1.next]
      exact h.2.chainIn hl.2.2

theorem consistent_of_words (hl : Layout r os) (hh : f (headAddr r.self) = headOf r os)
    (hw : WordsAre (fun a v => f a = v) r os) : Consistent f r os := by
  refine ⟨by rw [hh]; exact hw.headers.chainIn hl, fun o ho => (hl.older o ho).1, ?_, hl.disjoint, hl.object_header, ?_⟩
  · intro o ho
    have := (hl.older o ho).2.1
    exact ⟨by omega, hl.inside ho⟩
  · intro o ho
    have := (hl.older o ho).2.1
    right
    unfold size
    omega

/-- A crash between allocations. -/
theorem Inv.consistent {m : Mem} (h : Inv r m os) (hf : Image line m f) : Consistent f r os :=
  consistent_of_words h.layout (h.head.image_eq line hf) (h.words.mono fun _ _ _ hu => hu.image_eq line hf)

end

/-! ## An allocation -/

section

variable {σ : Type}

/-- Memory after `PersistentObjectHeader::Init`. -/
def initMem (m : Mem) (h id numOfPages : Word) : Mem :=
  ((((((m.store (PersistentObjectHeader.signatureAddr h) (~~~PersistentObjectHeader.kSignature)).flush
    (PersistentObjectHeader.signatureAddr h)).store (idAddr h) id).store
    (PersistentObjectHeader.numOfPagesAddr h) numOfPages).store (nextAddr h) 0#64).store
    (PersistentObjectHeader.signatureAddr h) PersistentObjectHeader.kSignature).flush h.toNat

/-- Memory after `SetNext`. -/
def setNextMem (m : Mem) (h next : Word) : Mem :=
  (m.store (nextAddr h) next).flush (nextAddr h)

/-- Memory after `SetHead`. -/
def setHeadMem (m : Mem) (self head : Word) : Mem :=
  (m.store (headAddr self) head).flush (headAddr self)

variable {r : Region} {m : Mem} {os : List Obj} {o : Obj}

/-- Writing the new header leaves the list alone at every point. -/
theorem Inv.throughout_init (h : Inv r m os) (hl : Layout r (o :: os)) (id n : Word) :
    Inv r (initMem m o.header id n) os ∧ Memory.Throughout (Inv r · os) m (initMem m o.header id n) := by
  have hnot : ∀ i < 4, ¬ Uses r os (o.header.toNat + 8 * i) := fun i hi => hl.header_not_uses (by omega) (by omega)
  have h1 := h.store (hnot 0 (by omega)) (~~~PersistentObjectHeader.kSignature)
  have h2 := h1.flush (PersistentObjectHeader.signatureAddr o.header)
  have h3 := h2.store (hnot 1 (by omega)) id
  have h4 := h3.store (hnot 2 (by omega)) n
  have h5 := h4.store (hnot 3 (by omega)) 0#64
  have h6 := h5.store (hnot 0 (by omega)) PersistentObjectHeader.kSignature
  have h7 := h6.flush o.header.toNat
  exact ⟨h7, (((((((Memory.Throughout.refl _ m).store h1).flush h2).store h3).store h4).store h5).store h6).flush h7⟩

theorem Inv.throughout_setNext (h : Inv r m os) (hl : Layout r (o :: os)) (next : Word) :
    Inv r (setNextMem m o.header next) os ∧ Memory.Throughout (Inv r · os) m (setNextMem m o.header next) := by
  have h1 := h.store (a := nextAddr o.header)
    (hl.header_not_uses (Nat.le_add_right _ _) (Nat.add_lt_add_left (by decide) _)) next
  have h2 := h1.flush (nextAddr o.header)
  exact ⟨h2, ((Memory.Throughout.refl _ m).store h1).flush h2⟩

/-- A header lies in one cache line. -/
theorem Layout.header_line (hl : Layout r (o :: os)) {i : Nat} (hi : i < 32) :
    line (o.header.toNat + i) = line o.header.toNat := by
  have := hl.header_toNat mem_cons_self
  have := hl.1
  unfold line
  omega

variable {h n idx base v : Word} {x : Nat} {w w' : World σ}

/-- `Init` leaves its words durable in the one line they share. -/
theorem durable_initMem (hline : ∀ i < 32, line (h.toNat + i) = line h.toNat) (id n : Word) :
    HeaderIs (Durable line (initMem m h id n)) h id n 0#64 := by
  refine ⟨durable_of_flush_line (hline 0 (by omega)) ?_, durable_of_flush_line (hline 8 (by omega)) ?_,
    durable_of_flush_line (hline 16 (by omega)) ?_, durable_of_flush_line (hline 24 (by omega)) ?_⟩ <;>
    simp [load_store, PersistentObjectHeader.signatureAddr, idAddr, PersistentObjectHeader.numOfPagesAddr, nextAddr]

/-- So does `SetNext`. -/
theorem HeaderIs.setNextMem {h id n next next' : Word} (H : HeaderIs (Durable line m) h id n next) :
    HeaderIs (Durable line (setNextMem m h next')) h id n next' := by
  refine ⟨(H.signature.store_ne ?_ next').flush _, (H.id.store_ne ?_ next').flush _,
    (H.numOfPages.store_ne ?_ next').flush _, durable_of_flush_line rfl (load_store_self ..)⟩ <;>
    simp [PersistentObjectHeader.signatureAddr, idAddr, PersistentObjectHeader.numOfPagesAddr, nextAddr]

/-- A crash finds the objects `os`, or these and the new object `o`. -/
def OldOrNew (r : Region) (o : Obj) (os : List Obj) (c : Mem) : Prop :=
  ∀ f, Image line c f → Consistent f r os ∨ Consistent f r (o :: os)

/-- Moving the head to a durable header. -/
theorem Inv.setHead (h : Inv r m os) (hl : Layout r (o :: os))
    (hh : HeaderIs (Durable line m) o.header (BitVec.ofNat 64 (os.length + 1)) o.numOfPages (headOf r os)) :
    Inv r (setHeadMem m r.self o.header) (o :: os) ∧ Memory.Throughout (OldOrNew r o os) m
      (setHeadMem m r.self o.header) := by
  have hw : WordsAre (Durable line m) r (o :: os) :=
    ⟨h.words.pageIdx, h.words.numOfPages, h.words.signature, hh, h.words.headers⟩
  -- no other word of the list is at the address of `head_`
  have hw1 : WordsAre (Durable line (m.store (headAddr r.self) o.header)) r (o :: os) := by
    refine hw.mono fun a v ha hv => hv.store_ne ?_ _
    rintro rfl
    exact hl.headAddr_not_words ha
  have hinv : Inv r (setHeadMem m r.self o.header) (o :: os) :=
    ⟨hl, durable_of_flush_line rfl (load_store_self ..), hw1.mono fun _ _ _ hu => hu.flush _⟩
  refine ⟨hinv, ((Memory.Throughout.refl _ m).store ?_).flush ?_⟩
  · intro f hf
    have hwf := hw1.mono fun _ _ _ hu => hu.image_eq line hf
    rcases hf.mayHold line (headAddr r.self) with ⟨-, hv⟩ | hv
    · exact .inr (consistent_of_words hl hv hwf)
    · exact .inl (consistent_of_words h.layout (h.head _ hv)
        ⟨hwf.pageIdx, hwf.numOfPages, hwf.signature, hwf.headers.2⟩)
  · intro f hf; exact .inr (hinv.consistent hf)

theorem Layout.frontier_lt (hl : Layout r os) : frontier r os < 2 ^ 52 := by
  have := r.fits
  cases os with
  | nil => simp only [frontier]; omega
  | cons o os => have := hl.2.1; omega

/-- `next_page_idx`. -/
theorem nextPageIdx_toNat (hl : Layout r os) :
    ((getObjectBase (headOf r os) >>> kPageSizeExponent) + numOfPagesOf os).toNat =
      frontier r os := by
  have hlt := hl.frontier_lt
  have hbase : (getObjectBase (headOf r os) >>> kPageSizeExponent).toNat + (numOfPagesOf os).toNat = frontier r os := by
    rw [toNat_ushiftRight, kPageSizeExponent, Nat.shiftRight_eq_div_pow, getObjectBase, PersistentObjectHeader.size]
    cases os with
    | nil =>
      have := sentinel_toNat r
      have := r.aligned
      simp only [headOf, numOfPagesOf, frontier, toNat_add, toNat_ofNat]
      omega
    | cons o os =>
      simp only [headOf, numOfPagesOf, frontier, Obj.header, PersistentObjectHeader.size, sub_add_cancel]
  rw [toNat_add]
  omega

/-- The object that an allocation of `n` pages makes. -/
@[irreducible] def newObj (r : Region) (os : List Obj) (n : Word) : Obj :=
  ⟨(BitVec.ofNat 64 (frontier r os) + 1#64) <<< kPageSizeExponent, n⟩

@[simp] theorem numOfPages_newObj (r : Region) (os : List Obj) (n : Word) : (newObj r os n).numOfPages = n := by
  rw [newObj]

theorem eta_newObj (r : Region) (os : List Obj) (n : Word) : (⟨(newObj r os n).base, n⟩ : Obj) = newObj r os n := by
  rw [newObj]

/-- There are `n` pages left, and one for the header. -/
def HasRoom (r : Region) (os : List Obj) (n : Word) : Prop :=
  n.toNat + 1 + frontier r os ≤ r.self.toNat / 4096 + r.numOfPages.toNat

instance (n : Word) : Decidable (HasRoom r os n) := inferInstanceAs (Decidable (_ ≤ _))

/-- Memory after `AllocPages`. -/
def allocMem (r : Region) (m : Mem) (os : List Obj) (n : Word) : Mem :=
  setHeadMem (setNextMem (initMem m (newObj r os n).header (BitVec.ofNat 64 (os.length + 1)) n) (newObj r os n).header
    (headOf r os)) r.self (newObj r os n).header

theorem toNat_newObj (hroom : HasRoom r os n) : (newObj r os n).base.toNat = 4096 * (frontier r os + 1) := by
  have := r.fits
  unfold HasRoom at hroom
  rw [newObj, toNat_shiftLeft, toNat_add, kPageSizeExponent, Nat.shiftLeft_eq]
  simp only [toNat_ofNat]
  omega

theorem layout_newObj (hl : Layout r os) (hroom : HasRoom r os n) : Layout r (newObj r os n :: os) := by
  have hbase := toNat_newObj hroom
  refine ⟨hbase, ?_, hl⟩
  unfold HasRoom at hroom
  simp only [frontier, numOfPages_newObj]
  omega

/-- What the assertion of `AllocPages` compares. -/
theorem room_iff (hl : Layout r os) (hn : n.toNat < 2 ^ 52) (hidx : idx.toNat = frontier r os) :
    (n + 1#64 + idx).toNat ≤ ((r.self >>> kPageSizeExponent) + r.numOfPages).toNat ↔ HasRoom r os n := by
  have := hl.frontier_lt
  have := r.fits
  have hlimit : ((r.self >>> kPageSizeExponent) + r.numOfPages).toNat = r.self.toNat / 4096 + r.numOfPages.toNat := by
    rw [toNat_add, toNat_ushiftRight, kPageSizeExponent, Nat.shiftRight_eq_div_pow]
    omega
  have hsum : (n + 1#64 + idx).toNat = n.toNat + 1 + frontier r os := by
    rw [toNat_add, toNat_add, hidx]
    simp only [toNat_ofNat]
    omega
  rw [hlimit, hsum, HasRoom]

theorem base_newObj (hidx : idx.toNat = frontier r os) : (idx + 1#64) <<< kPageSizeExponent = (newObj r os n).base := by
  rw [newObj, ← hidx, ofNat_toNat, setWidth_eq]

theorem Layout.headOf_ne_zero (hl : Layout r os) : headOf r os ≠ 0#64 := by
  intro h
  have h0 : (headOf r os).toNat = 0 := by rw [h]; rfl
  cases os with
  | nil =>
    have := sentinel_toNat r
    rw [headOf] at h0
    omega
  | cons o os =>
    have := hl.header_toNat mem_cons_self
    have := hl.1
    rw [headOf] at h0
    omega

/-- The list with the new object is durable in the end, and a crash at any point before finds the old list or the new
one. -/
theorem Inv.alloc (h : Inv r m os) (hroom : HasRoom r os n) :
    Inv r (allocMem r m os n) (newObj r os n :: os) ∧ Memory.Throughout (OldOrNew r (newObj r os n) os) m
      (allocMem r m os n) := by
  have hlay := layout_newObj h.layout hroom
  obtain ⟨h1, t1⟩ := h.throughout_init hlay (BitVec.ofNat 64 (os.length + 1)) n
  obtain ⟨h2, t2⟩ := h1.throughout_setNext hlay (headOf r os)
  have hhdr := durable_initMem (m := m) (fun i hi => hlay.header_line hi) (BitVec.ofNat 64 (os.length + 1)) n
  obtain ⟨h3, t3⟩ := h2.setHead hlay (by rw [numOfPages_newObj]; exact hhdr.setNextMem)
  have hold : ∀ c, Inv r c os → OldOrNew r (newObj r os n) os c := fun c hc f hf => .inl (hc.consistent hf)
  exact ⟨h3, ((t1.trans t2).mono hold).trans t3⟩

/-- What an allocation leaves as it is. -/
theorem load_allocMem (hx : ¬ Uses r (newObj r os n :: os) x) : (allocMem r m os n).load x = m.load x := by
  have hhead : x ≠ headAddr r.self := fun h => hx (.inl h)
  have hheader : ∀ i < 32, x ≠ (newObj r os n).header.toNat + i := by
    rintro i hi rfl
    exact hx (.inr (.inr (.inr ⟨_, mem_cons_self, Nat.le_add_right _ _, Nat.add_lt_add_left hi _⟩)))
  have h0 : x ≠ (newObj r os n).header.toNat := by simpa only [Nat.add_zero] using hheader 0 (by omega)
  have h1 := hheader 8 (by omega)
  have h2 := hheader 16 (by omega)
  have h3 := hheader 24 (by omega)
  simp only [allocMem, setHeadMem, setNextMem, initMem, load_flush, load_store, PersistentObjectHeader.signatureAddr,
    idAddr, PersistentObjectHeader.numOfPagesAddr, nextAddr]
  rw [if_neg hhead, if_neg h3, if_neg h0, if_neg h3, if_neg h2, if_neg h1, if_neg h0]

/-- `AllocPages` up to its assertion that there is room. -/
theorem run_allocPages_assert (h : Inv r w.mem os) (hn : n.toNat < 2 ^ 52) : (allocPages r.self n).run w =
      ((assert (decide (HasRoom r os n)) "num_of_pages_requested + 1 + next_page_idx <= page_idx_ + num_of_pages_" :
        WM σ Unit) >>= fun _ => do
          PersistentObjectHeader.init (newObj r os n).header ((← load (idAddr (← load (headAddr r.self)))) + 1#64) n
          setNext (newObj r os n).header (← load (headAddr r.self))
          setHead r.self (newObj r os n).header
          return getObjectBase (← load (headAddr r.self))).run w := by
  have hidx := nextPageIdx_toNat h.layout
  have hvalid : (isValid r.self).run w = .ok true w := by
    show EStateM.Result.ok (w.mem.load _ == _ && w.mem.load _ != _) w = _
    rw [h.words.signature.load, h.head.load, beq_self_eq_true, Bool.true_and, bne_iff_ne.2 h.layout.headOf_ne_zero]
  have hload : ∀ a, (load a).run w = .ok (w.mem.load a) w := fun _ => rfl
  unfold allocPages
  rw [run_bind_eq hvalid, run_bind_eq (run_assert_true rfl _ _), run_bind_eq (hload _), h.head.load,
    run_bind_eq (hload _), run_bind_eq (hload _), run_bind_eq (hload _), h.words.headers.numOfPages_head.load,
    h.words.pageIdx.load, h.words.numOfPages.load, base_newObj (n := n) hidx]
  dsimp only
  rw [decide_eq_decide.2 (room_iff h.layout hn hidx)]
  rfl

/-- `AllocPages` without room asserts before it stores anything. -/
theorem run_allocPages_full (h : Inv r w.mem os) (hn : n.toNat < 2 ^ 52) (hfull : ¬ HasRoom r os n) :
    (allocPages r.self n).run w =
      .error (.assertFailed "num_of_pages_requested + 1 + next_page_idx <= page_idx_ + num_of_pages_") w := by
  rw [run_allocPages_assert h hn, decide_eq_false hfull]
  rfl

theorem run_allocPages (h : Inv r w.mem os) (hn : n.toNat < 2 ^ 52) (hroom : HasRoom r os n) :
    (allocPages r.self n).run w = .ok (newObj r os n).base { w with mem := allocMem r w.mem os n } := by
  have hlay := layout_newObj h.layout hroom
  have hid : BitVec.ofNat 64 os.length + 1#64 = BitVec.ofNat 64 (os.length + 1) := (BitVec.ofNat_add ..).symm
  have h1 := (h.throughout_init hlay (BitVec.ofNat 64 (os.length + 1)) n).1
  have hhdr := durable_initMem (m := w.mem) (fun i hi => hlay.header_line hi) (BitVec.ofNat 64 (os.length + 1)) n
  have hload : ∀ (w : World σ) a, (load a).run w = .ok (w.mem.load a) w := fun _ _ => rfl
  rw [run_allocPages_assert h hn, run_bind_eq (run_assert_true (decide_eq_true hroom) _ _), run_bind_eq (hload ..),
    h.head.load, run_bind_eq (hload ..), h.words.headers.id_head.load, hid,
    run_bind_eq (show (PersistentObjectHeader.init (newObj r os n).header _ n).run w =
      .ok () { w with mem := initMem w.mem (newObj r os n).header _ n } from rfl), run_bind_eq (hload ..), h1.head.load]
  generalize hm : initMem w.mem (newObj r os n).header (BitVec.ofNat 64 (os.length + 1)) n = m at hhdr
  have hvalid : (PersistentObjectHeader.isValid (newObj r os n).header).run { w with mem := m } =
      .ok true { w with mem := m } := by
    show EStateM.Result.ok (m.load _ == _) _ = _
    rw [hhdr.signature.load, beq_self_eq_true]
  have hnext : (setNext (newObj r os n).header (headOf r os)).run { w with mem := m } =
      .ok () { w with mem := setNextMem m (newObj r os n).header (headOf r os) } := by
    unfold setNext
    rw [run_bind_eq hvalid]
    rfl
  have hmem : allocMem r w.mem os n = setHeadMem (setNextMem m (newObj r os n).header (headOf r os)) r.self
      (newObj r os n).header := by
    rw [allocMem, hm]
  rw [run_bind_eq hnext, hmem]
  generalize setNextMem m (newObj r os n).header (headOf r os) = m'
  have hhead : (setHeadMem m' r.self (newObj r os n).header).load (headAddr r.self) = (newObj r os n).header := by
    rw [setHeadMem, load_flush, load_store_self]
  rw [run_bind_eq (show (setHead r.self (newObj r os n).header).run { w with mem := m' } =
    .ok () { w with mem := setHeadMem m' r.self (newObj r os n).header } from rfl), run_bind_eq (hload ..), hhead,
    getObjectBase, Obj.header, sub_add_cancel]
  rfl

/-- `AllocPages`: the new object follows the others, the list with it is durable at the end, and a crash
at any point in between finds the old list or the new one. -/
theorem allocPages_ok (h : Inv r w.mem os) (hn : n.toNat < 2 ^ 52) (hrun : (allocPages r.self n).run w = .ok base w') :
    Inv r w'.mem (⟨base, n⟩ :: os) ∧ Memory.Throughout (OldOrNew r ⟨base, n⟩ os) w.mem w'.mem := by
  by_cases hroom : HasRoom r os n
  · rw [run_allocPages h hn hroom] at hrun
    obtain ⟨rfl, rfl⟩ := EStateM.Result.ok.inj hrun
    rw [eta_newObj]
    exact h.alloc hroom
  · rw [run_allocPages_full h hn hroom] at hrun
    cases hrun

/-- The number of pages of a `PersistentProcessInfo`. -/
def infoPages : Word := byteSizeToPageSize sizeOfPersistentProcessInfo

/-- Memory after `AllocPersistentProcessInfo`. -/
def allocInfoMem (r : Region) (m : Mem) (os : List Obj) : Mem :=
  ((allocMem r m os infoPages).store (lastPersistentProcessInfoAddr r.self) (newObj r os infoPages).base).flush
    (lastPersistentProcessInfoAddr r.self)

theorem load_last_allocInfoMem (r : Region) (m : Mem) (os : List Obj) :
    (allocInfoMem r m os).load (lastPersistentProcessInfoAddr r.self) = (newObj r os infoPages).base := by
  rw [allocInfoMem, load_flush, load_store_self]

theorem run_allocPersistentProcessInfo (h : Inv r w.mem os) (hroom : HasRoom r os infoPages) :
    (allocPersistentProcessInfo r.self).run w = .ok (newObj r os infoPages).base
    { w with mem := allocInfoMem r w.mem os } := by
  have halloc := run_allocPages h (by decide) hroom
  have hlast := load_last_allocInfoMem r w.mem os
  unfold allocPersistentProcessInfo allocInfoMem at *
  rw [← infoPages, run_bind_eq halloc]
  generalize (newObj r os infoPages).base = info at hlast ⊢
  generalize allocMem r w.mem os infoPages = m at hlast ⊢
  show EStateM.Result.ok (((m.store _ info).flush _).load _) _ = _
  rw [hlast]

theorem run_allocPersistentProcessInfo_full (h : Inv r w.mem os) (hfull : ¬ HasRoom r os infoPages) :
    ∃ e, (allocPersistentProcessInfo r.self).run w = .error e w := by
  exact ⟨_, run_bind_error (run_allocPages_full h (by decide) hfull)⟩

/-- The list does not use the word that `AllocPersistentProcessInfo` adds to the manager. -/
theorem Layout.last_not_uses (hl : Layout r os) : ¬ Uses r os (lastPersistentProcessInfoAddr r.self) := by
  unfold lastPersistentProcessInfoAddr
  rintro (hu | hu | hu | ⟨o, ho, hu⟩)
  · unfold headAddr at hu
    omega
  · omega
  · omega
  · have := hl.older o ho
    have := hl.header_toNat ho
    omega

theorem Inv.allocInfo (h : Inv r m os) (hroom : HasRoom r os infoPages) :
    Inv r (allocInfoMem r m os) (newObj r os infoPages :: os) ∧
      Memory.Throughout (OldOrNew r (newObj r os infoPages) os) m (allocInfoMem r m os) := by
  obtain ⟨h1, t1⟩ := h.alloc hroom
  have h2 := h1.store h1.layout.last_not_uses (newObj r os infoPages).base
  have h3 := h2.flush (lastPersistentProcessInfoAddr r.self)
  have hnew : ∀ c, Inv r c (newObj r os infoPages :: os) → OldOrNew r (newObj r os infoPages) os c :=
    fun c hc f hf => .inr (hc.consistent hf)
  exact ⟨h3, (t1.store (hnew _ h2)).flush (hnew _ h3)⟩

theorem allocPersistentProcessInfo_ok (h : Inv r w.mem os)
    (hrun : (allocPersistentProcessInfo r.self).run w = .ok base w') :
    Inv r w'.mem (⟨base, byteSizeToPageSize sizeOfPersistentProcessInfo⟩ :: os) ∧
      Memory.Throughout (OldOrNew r ⟨base, byteSizeToPageSize sizeOfPersistentProcessInfo⟩ os) w.mem w'.mem := by
  by_cases hroom : HasRoom r os infoPages
  · rw [run_allocPersistentProcessInfo h hroom] at hrun
    obtain ⟨rfl, rfl⟩ := EStateM.Result.ok.inj hrun
    rw [← infoPages, eta_newObj]
    exact h.allocInfo hroom
  · obtain ⟨e, he⟩ := run_allocPersistentProcessInfo_full h hroom
    rw [he] at hrun
    cases hrun

/-! ## `Init` -/

/-- Memory after `Init` set the fields of the manager. -/
def fieldsMem (m : Mem) (self length : Word) : Mem :=
  (((((m.store (signatureAddr self) (~~~kSignature)).store
    (pageIdxAddr self) (self >>> kPageSizeExponent)).store
    (numOfPagesAddr self) (length >>> kPageSizeExponent)).store
    (headAddr self) 0#64).store (lastPersistentProcessInfoAddr self) 0#64).store
    (signatureAddr self) kSignature

/-- Memory after `Init` found its range. -/
def managerMem (m : Mem) (self length : Word) : Mem :=
  setHeadMem (initMem (clflushRange (fieldsMem m self length) self.toNat size)
    (sentinel self) 0#64 0#64) self (sentinel self)

theorem run_initFrom_ok {self : Word} {w w' : World σ} {u : Unit} :
    ∀ {es : List NfitEntry}, (initFrom self es).run w = .ok u w' →
    ∃ length, w' = { w with mem := managerMem w.mem self length }
  | [], h => by cases h
  | .other :: es, h => run_initFrom_ok (show (initFrom self es).run w = .ok u w' from h)
  | .spaRange isPmem base length :: es, h => by
    rw [initFrom] at h
    split at h
    · exact run_initFrom_ok h
    · split at h
      · exact run_initFrom_ok h
      · cases h; exact ⟨length, rfl⟩

/-- A store or flush elsewhere keeps a durable word. -/
theorem durable_after_init {id : Word} (hd : Durable line m x v)
    (hx : ∀ i < 4, x ≠ h.toNat + 8 * i) : Durable line (initMem m h id n) x v := by
  have h1 := (hd.store_ne (hx 0 (by omega)) (~~~PersistentObjectHeader.kSignature)).flush
    (PersistentObjectHeader.signatureAddr h)
  have h2 := ((h1.store_ne (hx 1 (by omega)) id).store_ne (hx 2 (by omega)) n).store_ne (hx 3 (by omega)) 0#64
  exact (h2.store_ne (hx 0 (by omega)) PersistentObjectHeader.kSignature).flush h.toNat

/-- What the flush of the whole manager makes durable, the sentinel and the head do not touch. -/
theorem durable_managerMem {length : Word} (hx : x ≠ headAddr r.self) (hs : ∀ i < 4, x ≠ r.self.toNat + 32 + 8 * i)
    (hline : line x = line r.self.toNat ∨ line x = line (r.self.toNat + 64))
    (hv : (fieldsMem m r.self length).load x = v) : Durable line (managerMem m r.self length) x v := by
  have hflush : Durable line (clflushRange (fieldsMem m r.self length) r.self.toNat size) x v := by
    subst hv
    rcases hline with hline | hline
    · exact durable_clflushRange (by decide : 0 < _) hline
    · exact durable_clflushRange (by decide : 1 < _) hline
  exact ((durable_after_init hflush (by rw [sentinel_toNat]; exact hs)).store_ne hx _).flush _

theorem sentinel_managerMem (length : Word) :
    HeaderIs (Durable line (managerMem m r.self length)) (sentinel r.self) 0#64 0#64 0#64 := by
  have hs := sentinel_toNat r
  have hal := r.aligned
  have hsline : ∀ i < 32, line ((sentinel r.self).toNat + i) = line (sentinel r.self).toNat := by
    intro i hi
    unfold line
    omega
  refine (durable_initMem hsline 0#64 0#64).mono fun a v h1 h2 hd => (hd.store_ne ?_ _).flush _
  unfold headAddr
  omega

/-- An initialised manager has no objects. -/
theorem init_inv {nfit : Option (List NfitEntry)} {u : Unit} (hrun : (init r.self nfit).run w = .ok u w')
    (hnum : w'.mem.load (numOfPagesAddr r.self) = r.numOfPages) : Inv r w'.mem [] := by
  unfold init at hrun
  obtain ⟨-, hrun⟩ := of_run_assert_bind hrun
  obtain ⟨-, hrun⟩ := of_run_assert_bind hrun
  obtain ⟨length, rfl⟩ := run_initFrom_ok hrun
  have hal := r.aligned
  have hpage : Durable line (managerMem w.mem r.self length) (pageIdxAddr r.self) (r.self >>> kPageSizeExponent) := by
    apply durable_managerMem
    · simp [pageIdxAddr, headAddr]
    · simp only [pageIdxAddr]; omega
    · left; rfl
    · simp [fieldsMem, load_store, pageIdxAddr, numOfPagesAddr, headAddr, lastPersistentProcessInfoAddr, signatureAddr]
  have hpages : Durable line (managerMem w.mem r.self length) (numOfPagesAddr r.self)
      (length >>> kPageSizeExponent) := by
    apply durable_managerMem
    · simp [numOfPagesAddr, headAddr]
    · simp only [numOfPagesAddr]; omega
    · left; simp only [line, numOfPagesAddr]; omega
    · simp [fieldsMem, load_store, numOfPagesAddr, headAddr, lastPersistentProcessInfoAddr, signatureAddr]
  have hsig : Durable line (managerMem w.mem r.self length) (signatureAddr r.self)
      kSignature := by
    apply durable_managerMem
    · simp [signatureAddr, headAddr]
    · simp only [signatureAddr]; omega
    · right; rfl
    · exact load_store_self ..
  have hlen : length >>> kPageSizeExponent = r.numOfPages := hpages.load.symm.trans hnum
  exact ⟨trivial, durable_of_flush_line rfl (load_store_self ..), hpage, hlen ▸ hpages, hsig,
    sentinel_managerMem length⟩

end

/-! ## Runs -/

/-- Memory and the objects that calls returned, newest first. -/
structure State where
  mem : Mem
  objs : List Obj

/-- Allocations that return, and what the callers do to their objects. -/
inductive Step (r : Region) : State → State → Prop
  | allocPages {s : State} {w' : World Unit} {n base : Word} (small : n.toNat < 2 ^ 52)
      (run : (allocPages r.self n).run ⟨s.mem, ()⟩ = .ok base w') :
      Step r s ⟨w'.mem, ⟨base, n⟩ :: s.objs⟩
  | allocPersistentProcessInfo {s : State} {w' : World Unit} {base : Word}
      (run : (allocPersistentProcessInfo r.self).run ⟨s.mem, ()⟩ = .ok base w') :
      Step r s ⟨w'.mem, ⟨base, byteSizeToPageSize sizeOfPersistentProcessInfo⟩ :: s.objs⟩
  | write {s : State} {o : Obj} {a : Nat} (v : Word) (mem : o ∈ s.objs) (above : o.base.toNat ≤ a)
      (below : a < o.stop) : Step r s ⟨s.mem.store a v, s.objs⟩
  | flush {s : State} {a : Nat} : Step r s ⟨s.mem.flush a, s.objs⟩

variable {r : Region} {s s' : State}

theorem Step.inv (h : Step r s s') (hi : Inv r s.mem s.objs) : Inv r s'.mem s'.objs ∧ Memory.Throughout
      (fun c => ∀ f, Image line c f → Consistent f r s.objs ∨ Consistent f r s'.objs) s.mem s'.mem := by
  cases h with
  | allocPages small run => exact allocPages_ok hi small run
  | allocPersistentProcessInfo run => exact allocPersistentProcessInfo_ok hi run
  | write v mem above below =>
    have h' := hi.store (hi.layout.object_not_uses mem above below) v
    exact ⟨h', (Memory.Throughout.refl _ _).store fun f hf => .inr (h'.consistent hf)⟩
  | flush =>
    exact ⟨hi.flush _, (Memory.Throughout.refl _ _).flush fun f hf => .inr ((hi.flush _).consistent hf)⟩

theorem run_inv (h : Relation.ReflTransGen (Step r) s s') (hi : Inv r s.mem s.objs) : Inv r s'.mem s'.objs := by
  induction h with
  | refl => exact hi
  | tail _ hstep ih => exact (hstep.inv ih).1

/-- From `Init` on, in every run, a crash at any point of any step leaves the objects from before the
step or those from after it. -/
theorem crash_consistent {r : Region} {nfit : Option (List NfitEntry)} {w w0 : World Unit}
    (hinit : (init r.self nfit).run w = .ok () w0) (hnum : w0.mem.load (numOfPagesAddr r.self) = r.numOfPages)
    {s s' : State} (hrun : Relation.ReflTransGen (Step r) ⟨w0.mem, []⟩ s) (hstep : Step r s s') {c : Mem}
    (hs : s.mem.Before c) (hs' : c.Before s'.mem) {f : Nat → Word} (hf : LineImage line c f) :
    Consistent f r s.objs ∨ Consistent f r s'.objs := by
  have hi := run_inv hrun (init_inv hinit hnum)
  exact (hstep.inv hi).2.between (fun f hf => .inl (hi.consistent hf)) hs hs' f (hf.image line)

def eightPages : Region := ⟨0x1000#64, 8#64, by decide, by decide⟩

/-- Memory after `Init` and the first allocation, up to the store to `head_`. -/
def eightPagesMem : Mem := managerMem (Memory.ofInit fun _ => 0#64) 0x1000#64 0x8000#64

def eightPagesHeader : Mem := setNextMem (initMem eightPagesMem 0x1fe0#64 1#64 2#64) 0x1fe0#64 0x1020#64

/-- The first allocation in a region of eight pages, crashed when the move of the head is lost. -/
theorem crash_consistent_eightPages :
    LineImage line (eightPagesHeader.store 0x1010 0x1fe0#64) eightPagesHeader.load ∧
      (Consistent eightPagesHeader.load eightPages [] ∨
        Consistent eightPagesHeader.load eightPages [⟨0x2000#64, 2#64⟩]) := by
  have hinit : (init eightPages.self (some [.other, .spaRange true 0x1000#64 0x8000#64])).run
      (⟨.ofInit fun _ => 0#64, ()⟩ : World Unit) = .ok () ⟨eightPagesMem, ()⟩ := rfl
  have hrun : (allocPages eightPages.self 2#64).run (⟨eightPagesMem, ()⟩ : World Unit) =
      .ok 0x2000#64 ⟨setHeadMem eightPagesHeader 0x1000#64 0x1fe0#64, ()⟩ := rfl
  have hf := lineImage_store_lost line eightPagesHeader 0x1010 0x1fe0#64
  refine ⟨hf, crash_consistent hinit (by decide) .refl
    (.allocPages (s := ⟨eightPagesMem, []⟩) (by decide) hrun) ?_ ?_ hf⟩
  · exact ⟨rfl, drop_suffix 10 (eightPagesHeader.store 0x1010 0x1fe0#64).ops⟩
  · exact Memory.before_flush ..

end Liumos.Pmem
