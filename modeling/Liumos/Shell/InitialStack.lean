/-
The stack a program starts with. The shell pushes the arguments as C strings, aligns the stack pointer, and pushes the
pointers to them, the last one first, and their number. A push goes through the page table of the new process.
Sources: command.cc (`ConsoleCommand::Run`, from the number of arguments to `RegisterProcess`), execution_context.cc.
`strlen` is that of the C library. The data that is pushed lies in memory of the kernel that no push changes; it is
passed as bytes.
-/
import Liumos.Elf.Faithful
import Liumos.Lib.DownStack
import Liumos.Process.Checkpoint
import Liumos.Shell.CommandLine

namespace Liumos.Process.ExecutionContext

open Paging List BitVec Nat

variable {σ : Type}

def rspAddr (self : Nat) : Nat := intCtxAddr self + 24

def getRSP (self : Nat) : WM σ Word := load (rspAddr self)

/-- The loop of `memcpy` from the `i`-th byte on, with the bytes that are left. -/
def copyIn (dst : Nat) : List (BitVec 8) → Nat → WM σ Unit
  | [], _ => pure ()
  | b :: data, i => do
    storeByte (dst + i) b
    copyIn dst data (i + 1)

def pushDataToStack (mask : Word) (self : Nat) (data : List (BitVec 8)) : WM σ Unit := do
  let rsp ← load (rspAddr self)
  store (rspAddr self) (rsp - BitVec.ofNat 64 data.length)
  let cr3 ← getCR3 self
  let rsp ← load (rspAddr self)
  let w ← get
  copyIn (v2p mask w.mem 3 cr3 rsp).toNat data 0

def alignStack (self : Nat) (align : Int) : WM σ Unit := do
  if align = 8 then
    let rsp ← load (rspAddr self)
    store (rspAddr self) (rsp &&& ~~~3#64)
  else assert false "false"

theorem run_copyIn {m : Mem} {dst : Nat} {f : Nat → BitVec 8} : ∀ (data : List (BitVec 8)) (i : Nat) {w : World σ},
    (∀ j b, data[j]? = some b → f (i + j) = b) → Libfunc.Filled m w.mem dst i f →
      ∃ m', (copyIn dst data i).run w = .ok () { w with mem := m' } ∧ Libfunc.Filled m m' dst (i + data.length) f
  | [], i, w, _, h => ⟨w.mem, rfl, h⟩
  | b :: data, i, w, hf, h => by
    have hb : f i = b := hf 0 b rfl
    have hsnoc := h.snoc
    rw [hb] at hsnoc
    obtain ⟨m', hrun, hfilled⟩ := run_copyIn data (i + 1) (w := { w with mem := storeByteMem w.mem (dst + i) b })
      (fun j c hc => by rw [add_assoc, add_comm 1 j]; exact hf (j + 1) c (by simpa using hc)) hsnoc
    refine ⟨m', hrun, ?_⟩
    rwa [length_cons, show i + (data.length + 1) = i + 1 + data.length by omega]

end Liumos.Process.ExecutionContext

namespace Liumos.Shell

open Process Process.ExecutionContext Paging DownStack Words CommandLineArgs

section

variable {σ : Type}

/-! ## The launch path -/

def kMaxArgvSize : Nat := 8

/-- The `n` bytes at `buf + p`. -/
def bytesFrom (buf : Nat → Byte) (p n : Nat) : List Byte := (List.range n).map fun j => buf (p + j)

/-- The bytes of a `uint64_t`, in memory order. -/
def wordBytes (v : Word) : List Byte := (List.range 8).map (byteOf v)

/-- The loop over the arguments, with `n` of them left: the values of `argv` it leaves. -/
def pushArgs (strlen : (Nat → Byte) → Nat → Nat) (mask : Word) (self : Nat) (args : CommandLineArgs) :
    Nat → Nat → WM σ (List Word)
  | 0, _ => return []
  | n + 1, i =>
    match args.getArg i with
    | none => throw .nullPointer
    | some arg => do
      pushDataToStack mask self (bytesFrom args.buf arg (strlen args.buf arg + 1))
      let rsp ← getRSP self
      let argv ← pushArgs strlen mask self args n (i + 1)
      return rsp :: argv

/-- The loop over `argv`, which goes down from `argv[n - 1]`. -/
def pushArgv (mask : Word) (self : Nat) (argv : List Word) : Nat → WM σ Unit
  | 0 => pure ()
  | n + 1 => do
    pushDataToStack mask self (wordBytes (argv.getD n 0#64))
    pushArgv mask self argv n

/-- The context of the process that is then registered, or nothing after `Too many args`. -/
def launch (strlen : (Nat → Byte) → Nat → Nat) (mask : Word) (loadELFAndCreateEphemeralProcess : WM σ Nat)
    (args : CommandLineArgs) : WM σ (Option Nat) := do
  if kMaxArgvSize < args.getNumOfArgs then return none
  else
    let self ← loadELFAndCreateEphemeralProcess
    let argv ← pushArgs strlen mask self args args.getNumOfArgs 0
    alignStack self 8
    pushArgv mask self argv args.getNumOfArgs
    pushDataToStack mask self (wordBytes (BitVec.ofNat 64 args.getNumOfArgs))
    return some self

/-! ## The stack in memory -/

/-- Where the context, the page table and the stack of a process are. The stack is contiguous in physical memory, and
neither the stack nor the context shares a page with a table. -/
structure StackPlace where
  mask : Word
  self : Nat
  root : Word
  base : Word
  paddr : Word
  size : Nat
  lv : Nat → Option Nat
  base_aligned : base.toNat % 4096 = 0
  paddr_aligned : paddr.toNat % 4096 = 0
  size_aligned : size % 4096 = 0
  size_pos : 0 < size
  base_lt : base.toNat + size < 2 ^ 64
  paddr_le : paddr.toNat + size ≤ 2 ^ 64
  apart : self + ExecutionContext.size ≤ paddr.toNat ∨ paddr.toNat + size ≤ self
  root_lv : lv root.toNat = some 3
  stack_lv : ∀ o < size, lv (pageOf (paddr.toNat + o)) = none
  context_lv : lv (pageOf (rspAddr self)) = none

/-- The virtual address of the `o`-th byte of the stack. -/
def StackPlace.addr (P : StackPlace) (o : Nat) : Word := P.base + BitVec.ofNat 64 o

/-- The stack is mapped, and the stack pointer is `top` bytes above its lower end. -/
structure StackPlace.At (P : StackPlace) (m : Mem) (top : Nat) : Prop where
  cr3 : m.load (cr3Addr P.self) = P.root
  rsp : m.load (rspAddr P.self) = P.addr top
  top_le : top ≤ P.size
  levelled : Levelled P.mask P.lv m
  mapped : ∀ o < P.size, v2p P.mask m 3 P.root (P.addr o) = P.paddr + BitVec.ofNat 64 o

/-- The stack as bytes by their offsets. -/
def StackPlace.stack (P : StackPlace) (m : Mem) (top : Nat) : Stack Byte :=
  ⟨fun o => if o < P.size then byteAt m (P.paddr.toNat + o) else 0#8, top⟩

variable {P : StackPlace} {m m' : Mem} {top top' o : Nat} {d : List Byte}

theorem StackPlace.toNat_addr (P : StackPlace) (ho : o ≤ P.size) : (P.addr o).toNat = P.base.toNat + o := by
  have := P.base_lt
  rw [addr, BitVec.toNat_add, BitVec.toNat_ofNat]
  omega

theorem StackPlace.addr_add (P : StackPlace) (o j : Nat) : P.addr o + BitVec.ofNat 64 j = P.addr (o + j) := by
  rw [addr, addr, BitVec.add_assoc, ← BitVec.ofNat_add]

theorem StackPlace.toNat_paddr_add (P : StackPlace) (ho : o < P.size) :
    (P.paddr + BitVec.ofNat 64 o).toNat = P.paddr.toNat + o := by
  have := P.paddr_le
  rw [BitVec.toNat_add, BitVec.toNat_ofNat]
  omega

/-- The register is not in the stack. -/
theorem StackPlace.rspAddr_outside (P : StackPlace) :
    rspAddr P.self < P.paddr.toNat ∨ P.paddr.toNat + P.size ≤ rspAddr P.self := by
  have := P.apart
  unfold ExecutionContext.size at this
  unfold rspAddr intCtxAddr
  omega

/-- The word of a byte of the stack is in the stack. -/
theorem StackPlace.wordOf_inside (P : StackPlace) (ho : o < P.size) :
    P.paddr.toNat ≤ wordOf (P.paddr.toNat + o) ∧ wordOf (P.paddr.toNat + o) < P.paddr.toNat + P.size := by
  have := P.paddr_aligned
  unfold wordOf
  omega

theorem StackPlace.wordOf_ne_rspAddr (P : StackPlace) (ho : o < P.size) :
    wordOf (P.paddr.toNat + o) ≠ rspAddr P.self := by
  have := P.rspAddr_outside
  have := P.wordOf_inside ho
  omega

/-- A process finds the bytes of the stack at their virtual addresses. -/
theorem StackPlace.At.byteThrough_eq (h : P.At m top) (ho : o < P.size) :
    Elf.byteThrough P.mask m P.root (P.addr o) = (P.stack m top).bytes o := by
  unfold Elf.byteThrough
  rw [h.mapped o ho, P.toNat_paddr_add ho]
  exact (if_pos ho).symm

/-- Stores to the stack and to the register keep the page table. -/
theorem StackPlace.At.of_load (h : P.At m top) (hrsp : m'.load (rspAddr P.self) = P.addr top')
    (htop : top' ≤ P.size) (hload : ∀ a, a ≠ rspAddr P.self → (a < P.paddr.toNat ∨ P.paddr.toNat + P.size ≤ a) →
      m'.load a = m.load a) : P.At m' top' := by
  have hsame : SameTables P.lv m m' := by
    refine .of_load fun a l hl => hload a ?_ ?_
    · rintro rfl
      rw [P.context_lv] at hl
      cases hl
    · by_contra hin
      have := P.stack_lv (a - P.paddr.toNat) (by omega)
      rw [show P.paddr.toNat + (a - P.paddr.toNat) = a by omega, hl] at this
      cases this
  refine ⟨?_, hrsp, htop, h.levelled.of_same hsame, fun o ho => ?_⟩
  · rw [hload (cr3Addr P.self), h.cr3]
    · unfold cr3Addr rspAddr intCtxAddr
      omega
    · have := P.apart
      unfold ExecutionContext.size at this
      unfold cr3Addr
      omega
  · rw [h.levelled.v2p_eq hsame P.root_lv, h.mapped o ho]

/-- The register changes and the bytes do not. -/
theorem StackPlace.At.setRsp (h : P.At m top) (top' : Nat) (htop : top' ≤ P.size) :
    P.At (m.store (rspAddr P.self) (P.addr top')) top' ∧
      (P.stack (m.store (rspAddr P.self) (P.addr top')) top').bytes = (P.stack m top).bytes := by
  constructor
  · exact h.of_load (WriteBack.Memory.load_store_self _ _ _) htop fun a ha _ => WriteBack.Memory.load_store_ne _ _ ha
  · funext o
    show (if o < P.size then _ else _) = if o < P.size then _ else _
    split_ifs with ho
    · exact byteAt_congr (WriteBack.Memory.load_store_ne _ _ (P.wordOf_ne_rspAddr ho))
    · rfl

/-! ## Pushes -/

theorem run_pushDataToStack {mask : Word} {self : Nat} {w : World σ}
    (hm : w.mem.store (rspAddr self) (w.mem.load (rspAddr self) - BitVec.ofNat 64 d.length) = m) :
    (pushDataToStack mask self d).run w =
      (copyIn (v2p mask m 3 (m.load (cr3Addr self)) (m.load (rspAddr self))).toNat d 0).run { w with mem := m } := by
  subst hm
  rfl

theorem StackPlace.At.run_push {w : World σ} (h : P.At w.mem top) (hne : d ≠ []) (hlen : d.length ≤ top) : ∃ m',
    (pushDataToStack P.mask P.self d).run w = .ok () { w with mem := m' } ∧ P.At m' (top - d.length) ∧
      Pushed (P.stack w.mem top) d (P.stack m' (top - d.length)) := by
  have hpos : 0 < d.length := List.length_pos_of_ne_nil hne
  have hle := h.top_le
  have hlt : top - d.length < P.size := by omega
  obtain ⟨hat, hbytes⟩ := h.setRsp (top - d.length) (by omega)
  have hsub : w.mem.load (rspAddr P.self) - BitVec.ofNat 64 d.length = P.addr (top - d.length) := by
    have hbase := P.base_lt
    apply BitVec.eq_of_toNat_eq
    rw [h.rsp, P.toNat_addr (by omega), BitVec.toNat_sub, P.toNat_addr hle, BitVec.toNat_ofNat]
    omega
  obtain ⟨m', hrun, hfilled⟩ := run_copyIn (f := fun i => d.getD i 0#8) d 0
    (w := { w with mem := w.mem.store (rspAddr P.self) (P.addr (top - d.length)) })
    (by simp +contextual [List.getD]) (Libfunc.filled_refl _ (P.paddr.toNat + (top - d.length)) _)
  rw [zero_add] at hfilled
  have hword : ∀ i < d.length, wordOf (P.paddr.toNat + (top - d.length) + i) =
      wordOf (P.paddr.toNat + (top - d.length + i)) := by
    intro i _
    rw [add_assoc]
  refine ⟨m', ?_, ?_, ?_⟩
  · rw [run_pushDataToStack (by rw [hsub]), hat.cr3, hat.rsp, hat.mapped _ hlt, P.toNat_paddr_add hlt, hrun]
  · refine hat.of_load ?_ hlt.le fun a _ ha => hfilled.load a fun i hi => ?_
    · rw [hfilled.load _ fun i hi => ?_, hat.rsp]
      rw [hword i hi]
      exact (P.wordOf_ne_rspAddr (by omega)).symm
    · rw [hword i hi]
      have := P.wordOf_inside (o := top - d.length + i) (by omega)
      omega
  · refine ⟨Nat.sub_add_cancel hlen, fun j c hc => ?_, fun o ho => ?_⟩
    · have hj : j < d.length := (getElem?_eq_some_iff.1 hc).1
      show (if top - d.length + j < P.size then byteAt m' (P.paddr.toNat + (top - d.length + j)) else 0#8) = c
      rw [if_pos (by omega), hfilled.byte, if_pos (by omega),
        show P.paddr.toNat + (top - d.length + j) - (P.paddr.toNat + (top - d.length)) = j by omega]
      simp [List.getD, hc]
    · have ho : top ≤ o := ho
      rw [← congrFun hbytes o]
      show (if o < P.size then _ else _) = if o < P.size then _ else _
      split_ifs
      · rw [hfilled.byte, if_neg (by omega)]
      · rfl

theorem StackPlace.At.run_alignStack {w : World σ} (h : P.At w.mem top) : ∃ m',
    (alignStack P.self 8).run w = .ok () { w with mem := m' } ∧ P.At m' (top / 4 * 4) ∧
      Kept (P.stack w.mem top) (P.stack m' (top / 4 * 4)) := by
  have hle := h.top_le
  obtain ⟨hat, hbytes⟩ := h.setRsp (top / 4 * 4) (by omega)
  have hmask : w.mem.load (rspAddr P.self) &&& ~~~3#64 = P.addr (top / 4 * 4) := by
    have hal := P.base_aligned
    apply BitVec.eq_of_toNat_eq
    rw [show (3#64 : Word) = lowMask 2 from rfl, toNat_and_not_lowMask, h.rsp, P.toNat_addr hle,
      P.toNat_addr (by omega)]
    omega
  refine ⟨_, ?_, hat, ⟨Nat.div_mul_le_self top 4, fun o _ => congrFun hbytes o⟩⟩
  rw [← hmask]
  rfl

/-- `strlen`, as the C library documents it. -/
def IsStrlen (strlen : (Nat → Byte) → Nat → Nat) : Prop :=
  ∀ (buf : Nat → Byte) (p : Nat) (w : List Byte), CStringAt 0#8 buf p w → strlen buf p = w.length

theorem bytesFrom_of_cstringAt {buf : Nat → Byte} {p : Nat} {w : List Byte} (h : CStringAt 0#8 buf p w) :
    bytesFrom buf p (w.length + 1) = w ++ [0#8] := by
  apply List.ext_getElem?
  intro j
  rw [bytesFrom, List.getElem?_map]
  rcases lt_trichotomy j w.length with hj | rfl | hj
  · rw [List.getElem?_range (by omega), List.getElem?_append_left hj, List.getElem?_eq_getElem hj]
    exact congrArg some (h.char j _ (List.getElem?_eq_getElem hj))
  · rw [List.getElem?_range (by omega), List.getElem?_concat_length]
    exact congrArg some h.stop
  · rw [List.getElem?_eq_none (by simp; omega), List.getElem?_eq_none (by simp; omega)]
    rfl

theorem length_wordBytes (v : Word) : (wordBytes v).length = 8 := by simp [wordBytes]

theorem wordBytes_ne_nil (v : Word) : wordBytes v ≠ [] := List.ne_nil_of_length_pos (by simp [length_wordBytes])

/-- The arguments from number `i` on are pushed one below the other, and `argv` has their addresses. -/
theorem run_pushArgs {strlen : (Nat → Byte) → Nat → Nat} (hstrlen : IsStrlen strlen) (args : CommandLineArgs) :
    ∀ (ws : List (List Byte)) (i : Nat) {w : World σ} {top : Nat}, P.At w.mem top →
      (∀ j v, ws[j]? = some v → ∃ p, args.getArg ((i + j : Nat) : Int) = some p ∧ CStringAt 0#8 args.buf p v) →
      bufNeeded ws ≤ top → ∃ m' ps, (pushArgs strlen P.mask P.self args ws.length i).run w =
          .ok (ps.map P.addr) { w with mem := m' } ∧
        P.At m' (top - bufNeeded ws) ∧
        Kept (P.stack w.mem top) (P.stack m' (top - bufNeeded ws)) ∧
        Laid (P.stack m' (top - bufNeeded ws)).bytes top (ws.map (· ++ [0#8])) ps (top - bufNeeded ws)
  | [], i, w, top, h, _, _ => ⟨w.mem, [], rfl, h, .refl _, rfl⟩
  | v :: ws, i, w, top, h, hargs, htop => by
    obtain ⟨p, hget, hp⟩ := hargs 0 v rfl
    have hneed : bufNeeded (v :: ws) = (v ++ [0#8]).length + bufNeeded ws := by
      simp [bufNeeded]
    obtain ⟨m1, hpush, hat1, hpushed⟩ := h.run_push (d := v ++ [0#8]) (by simp) (by omega)
    obtain ⟨m', ps, hrun, hat, hkept, hlaid⟩ := run_pushArgs hstrlen args ws (i + 1) (w := { w with mem := m1 }) hat1
      (fun j u hu => by rw [add_assoc, add_comm 1 j]; exact hargs (j + 1) u (by simpa using hu)) (by omega)
    rw [show top - (v ++ [0#8]).length - bufNeeded ws = top - bufNeeded (v :: ws) by omega]
      at hat hkept hlaid
    have hget' : args.getArg (i : Int) = some p := hget
    have hrsp : (getRSP P.self).run { w with mem := m1 } =
        .ok (P.addr (top - (v ++ [0#8]).length)) { w with mem := m1 } := by
      rw [← hat1.rsp]
      rfl
    refine ⟨m', (top - (v ++ [0#8]).length) :: ps, ?_, hat, hpushed.kept.trans hkept, .cons hpushed hkept hlaid⟩
    rw [List.length_cons, pushArgs, hget']
    dsimp only
    rw [hstrlen _ _ _ hp, bytesFrom_of_cstringAt hp, run_bind_eq hpush, run_bind_eq hrsp, run_bind_eq hrun]
    rfl

/-- The first `n` pointers are pushed, the last one first. -/
theorem run_pushArgv (argv : List Word) :
    ∀ (n : Nat) {w : World σ} {top : Nat}, P.At w.mem top → n ≤ argv.length → 8 * n ≤ top →
    ∃ m' qs, (pushArgv P.mask P.self argv n).run w = .ok () { w with mem := m' } ∧ P.At m' (top - 8 * n) ∧
      Kept (P.stack w.mem top) (P.stack m' (top - 8 * n)) ∧
      Laid (P.stack m' (top - 8 * n)).bytes top ((argv.take n).reverse.map wordBytes) qs (top - 8 * n)
  | 0, w, top, h, _, _ => ⟨w.mem, [], rfl, h, .refl _, by simp [Laid]⟩
  | n + 1, w, top, h, hn, htop => by
    have hblocks : (argv.take (n + 1)).reverse.map wordBytes =
        wordBytes (argv.getD n 0#64) :: (argv.take n).reverse.map wordBytes := by
      rw [List.take_add_one, List.getElem?_eq_getElem (by omega), List.getD_eq_getElem _ _ (by omega),
        Option.toList_some, List.reverse_append, List.map_append]
      rfl
    obtain ⟨m1, hpush, hat1, hpushed⟩ := h.run_push (wordBytes_ne_nil (argv.getD n 0#64))
      (by rw [length_wordBytes]; omega)
    rw [length_wordBytes] at hat1 hpushed
    obtain ⟨m', qs, hrun, hat, hkept, hlaid⟩ := run_pushArgv argv n (w := { w with mem := m1 }) hat1
      (by omega) (by omega)
    rw [show top - 8 - 8 * n = top - 8 * (n + 1) by omega] at hat hkept hlaid
    refine ⟨m', (top - 8) :: qs, ?_, hat, hpushed.kept.trans hkept, ?_⟩
    · rw [pushArgv, run_bind_eq hpush, hrun]
    · rw [hblocks]
      exact .cons hpushed hkept hlaid

/-- What the launch path leaves: the strings at the offsets `ps`, the pointers at the offsets `qs`, their number at
`b`. -/
structure Built (P : StackPlace) (ws : List (List Byte)) (m : Mem) (b : Nat) (ps qs : List Nat) : Prop where
  at_b : P.At m b
  need : bufNeeded ws ≤ P.size
  bottom : b + 8 + 8 * ws.length = (P.size - bufNeeded ws) / 4 * 4
  argc : Block (P.stack m b).bytes b (wordBytes (BitVec.ofNat 64 ws.length))
  slots : Laid (P.stack m b).bytes (b + 8 + 8 * ws.length)
    ((ps.map P.addr).reverse.map wordBytes) qs (b + 8)
  strings : Laid (P.stack m b).bytes P.size (ws.map (· ++ [0#8])) ps (P.size - bufNeeded ws)

/-! ## What the program finds -/

/-- A process reads the number `v` at `va`. -/
def WordThrough (mask : Word) (m : Mem) (root va v : Word) : Prop :=
  ∀ j < 8, Elf.byteThrough mask m root (va + BitVec.ofNat 64 j) = byteOf v j

/-- The addresses and sizes of the strings. -/
def stringObjects (argv : List Word) (ws : List (List Byte)) : List (Nat × Nat) :=
  List.zipWith (fun (p : Word) (w : List Byte) => (p.toNat, w.length + 1)) argv ws

/-- The addresses and sizes of the count, the pointers and the strings. -/
def objects (rsp : Word) (ws : List (List Byte)) (argv : List Word) : List (Nat × Nat) :=
  (rsp.toNat, 8) :: ((List.range ws.length).map (fun i => (rsp.toNat + 8 + 8 * i, 8)) ++ stringObjects argv ws)

/-- The stack a program with the arguments `ws` expects in the `size` bytes from `base` on. -/
structure InitialStack (mask : Word) (m : Mem) (root base : Word) (size : Nat) (rsp : Word) (ws : List (List Byte))
    (argv : List Word) : Prop where
  argc : WordThrough mask m root rsp (BitVec.ofNat 64 ws.length)
  length : argv.length = ws.length
  slot : ∀ (i : Nat) (p : Word), argv[i]? = some p → WordThrough mask m root (rsp + BitVec.ofNat 64 (8 + 8 * i)) p
  arg : ∀ (i : Nat) (p : Word) (w : List Byte), argv[i]? = some p → ws[i]? = some w →
    CStringAt 0#8 (fun a => Elf.byteThrough mask m root (BitVec.ofNat 64 a)) p.toNat w
  inside : ∀ x ∈ objects rsp ws argv, base.toNat ≤ x.1 ∧ x.1 + x.2 ≤ base.toNat + size
  apart : (objects rsp ws argv).Pairwise fun x y => x.1 + x.2 ≤ y.1 ∨ y.1 + y.2 ≤ x.1

variable {ws : List (List Byte)} {b i p : Nat} {ps qs : List Nat}

theorem StackPlace.At.wordThrough (h : P.At m b) {v : Word} (hv : Block (P.stack m b).bytes o (wordBytes v))
    (ho : o + 8 ≤ P.size) : WordThrough P.mask m P.root (P.addr o) v := by
  intro j hj
  rw [P.addr_add, h.byteThrough_eq (by omega)]
  exact hv j _ (by simp [wordBytes, hj])

theorem StackPlace.At.cstringAt (h : P.At m b) {w : List Byte} (hnul : 0#8 ∉ w)
    (hw : Block (P.stack m b).bytes o (w ++ [0#8])) (ho : o + (w.length + 1) ≤ P.size) :
    CStringAt 0#8 (fun a => Elf.byteThrough P.mask m P.root (BitVec.ofNat 64 a)) (P.addr o).toNat w := by
  have hread : ∀ j < w.length + 1, Elf.byteThrough P.mask m P.root
      (BitVec.ofNat 64 ((P.addr o).toNat + j)) = (P.stack m b).bytes (o + j) := by
    intro j hj
    rw [← h.byteThrough_eq (by omega), BitVec.ofNat_add, BitVec.ofNat_toNat, BitVec.setWidth_eq, P.addr_add]
  refine ⟨hnul, fun j c hc => ?_, ?_⟩
  · have hj : j < w.length := (getElem?_eq_some_iff.1 hc).1
    exact (hread j (by omega)).trans (hw j c (by rw [List.getElem?_append_left hj, hc]))
  · exact (hread w.length (by omega)).trans (hw w.length 0#8 (by simp))

section

variable (h : Built P ws m b ps qs)

include h

theorem Built.length_eq : ps.length = ws.length := by
  simpa using h.strings.length_eq

theorem Built.string {w : List Byte} (hp : ps[i]? = some p) (hw : ws[i]? = some w) :
    Block (P.stack m b).bytes p (w ++ [0#8]) ∧ P.size - bufNeeded ws ≤ p ∧ p + (w.length + 1) ≤ P.size := by
  have := h.strings.get (d := w ++ [0#8]) (by rw [List.getElem?_map, hw]; rfl) hp
  simpa using this

/-- The pointers were pushed from the last to the first, so they stand in order. -/
theorem Built.slot (hp : ps[i]? = some p) : Block (P.stack m b).bytes (b + 8 + 8 * i) (wordBytes (P.addr p)) := by
  have hi : i < ps.length := (getElem?_eq_some_iff.1 hp).1
  have hlen := h.length_eq
  have hqs : qs.length = ps.length := by simpa using h.slots.length_eq
  have hq : qs[ps.length - 1 - i]? = some (qs[ps.length - 1 - i]) := List.getElem?_eq_getElem (by omega)
  have hd : ((ps.map P.addr).reverse.map wordBytes)[ps.length - 1 - i]? = some (wordBytes (P.addr p)) := by
    rw [List.getElem?_map, List.getElem?_reverse (by simp; omega), List.length_map,
      show ps.length - 1 - (ps.length - 1 - i) = i by omega, List.getElem?_map, hp]
    rfl
  have hplace := h.slots.get_of_length (k := 8) (by simp [length_wordBytes]) hq
  have hblock := (h.slots.get hd hq).1
  rwa [show qs[ps.length - 1 - i] = b + 8 + 8 * i by omega] at hblock

theorem Built.apart_strings :
    (stringObjects (ps.map P.addr) ws).Pairwise fun x y => x.1 + x.2 ≤ y.1 ∨ y.1 + y.2 ≤ x.1 := by
  rw [stringObjects, List.pairwise_iff_getElem]
  intro i j hi hj hij
  simp only [List.length_zipWith, List.length_map] at hi hj
  have hpi : ps[i]? = some ps[i] := List.getElem?_eq_getElem (by omega)
  have hpj : ps[j]? = some ps[j] := List.getElem?_eq_getElem (by omega)
  have hwi : ws[i]? = some ws[i] := List.getElem?_eq_getElem (by omega)
  have hwj : ws[j]? = some ws[j] := List.getElem?_eq_getElem (by omega)
  have hbelow := h.strings.below hij hpi (d := ws[j] ++ [0#8]) (by rw [List.getElem?_map, hwj]; rfl) hpj
  have hi' := (h.string hpi hwi).2.2
  simp only [List.getElem_zipWith, List.getElem_map, List.length_append, List.length_singleton] at hbelow ⊢
  rw [P.toNat_addr (by omega), P.toNat_addr (by omega)]
  omega

/-- The strings lie above the pointers. -/
theorem Built.mem_strings {x : Nat × Nat} (hx : x ∈ stringObjects (ps.map P.addr) ws) :
    P.base.toNat + (b + 8 + 8 * ws.length) ≤ x.1 ∧ x.1 + x.2 ≤ P.base.toNat + P.size := by
  unfold stringObjects at hx
  obtain ⟨i, hi, rfl⟩ := List.getElem_of_mem hx
  simp only [List.length_zipWith, List.length_map] at hi
  have hpi : ps[i]? = some ps[i] := List.getElem?_eq_getElem (by omega)
  have hwi : ws[i]? = some ws[i] := List.getElem?_eq_getElem (by omega)
  obtain ⟨-, hlow, hhigh⟩ := h.string hpi hwi
  have hbottom := h.bottom
  simp only [List.getElem_zipWith, List.getElem_map]
  rw [P.toNat_addr (by omega)]
  omega

theorem Built.initialStack (hnul : ∀ w ∈ ws, 0#8 ∉ w) :
    InitialStack P.mask m P.root P.base P.size (m.load (rspAddr P.self)) ws (ps.map P.addr) := by
  have hbottom := h.bottom
  have hrsp : (P.addr b).toNat = P.base.toNat + b := P.toNat_addr (by omega)
  rw [h.at_b.rsp]
  refine ⟨h.at_b.wordThrough h.argc (by omega), by simpa using h.length_eq, ?_, ?_, ?_, ?_⟩
  · intro i v hv
    obtain ⟨p, hp, rfl⟩ := Option.map_eq_some_iff.1 (List.getElem?_map.symm.trans hv)
    have hi : i < ps.length := (getElem?_eq_some_iff.1 hp).1
    have hlen := h.length_eq
    rw [P.addr_add, ← add_assoc]
    exact h.at_b.wordThrough (h.slot hp) (by omega)
  · intro i v w hv hw
    obtain ⟨_, hp, rfl⟩ := Option.map_eq_some_iff.1 (List.getElem?_map.symm.trans hv)
    obtain ⟨hblock, -, hin⟩ := h.string hp hw
    exact h.at_b.cstringAt (hnul w (List.mem_of_getElem? hw)) hblock hin
  · intro x hx
    simp only [objects, List.mem_cons, List.mem_append, List.mem_map, List.mem_range] at hx
    rcases hx with rfl | ⟨i, hi, rfl⟩ | hx
    · omega
    · omega
    · have := h.mem_strings hx
      omega
  · -- the count, the pointers in order, and all strings above them
    simp only [objects, List.pairwise_cons, List.pairwise_append, List.mem_append, List.mem_map, List.mem_range]
    refine ⟨?_, ?_, h.apart_strings, ?_⟩
    · rintro x (⟨i, hi, rfl⟩ | hx)
      · exact .inl (by dsimp only; omega)
      · have := h.mem_strings hx
        exact .inl (by omega)
    · rw [List.pairwise_map]
      refine List.pairwise_lt_range.imp fun hij => .inl ?_
      omega
    · rintro _ ⟨i, hi, rfl⟩ y hy
      have := h.mem_strings hy
      exact .inl (by dsimp only; omega)

end

/-- The count and the pointers are at multiples of 8. -/
def AlignedStack (rsp : Word) (n : Nat) : Prop :=
  rsp.toNat % 8 = 0 ∧ ∀ i < n, (rsp + BitVec.ofNat 64 (8 + 8 * i)).toNat % 8 = 0

/-- `AlignStack(8)` clears two bits: of the strings' size modulo 8, it makes up for 5, 6 and 7 only. -/
theorem Built.alignedStack_iff (h : Built P ws m b ps qs) : AlignedStack (m.load (rspAddr P.self)) ws.length ↔
    bufNeeded ws % 8 = 0 ∨ 5 ≤ bufNeeded ws % 8 := by
  have hbottom := h.bottom
  have hbase := P.base_aligned
  have hsize := P.size_aligned
  have haddr : ∀ o ≤ P.size, (P.addr o).toNat % 8 = o % 8 := by
    intro o ho
    rw [P.toNat_addr ho]
    omega
  have hb : b % 8 = 0 ↔ bufNeeded ws % 8 = 0 ∨ 5 ≤ bufNeeded ws % 8 := by omega
  rw [AlignedStack, h.at_b.rsp, haddr b (by omega), hb, and_iff_left_iff_imp]
  intro hal i hi
  rw [P.addr_add, haddr _ (by omega)]
  omega

/-! ## The launch of a line that `Parse` accepts -/

variable {strlen : (Nat → Byte) → Nat → Nat} (hstrlen : IsStrlen strlen) {s : CString (0#8 : Byte)}
  {args0 args : CommandLineArgs}
  {l : List Nat} (hparse : (parse s.text).run ⟨args0, []⟩ = .ok true ⟨args, l⟩)
  (hargc : args.getNumOfArgs ≤ kMaxArgvSize)
  {create : WM σ Nat} {w w1 : World σ} (hcreate : create.run w = .ok P.self w1) (hready : P.At w1.mem P.size)
include hstrlen hparse hargc hcreate hready

theorem run_launch : ∃ m b ps qs, (launch strlen P.mask create args).run w = .ok (some P.self) { w1 with mem := m } ∧
        Built P (words isSpace s.text) m b ps qs := by
  obtain ⟨args', _, hrun, hholds, -⟩ := run_parse s args0
  rw [hrun] at hparse
  obtain ⟨hfits, hstate⟩ := EStateM.Result.ok.inj hparse
  obtain ⟨rfl, -⟩ := Logged.mk.inj hstate
  have hws := hholds hfits
  have hcount : args'.getNumOfArgs = (words isSpace s.text).length := by
    simpa [getNumOfArgs] using hws.argc_eq
  have hneed := ((fits_iff _ _ 0 (Nat.zero_le _)).1 hfits).2
  have hsize : 4096 ≤ P.size := by
    have := P.size_aligned
    have := P.size_pos
    omega
  generalize hwords : words isSpace s.text = ws at hws hcount hneed
  unfold kMaxArgvSize at hargc
  unfold kBufSize at hneed
  obtain ⟨m1, ps, hrun1, hat1, -, hlaid1⟩ := run_pushArgs (P := P) hstrlen args' ws 0 hready
    (fun j v hv => ⟨args'.argv j, by
      have hj : j < ws.length := (getElem?_eq_some_iff.1 hv).1
      have := hws.argc_eq
      rw [getArg, if_neg (by omega)]
      simp, by simpa using hws.get hv⟩) (by omega)
  obtain ⟨m2, hrun2, hat2, hkept2⟩ := hat1.run_alignStack (w := { w1 with mem := m1 })
  have hlen : (ps.map P.addr).length = ws.length := by
    simpa using hlaid1.length_eq
  obtain ⟨m3, qs, hrun3, hat3, hkept3, hlaid3⟩ := run_pushArgv (ps.map P.addr) ws.length
    (w := { w1 with mem := m2 }) hat2 hlen.ge (by omega)
  obtain ⟨m4, hrun4, hat4, hpushed⟩ := hat3.run_push (w := { w1 with mem := m3 })
    (wordBytes_ne_nil (BitVec.ofNat 64 ws.length)) (by rw [length_wordBytes]; omega)
  rw [length_wordBytes] at hat4 hpushed
  generalize hb : (P.size - bufNeeded ws) / 4 * 4 - 8 * ws.length - 8 = b at hat4 hpushed
  refine ⟨m4, b, ps, qs, ?_, hat4, by omega, by omega, hpushed.block, ?_, ?_⟩
  · rw [launch, hcount, if_neg (by unfold kMaxArgvSize; omega), run_bind_eq hcreate, run_bind_eq hrun1,
      run_bind_eq hrun2, run_bind_eq hrun3, run_bind_eq hrun4]
    rfl
  · rw [List.take_of_length_le hlen.le] at hlaid3
    rw [show b + 8 + 8 * ws.length = (P.size - bufNeeded ws) / 4 * 4 by omega,
      show b + 8 = (P.size - bufNeeded ws) / 4 * 4 - 8 * ws.length by omega]
    exact (hlaid3.congr hpushed.above).2
  · exact (hlaid1.congr ((hkept2.trans hkept3).trans hpushed.kept).above).2

/-- For a line of at most 8 arguments, the stack of the process that is registered has the number of arguments on top
and the pointers to them behind it, each to a copy of its argument, and nothing of this overlaps. -/
theorem launch_initialStack : ∃ w' argv,
      (launch strlen P.mask create args).run w = .ok (some P.self) w' ∧ w'.mem.load (cr3Addr P.self) = P.root ∧
        InitialStack P.mask w'.mem P.root P.base P.size (w'.mem.load (rspAddr P.self)) (words isSpace s.text) argv := by
  obtain ⟨_, _, _, _, hrun, hbuilt⟩ := run_launch hstrlen hparse hargc hcreate hready
  refine ⟨_, _, hrun, hbuilt.at_b.cr3, hbuilt.initialStack ?_⟩
  rintro w hw hnul
  exact s.nul_notMem (mem_of_mem_words hw hnul)

/-- The stack of that process is aligned to 8 bytes exactly when the strings take up 0, 5, 6 or 7 bytes modulo 8. -/
theorem launch_aligned_iff : ∃ w', (launch strlen P.mask create args).run w = .ok (some P.self) w' ∧
        (AlignedStack (w'.mem.load (rspAddr P.self)) (words isSpace s.text).length ↔
          bufNeeded (words isSpace s.text) % 8 = 0 ∨ 5 ≤ bufNeeded (words isSpace s.text) % 8) := by
  obtain ⟨_, _, _, _, hrun, hbuilt⟩ := run_launch hstrlen hparse hargc hcreate hready
  exact ⟨_, hrun, hbuilt.alignedStack_iff⟩

end

/-! ## A stack of one page -/

/-- The first zero byte. -/
noncomputable def firstNul (buf : Nat → Byte) (p : Nat) : Nat := sInf {n | buf (p + n) = 0#8}

theorem isStrlen_firstNul : IsStrlen firstNul := by
  intro buf p w hw
  apply le_antisymm
  · exact Nat.sInf_le hw.stop
  · refine le_csInf ⟨w.length, hw.stop⟩ fun n hn => ?_
    by_contra hlt
    have hlt : n < w.length := by omega
    have hchar : w[n] = 0#8 := (hw.char n _ (List.getElem?_eq_getElem hlt)).symm.trans hn
    exact hw.nul_notMem (hchar ▸ List.getElem_mem hlt)

theorem onePage_lv_stack (o : Nat) (ho : o < 4096) : onePage.lv (pageOf ((0x22000#64 : Word).toNat + o)) = none := by
  have hpage : pageOf ((0x22000#64 : Word).toNat + o) = 0x22000 := by
    simp only [pageOf, BitVec.toNat_ofNat]
    omega
  rw [hpage]
  decide

/-- The stack of `onePage`, with its context at 0x30000. -/
def onePageStack : StackPlace where
  mask := lowMask 36
  self := 0x30000
  root := 0x10000#64
  base := 0x401000#64
  paddr := 0x22000#64
  size := 4096
  lv := onePage.lv
  base_aligned := by decide
  paddr_aligned := by decide
  size_aligned := by decide
  size_pos := by decide
  base_lt := by decide
  paddr_le := by decide
  apart := by decide
  root_lv := by decide
  stack_lv := onePage_lv_stack
  context_lv := by decide

/-- Its memory when it was created: the stack pointer is behind the page. -/
def onePageReady : World Unit := ⟨(WriteBack.Memory.ofInit onePageInit).store 0x30098 0x402000#64, ()⟩

theorem onePageReady_at : onePageStack.At onePageReady.mem 4096 := by
  have hsame : SameTables onePage.lv (.ofInit onePageInit) onePageReady.mem := sameTables_store (by decide) _
  exact ⟨by decide, by decide, le_refl _, onePage_levelled.of_same hsame, fun o ho =>
    v2p_of_leaf (a := 0x13008) (by decide) (by decide) ho (by decide +kernel) (by decide +kernel)⟩

/-- A line that fits is accepted. -/
theorem accepted {s : CString (0#8 : Byte)} (hfits : fits kMaxNumOfArgs 0 (words isSpace s.text) = true)
    (hlen : (words isSpace s.text).length ≤ kMaxArgvSize) (args0 : CommandLineArgs) : ∃ args l,
    (parse s.text).run ⟨args0, []⟩ = .ok true ⟨args, l⟩ ∧ args.getNumOfArgs ≤ kMaxArgvSize := by
  obtain ⟨args, l, hrun, hholds, -⟩ := run_parse s args0
  rw [hfits] at hrun
  refine ⟨args, l, hrun, ?_⟩
  have hcount := (hholds hfits).argc_eq
  unfold getNumOfArgs
  omega

/-- `ab cd`. -/
def twoArgs : CString (0#8 : Byte) := ⟨[0x61#8, 0x62#8, space, 0x63#8, 0x64#8], by decide⟩

/-- `a`. -/
def shortArg : CString (0#8 : Byte) := ⟨[0x61#8], by decide⟩

theorem launch_initialStack_twoArgs : ∃ args w' argv,
    (launch firstNul (lowMask 36) (pure 0x30000) args).run onePageReady = .ok (some 0x30000) w' ∧
      w'.mem.load (cr3Addr 0x30000) = 0x10000#64 ∧
      InitialStack (lowMask 36) w'.mem 0x10000#64 0x401000#64 4096 (w'.mem.load (rspAddr 0x30000))
        (words isSpace twoArgs.text) argv := by
  obtain ⟨args, _, hparse, hargc⟩ := accepted (s := twoArgs) (by decide +kernel) (by decide +kernel)
    ⟨0, fun _ => 0, fun _ => 0#8⟩
  exact ⟨args, launch_initialStack (P := onePageStack) isStrlen_firstNul hparse hargc rfl onePageReady_at⟩

theorem launch_aligned_twoArgs : ∃ args w',
    (launch firstNul (lowMask 36) (pure 0x30000) args).run onePageReady = .ok (some 0x30000) w' ∧
      AlignedStack (w'.mem.load (rspAddr 0x30000)) 2 := by
  obtain ⟨args, _, hparse, hargc⟩ := accepted (s := twoArgs) (by decide +kernel) (by decide +kernel)
    ⟨0, fun _ => 0, fun _ => 0#8⟩
  obtain ⟨w', hrun, hiff⟩ := launch_aligned_iff (P := onePageStack) isStrlen_firstNul hparse hargc
    rfl onePageReady_at
  exact ⟨args, w', hrun, hiff.2 (by decide +kernel)⟩

/-- With the one argument `a`, the stack pointer is 4 modulo 8. -/
theorem launch_misaligned_shortArg : ∃ args0 args l w', IsStrlen firstNul ∧
    (parse shortArg.text).run ⟨args0, []⟩ = .ok true ⟨args, l⟩ ∧ args.getNumOfArgs ≤ kMaxArgvSize ∧
    onePageStack.At onePageReady.mem onePageStack.size ∧
    (launch firstNul (lowMask 36) (pure 0x30000) args).run onePageReady = .ok (some 0x30000) w' ∧
      ¬AlignedStack (w'.mem.load (rspAddr 0x30000)) 1 := by
  obtain ⟨args, l, hparse, hargc⟩ := accepted (s := shortArg) (by decide +kernel) (by decide +kernel)
    ⟨0, fun _ => 0, fun _ => 0#8⟩
  obtain ⟨_, _, _, _, hrun, hbuilt⟩ := run_launch (P := onePageStack) isStrlen_firstNul hparse hargc
    rfl onePageReady_at
  refine ⟨_, args, l, _, isStrlen_firstNul, hparse, hargc, onePageReady_at, hrun, fun hal => ?_⟩
  exact absurd (hbuilt.alignedStack_iff.1 hal) (by decide +kernel)

end Liumos.Shell
