/-
The four readers of IPv4 addresses: `inet_addr` and `MakeIPv4AddrFromString` of the applications' library,
`CreateFromString` of the kernel, and `inet_addr` of the browser in Rust. The browser does not shift the second number,
which is mixed up with the first.
Sources: liumlib.c, browser-rs/src/net.rs, network.h. `StrToByte` of the library has the text of the kernel's. A failed
assertion or a panic of an application gives nothing. `str::parse::<u32>` is that of Rust's library.
-/
import Liumos.Inet.AddrText

namespace Liumos

open Virtio Inet Scan List
open BitVec (ofNat ofNat_toNat)

/-- The bytes of a `uint32_t`, in memory order. -/
def memoryBytes (w : BitVec 32) : List Byte :=
  [w.setWidth 8, (w >>> 8).setWidth 8, (w >>> 16).setWidth 8, (w >>> 24).setWidth 8]

namespace Liumlib

/-- `while (*cp)` with `dots`, `acc` and the numbers stored so far: `dots` and all numbers at the end of the text, or
nothing where the loop returns 0. Its case of `'\0'` is never reached. -/
def inetLoop : List Char → Nat → BitVec 32 → List (BitVec 32) → Option (Nat × List (BitVec 32))
  | [], dots, acc, addrs => some (dots, addrs ++ [acc])
  | c :: cp, dots, acc, addrs =>
    if c.isDigit then inetLoop cp dots (acc * 10#32 + BitVec.ofNat 32 (c.toNat - '0'.toNat)) addrs
    else if c = '.' then
      if 3 < dots + 1 then none else inetLoop cp (dots + 1) 0#32 (addrs ++ [acc])
    else none

def inetAddr (cp : List Char) : BitVec 32 :=
  match inetLoop cp 0 0#32 [] with
  | none => 0#32
  | some (dots, addrs) =>
    let a i := addrs.getD i 0#32
    if dots = 3 then a 3 <<< 24 ||| a 2 <<< 16 ||| a 1 <<< 8 ||| a 0
    else if dots = 2 then a 2 <<< 24 ||| a 1 <<< 8 ||| a 0
    else if dots = 1 then a 1 <<< 24 ||| a 0
    else a 0 <<< 24

/-- `*(uint32_t*)buf`, which is little-endian. -/
def loadBytes (buf : List Byte) : BitVec 32 :=
  let b i := (buf.getD i 0#8).setWidth 32
  b 3 <<< 24 ||| b 2 <<< 16 ||| b 1 <<< 8 ||| b 0

/-- `MakeIPv4AddrFromString(s)`. What comes after the last number is not looked at. -/
def makeIPv4AddrFromString (s : List Char) : Option (BitVec 32) := (readBytes 3 s).map fun r => loadBytes r.1

end Liumlib

namespace Browser

/-- `s.splitn(2, ':')`. -/
def splitn2 (s : List Char) : List (List Char) :=
  match s.dropWhile (· != ':') with
  | [] => [s]
  | _ :: rest => [s.takeWhile (· != ':'), rest]

def ipToInt (parse : List Char → Option (BitVec 32)) (ip : List Char) : Option (BitVec 32) :=
  let ipBlocks := ip.splitOn '.'
  if ipBlocks.length ≠ 4 then some 0#32
  else do
    let b3 ← parse (ipBlocks.getD 3 [])
    let b2 ← parse (ipBlocks.getD 2 [])
    let b1 ← parse (ipBlocks.getD 1 [])
    let b0 ← parse (ipBlocks.getD 0 [])
    return b3 <<< 24 ||| b2 <<< 16 ||| b1 ||| b0

def inetAddr (parse : List Char → Option (BitVec 32)) (host : List Char) : Option (BitVec 32) :=
  let v := splitn2 host
  if v.length = 2 ∨ v.length = 1 then ipToInt parse (v.getD 0 []) else none

/-- `str::parse::<u32>` reads the decimal numbers of 32 bits. -/
def ParsesU32 (parse : List Char → Option (BitVec 32)) : Prop :=
  ∀ d : List Char, d ≠ [] → IsDigits d → value d < 2 ^ 32 → parse d = some (BitVec.ofNat 32 (value d))

end Browser

/-! ## Numbers of a dotted quad -/

section

variable {ds : List (List Char)} {x : IPv4Addr} {q : List Char}

/-- A quad by its four numbers. -/
theorem exists_four_numbers (h : DottedQuad q x) : ∃ d0 d1 d2 d3, q = dotted [d0, d1, d2, d3] ∧
    (∀ d ∈ [d0, d1, d2, d3], d ≠ [] ∧ IsDigits d) ∧
    value d0 = x.a.toNat ∧ value d1 = x.b.toNat ∧ value d2 = x.c.toNat ∧ value d3 = x.d.toNat := by
  obtain ⟨ds, rfl, hds, hval⟩ := h
  have hlen : ds.length = 4 := by
    have := congrArg length hval
    simpa [IPv4Addr.toList] using this
  obtain ⟨d0, d1, d2, d3, rfl⟩ := length_eq_four.1 hlen
  refine ⟨d0, d1, d2, d3, rfl, hds, ?_⟩
  simpa [IPv4Addr.toList] using hval

/-! ## The library's `inet_addr` -/

theorem inetLoop_digits (rest : List Char) (dots : Nat) (addrs : List (BitVec 32)) : ∀ d num, IsDigits d →
    Liumlib.inetLoop (d ++ rest) dots (ofNat 32 num) addrs = Liumlib.inetLoop rest dots
      (ofNat 32 (Nat.ofDigitChars 10 d num)) addrs
  | [], _, _ => rfl
  | c :: d, num, hd => by
    have hc : c.isDigit = true := hd c mem_cons_self
    have hnum : ofNat 32 num * 10#32 + ofNat 32 (c.toNat - '0'.toNat) =
        ofNat 32 (10 * num + (c.toNat - '0'.toNat)) := by
      rw [BitVec.ofNat_add, BitVec.ofNat_mul, BitVec.mul_comm]
    rw [cons_append, Liumlib.inetLoop, if_pos hc, hnum, Nat.ofDigitChars_cons]
    exact inetLoop_digits rest dots addrs d _ fun e he => hd e (mem_cons_of_mem c he)

theorem inetLoop_dotted : ∀ ds n dots addrs, ds.length = n + 1 → (∀ d ∈ ds, IsDigits d) → dots + n ≤ 3 →
      Liumlib.inetLoop (dotted ds) dots 0#32 addrs = some (dots + n, addrs ++ ds.map fun d => ofNat 32 (value d))
  | [], _, _, _, hlen, _, _ => by simp at hlen
  | [d], n, dots, addrs, hlen, hds, _ => by
    obtain rfl : n = 0 := by simpa using hlen.symm
    have hrun := inetLoop_digits [] dots addrs d 0 (hds d mem_cons_self)
    rw [append_nil] at hrun
    rw [dotted_singleton]
    exact hrun
  | d :: e :: ds, n, dots, addrs, hlen, hds, hdots => by
    obtain ⟨n, rfl⟩ : ∃ k, n = k + 1 := ⟨ds.length, by simpa using hlen.symm⟩
    have hrun := inetLoop_digits ('.' :: dotted (e :: ds)) dots addrs d 0 (hds d mem_cons_self)
    have hrest := inetLoop_dotted (e :: ds) n (dots + 1) (addrs ++ [ofNat 32 (value d)])
      (by simpa using hlen) (fun f hf => hds f (mem_cons_of_mem d hf)) (by omega)
    rw [dotted_cons d (by simp)]
    refine hrun.trans ?_
    rw [Liumlib.inetLoop, if_neg (by decide), if_pos rfl, if_neg (by omega)]
    refine hrest.trans ?_
    rw [append_assoc, Nat.add_assoc, Nat.add_comm 1 n]
    rfl

theorem memoryBytes_shifts (a b c d : Byte) :
    memoryBytes (d.setWidth 32 <<< 24 ||| c.setWidth 32 <<< 16 ||| b.setWidth 32 <<< 8 ||| a.setWidth 32) =
      [a, b, c, d] := by
  simp only [memoryBytes, cons.injEq, and_true]
  refine ⟨?_, ?_, ?_, ?_⟩
  all_goals
    apply BitVec.eq_of_getLsbD_eq
    intro i hi
    interval_cases i <;> simp

theorem memoryBytes_liumlib_inetAddr (h : DottedQuad q x) : memoryBytes (Liumlib.inetAddr q) = x.toList := by
  obtain ⟨d0, d1, d2, d3, rfl, hds, h0, h1, h2, h3⟩ := exists_four_numbers h
  have hloop := inetLoop_dotted [d0, d1, d2, d3] 3 0 [] rfl (fun d hd => (hds d hd).2) (by decide)
  simp only [map_cons, map_nil, nil_append, h0, h1, h2, h3, ofNat_toNat] at hloop
  rw [Liumlib.inetAddr, hloop]
  exact memoryBytes_shifts x.a x.b x.c x.d

/-! ## `MakeIPv4AddrFromString` -/

theorem memoryBytes_makeIPv4AddrFromString (h : DottedQuad q x) :
    (Liumlib.makeIPv4AddrFromString q).map memoryBytes = some x.toList := by
  obtain ⟨d0, d1, d2, d3, rfl, hds, h0, h1, h2, h3⟩ := exists_four_numbers h
  have hread := readBytes_dotted stops_nil (show [d0, d1, d2, d3].length = 3 + 1 from rfl) fun d hd => (hds d hd).2
  rw [append_nil] at hread
  rw [Liumlib.makeIPv4AddrFromString, hread]
  simp only [map_cons, map_nil, byteValue, h0, h1, h2, h3, ofNat_toNat, BitVec.setWidth_eq, Option.map_some]
  exact congrArg some (memoryBytes_shifts x.a x.b x.c x.d)

/-! ## The browser's `inet_addr` -/

/-- The first two numbers are in the first byte. -/
theorem memoryBytes_unshifted (a b c d : Byte) :
    memoryBytes (d.setWidth 32 <<< 24 ||| c.setWidth 32 <<< 16 ||| b.setWidth 32 ||| a.setWidth 32) =
      [b ||| a, 0#8, c, d] := by
  have hor : b.setWidth 32 ||| a.setWidth 32 = (b ||| a).setWidth 32 := BitVec.setWidth_or.symm
  have hzero : (0#8 : Byte).setWidth 32 <<< 8 = 0#32 := by decide
  have hshifts := memoryBytes_shifts (b ||| a) 0#8 c d
  rw [hzero, BitVec.or_zero] at hshifts
  rw [BitVec.or_assoc, hor, hshifts]

theorem colon_notMem_dotted (hds : ∀ d ∈ ds, IsDigits d) : ∀ c ∈ dotted ds, (c != ':') = true := by
  intro c hc
  rw [bne_iff_ne]
  rintro rfl
  induction ds with
  | nil => simp [dotted] at hc
  | cons d ds ih =>
    have hd : ':' ∉ d := fun hmem => absurd (hds d mem_cons_self _ hmem) (by decide)
    cases ds with
    | nil =>
      rw [dotted_singleton] at hc
      exact hd hc
    | cons e ds =>
      rw [dotted_cons d (by simp), mem_append, mem_cons] at hc
      rcases hc with hc | hc | hc
      · exact hd hc
      · exact absurd hc (by decide)
      · exact ih (fun f hf => hds f (mem_cons_of_mem d hf)) hc

theorem splitn2_of_notMem {s suffix : List Char} (hs : ∀ c ∈ s, (c != ':') = true)
    (h : suffix = [] ∨ ∃ port, suffix = ':' :: port) :
    ((Browser.splitn2 (s ++ suffix)).length = 2 ∨ (Browser.splitn2 (s ++ suffix)).length = 1) ∧
      (Browser.splitn2 (s ++ suffix)).getD 0 [] = s := by
  unfold Browser.splitn2
  rw [dropWhile_append_of_pos hs, takeWhile_append_of_pos hs]
  rcases h with rfl | ⟨port, rfl⟩
  · simp
  · simp

theorem memoryBytes_browser_inetAddr {parse : List Char → Option (BitVec 32)} (hparse : Browser.ParsesU32 parse)
    (h : DottedQuad q x) {suffix : List Char} (hs : suffix = [] ∨ ∃ port, suffix = ':' :: port) :
    (Browser.inetAddr parse (q ++ suffix)).map memoryBytes = some [x.b ||| x.a, 0#8, x.c, x.d] := by
  obtain ⟨d0, d1, d2, d3, rfl, hds, h0, h1, h2, h3⟩ := exists_four_numbers h
  obtain ⟨hlen, hhead⟩ := splitn2_of_notMem (colon_notMem_dotted fun d hd => (hds d hd).2) hs
  have hsplit : (dotted [d0, d1, d2, d3]).splitOn '.' = [d0, d1, d2, d3] :=
    splitOn_intercalate '.' (fun d hd => (hds d hd).2.dot_notMem) (by simp)
  have hnum : ∀ d ∈ [d0, d1, d2, d3], ∀ b : Byte, value d = b.toNat → parse d = some (b.setWidth 32) := by
    intro d hd b hb
    rw [hparse d (hds d hd).1 (hds d hd).2 (by omega), hb, ofNat_toNat]
  unfold Browser.inetAddr
  rw [if_pos hlen, hhead, Browser.ipToInt, hsplit]
  simp only [length_cons, length_nil, Nat.zero_add, Nat.reduceAdd, ne_eq, not_true_eq_false, if_false,
    getD_cons_zero, getD_cons_succ]
  rw [hnum d3 (by simp) x.d h3, hnum d2 (by simp) x.c h2, hnum d1 (by simp) x.b h1, hnum d0 (by simp) x.a h0]
  exact congrArg some (memoryBytes_unshifted x.a x.b x.c x.d)

end

/-- All four readers give the octets of a dotted quad in memory order exactly when the second octet is zero. -/
theorem readers_agree_iff {parse : List Char → Option (BitVec 32)} (hparse : Browser.ParsesU32 parse) {q : List Char}
    {x : IPv4Addr} (hq : DottedQuad q x) {suffix : List Char} (hs : suffix = [] ∨ ∃ port, suffix = ':' :: port) :
    (memoryBytes (Liumlib.inetAddr q) = x.toList ∧ (Liumlib.makeIPv4AddrFromString q).map memoryBytes = some x.toList ∧
      (createFromString q).map IPv4Addr.toList = some x.toList ∧
      (Browser.inetAddr parse (q ++ suffix)).map memoryBytes = some x.toList) ↔ x.b = 0#8 := by
  rw [memoryBytes_liumlib_inetAddr hq, memoryBytes_makeIPv4AddrFromString hq, hq.createFromString_eq,
    memoryBytes_browser_inetAddr hparse hq hs]
  simp only [Option.map_some, true_and, IPv4Addr.toList, Option.some.injEq, cons.injEq, and_true]
  constructor
  · rintro ⟨-, hb⟩
    exact hb.symm
  · intro hb
    rw [hb]
    exact ⟨BitVec.zero_or, rfl⟩

/-! ## Addresses that are read -/

/-- The numbers of 32 bits. -/
def parseDecimal (d : List Char) : Option (BitVec 32) :=
  if d ≠ [] ∧ d.all Char.isDigit = true ∧ value d < 2 ^ 32 then some (BitVec.ofNat 32 (value d)) else none

theorem parsesU32_parseDecimal : Browser.ParsesU32 parseDecimal := by
  intro d hne hd hlt
  rw [parseDecimal, if_pos ⟨hne, all_eq_true.2 hd, hlt⟩]

theorem readers_agree_localhost : memoryBytes (Liumlib.inetAddr "127.0.0.1".toList) = [127#8, 0#8, 0#8, 1#8] ∧
    (Browser.inetAddr parseDecimal "127.0.0.1:8888".toList).map memoryBytes = some [127#8, 0#8, 0#8, 1#8] := by
  have hport : ":8888".toList = [] ∨ ∃ port, ":8888".toList = ':' :: port := .inr ⟨"8888".toList, rfl⟩
  have hagree := (readers_agree_iff parsesU32_parseDecimal (dottedQuad_printed ⟨127#8, 0#8, 0#8, 1#8⟩) hport).2 rfl
  exact ⟨hagree.1, hagree.2.2.2⟩

/-- The browser takes 10.1.2.3 for 11.0.2.3. -/
theorem browser_mixes_octets : Browser.ParsesU32 parseDecimal ∧ DottedQuad "10.1.2.3".toList ⟨10#8, 1#8, 2#8, 3#8⟩ ∧
    memoryBytes (Liumlib.inetAddr "10.1.2.3".toList) = [10#8, 1#8, 2#8, 3#8] ∧
    (Browser.inetAddr parseDecimal "10.1.2.3".toList).map memoryBytes = some [11#8, 0#8, 2#8, 3#8] :=
  ⟨parsesU32_parseDecimal, dottedQuad_printed ⟨10#8, 1#8, 2#8, 3#8⟩, by decide, by decide⟩

end Liumos
