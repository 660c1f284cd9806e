/-
IPv4 addresses as text. `CreateFromString` reads four numbers with dots between them; a number may have no digit at all,
and only its lower byte is kept. What `WriteString` prints is read back.
Sources: network.h (`IPv4Addr`), generic.h (`StrToByte`), string_buffer.h, network_test.cc. A string buffer is the text
written to it so far, and a C string the text before its terminator.
-/
import Liumos.Lib.Scan
import Liumos.Machine.CString
import Liumos.Virtio.Queue

namespace Liumos.Inet

open Virtio Scan List Nat

/-! ## Reading -/

/-- `StrToByte(s, &s)`: the byte, and where the text goes on. -/
def strToByte (s : List Char) : Byte × List Char :=
  let r := number 0#32 s
  (r.1.setWidth 8, r.2)

/-- The rounds of `for (int i = 0;; i++)` with `n` rounds to come: the bytes, and where the text goes on. Nothing when
there is no dot after a number that is not the last. -/
def readBytes : Nat → List Char → Option (List Byte × List Char)
  | 0, s => some ([(strToByte s).1], (strToByte s).2)
  | n + 1, s =>
    match (strToByte s).2 with
    | [] => none
    | c :: rest => if c = '.' then (readBytes n rest).map fun r => ((strToByte s).1 :: r.1, r.2) else none

def addrOfBytes (l : List Byte) : IPv4Addr := ⟨l.getD 0 0#8, l.getD 1 0#8, l.getD 2 0#8, l.getD 3 0#8⟩

/-- `IPv4Addr::CreateFromString(s)`. -/
def createFromString (s : List Char) : Option IPv4Addr :=
  match readBytes 3 s with
  | none => none
  | some (bytes, rest) => if rest = [] then some (addrOfBytes bytes) else none

/-! ## Printing -/

/-- `WriteChar(c)` of a `StringBuffer<N>`. -/
def writeChar (N : Nat) (buf : List Char) (c : Char) : List Char := if N ≤ buf.length then buf else buf ++ [c]

/-- The digits of a number from the last one on, at most `n` of them. -/
def lastDigits : Nat → Nat → List Nat
  | 0, _ => []
  | n + 1, value => if value / 10 = 0 then [value % 10] else value % 10 :: lastDigits n (value / 10)

def writeDecimal64 (N : Nat) (buf : List Char) (value : Word) : List Char :=
  ((lastDigits 20 value.toNat).reverse.map fun d => Char.ofNat ('0'.toNat + d)).foldl (writeChar N) buf

/-- `WriteString` of an address: its bytes, and a dot after each that is not the last. -/
def writeString (N : Nat) (x : IPv4Addr) (buf : List Char) : List Char :=
  x.toList.zipIdx.foldl (fun buf p =>
    let buf := writeDecimal64 N buf (p.1.setWidth 64)
    if p.2 ≠ 3 then writeChar N buf '.' else buf) buf

/-- `GetString()`. -/
def getString (buf : List Char) : List Char := buf.takeWhile (· != '\x00')

/-! ## Runs of digits with dots between them -/

/-- Texts with single dots between them. -/
def dotted (ds : List (List Char)) : List Char := ['.'].intercalate ds

def IsDigits (d : List Char) : Prop := ∀ c ∈ d, c.isDigit = true

/-- The number a run of digits stands for. -/
def value (d : List Char) : Nat := Nat.ofDigitChars 10 d 0

/-- Four decimal numbers with single dots between them, which are the octets of `x`. -/
def DottedQuad (s : List Char) (x : IPv4Addr) : Prop :=
  ∃ ds, s = dotted ds ∧ (∀ d ∈ ds, d ≠ [] ∧ IsDigits d) ∧ ds.map value = x.toList.map BitVec.toNat

/-- Four runs of digits with single dots between them, of which one is empty or above 255. -/
def Malformed (s : List Char) : Prop :=
  ∃ ds, ds.length = 4 ∧ (∀ d ∈ ds, IsDigits d) ∧ s = dotted ds ∧ ∃ d ∈ ds, d = [] ∨ 255 < value d

section

variable {d rest s : List Char} {ds es : List (List Char)} {x : IPv4Addr}

theorem IsDigits.dot_notMem (h : IsDigits d) : '.' ∉ d := by
  intro hmem
  exact absurd (h _ hmem) (by decide)

/-- A text has its runs in one way only. -/
theorem dotted_inj (hds : ∀ d ∈ ds, IsDigits d) (hes : ∀ d ∈ es, IsDigits d) (hne : ds ≠ []) (hne' : es ≠ [])
    (h : dotted ds = dotted es) : ds = es := by
  rw [← splitOn_intercalate '.' (fun d hd => (hds d hd).dot_notMem) hne,
    ← splitOn_intercalate '.' (fun d hd => (hes d hd).dot_notMem) hne']
  exact congrArg _ h

theorem dotted_cons (d : List Char) (hne : ds ≠ []) : dotted (d :: ds) = d ++ '.' :: dotted ds := by
  obtain ⟨_, _, rfl⟩ := exists_cons_of_ne_nil hne
  simp [dotted, intercalate_cons_cons]

theorem dotted_singleton (d : List Char) : dotted [d] = d := by simp [dotted]

/-- The byte of a run. -/
def byteValue (d : List Char) : Byte := BitVec.ofNat 8 (value d)

theorem strToByte_append (hd : IsDigits d) (hrest : Stops Char.isDigit rest) :
    strToByte (d ++ rest) = (byteValue d, rest) := by
  have hnum : number 0#32 (d ++ rest) = (BitVec.ofNat 32 (value d), rest) := number_append hrest d 0 hd
  unfold strToByte byteValue
  rw [hnum]
  simp only [Prod.mk.injEq, and_true]
  apply BitVec.eq_of_toNat_eq
  simp only [BitVec.toNat_setWidth, BitVec.toNat_ofNat]
  omega

/-- Every text is a run of digits and what comes after it. -/
theorem exists_run (s : List Char) : ∃ d rest, s = d ++ rest ∧ IsDigits d ∧ Stops Char.isDigit rest := by
  refine ⟨s.takeWhile Char.isDigit, s.dropWhile Char.isDigit, takeWhile_append_dropWhile.symm, ?_, ?_⟩
  · intro c hc
    exact mem_takeWhile_imp hc
  · intro c hc
    have := head?_dropWhile_not Char.isDigit s
    rw [Option.mem_def.1 hc] at this
    simpa using this

theorem stops_dot (rest : List Char) : Stops Char.isDigit ('.' :: rest) := stops_cons.2 (by decide)

theorem readBytes_dotted (hrest : Stops Char.isDigit rest) : ∀ {n : Nat} {ds : List (List Char)}, ds.length = n + 1 →
    (∀ d ∈ ds, IsDigits d) → readBytes n (dotted ds ++ rest) = some (ds.map byteValue, rest)
  | 0, ds, hlen, hds => by
    obtain ⟨d, rfl⟩ := length_eq_one_iff.1 hlen
    rw [readBytes, dotted_singleton, strToByte_append (hds d (by simp)) hrest]
    rfl
  | n + 1, [], hlen, _ => by simp at hlen
  | n + 1, d :: ds, hlen, hds => by
    have hlen' : ds.length = n + 1 := by simpa using hlen
    have hne : ds ≠ [] := ne_nil_of_length_pos (by omega)
    have hrun := strToByte_append (hds d mem_cons_self) (stops_dot (dotted ds ++ rest))
    rw [dotted_cons d hne, append_assoc, cons_append, readBytes, hrun]
    dsimp only
    rw [if_pos rfl, readBytes_dotted hrest hlen' fun e he => hds e (mem_cons_of_mem d he)]
    rfl

/-- What is read has the form of runs with dots between them. -/
theorem of_readBytes_eq_some : ∀ {n : Nat} {s : List Char} {r : List Byte × List Char}, readBytes n s = some r →
    ∃ ds, ds.length = n + 1 ∧ (∀ d ∈ ds, IsDigits d) ∧ s = dotted ds ++ r.2 ∧ r.1 = ds.map byteValue
  | 0, s, r, h => by
    obtain ⟨d, rest, rfl, hd, hrest⟩ := exists_run s
    rw [readBytes, strToByte_append hd hrest] at h
    cases h
    exact ⟨[d], rfl, by simpa using hd, by rw [dotted_singleton], rfl⟩
  | n + 1, s, r, h => by
    obtain ⟨d, rest, rfl, hd, hrest⟩ := exists_run s
    rw [readBytes, strToByte_append hd hrest] at h
    cases rest with
    | nil => simp at h
    | cons c rest =>
      dsimp only at h
      split_ifs at h with hc
      subst hc
      obtain ⟨_, hr', rfl⟩ := Option.map_eq_some_iff.1 h
      obtain ⟨ds, hlen, hds, rfl, hbytes⟩ := of_readBytes_eq_some hr'
      refine ⟨d :: ds, by simp [hlen], ?_, ?_, ?_⟩
      · rintro e (_ | ⟨_, he⟩)
        · exact hd
        · exact hds e he
      · rw [dotted_cons d (ne_nil_of_length_pos (by omega)), append_assoc, cons_append]
      · simp [hbytes]

theorem toList_addrOfBytes {l : List Byte} (h : l.length = 4) : (addrOfBytes l).toList = l := by
  match l, h with
  | [_, _, _, _], _ => rfl

theorem toList_inj {y : IPv4Addr} (h : x.toList = y.toList) : x = y := by
  cases x
  cases y
  simpa [IPv4Addr.toList] using h

/-- `CreateFromString` takes any four runs with dots between them, and the lower byte of each number. -/
theorem createFromString_eq_some_iff : createFromString s = some x ↔
    ∃ ds, ds.length = 4 ∧ (∀ d ∈ ds, IsDigits d) ∧ s = dotted ds ∧ ds.map byteValue = x.toList := by
  unfold createFromString
  constructor
  · intro h
    cases hr : readBytes 3 s with
    | none => simp [hr] at h
    | some r =>
      obtain ⟨ds, hlen, hds, hs, hbytes⟩ := of_readBytes_eq_some hr
      rw [hr] at h
      dsimp only at h
      split_ifs at h with hend
      obtain rfl := Option.some.inj h
      refine ⟨ds, hlen, hds, by rw [hs, hend, append_nil], ?_⟩
      rw [toList_addrOfBytes (by simp [hbytes, hlen]), hbytes]
  · rintro ⟨_, hlen, hds, rfl, hx⟩
    have hread := readBytes_dotted stops_nil hlen hds
    rw [append_nil] at hread
    rw [hread]
    dsimp only
    rw [if_pos rfl]
    refine congrArg some (toList_inj ?_)
    rw [toList_addrOfBytes (by simp [hlen]), hx]

theorem toNat_byteValue (h : value d ≤ 255) : (byteValue d).toNat = value d := by
  rw [byteValue, BitVec.toNat_ofNat]
  omega

theorem DottedQuad.createFromString_eq (h : DottedQuad s x) : createFromString s = some x := by
  obtain ⟨ds, rfl, hds, hval⟩ := h
  have hlen : ds.length = 4 := by
    have := congrArg length hval
    simpa [IPv4Addr.toList] using this
  refine createFromString_eq_some_iff.2 ⟨ds, hlen, fun d hd => (hds d hd).2, rfl, ?_⟩
  have hbytes : ds.map byteValue = (ds.map value).map (BitVec.ofNat 8) := by simp [byteValue]
  rw [hbytes, hval, map_map]
  exact map_id'' (fun b => by simp) _

/-- The numbers of a dotted quad are not above 255. -/
theorem DottedQuad.not_malformed (h : DottedQuad s x) : ¬Malformed s := by
  rintro ⟨es, hlen, hes, hs, e, he, hbad⟩
  obtain ⟨ds, rfl, hds, hval⟩ := h
  have hne : ds ≠ [] := by
    rintro rfl
    simp [IPv4Addr.toList] at hval
  obtain rfl := dotted_inj (fun d hd => (hds d hd).2) hes hne (ne_nil_of_length_pos (by omega)) hs
  rcases hbad with rfl | hbig
  · exact (hds _ he).1 rfl
  · have hmem := mem_map_of_mem (f := value) he
    rw [hval] at hmem
    obtain ⟨b, -, hb⟩ := mem_map.1 hmem
    omega

/-! ## Printing and reading back -/

theorem foldl_writeChar (N : Nat) :
    ∀ (cs buf : List Char), buf.length + cs.length ≤ N → cs.foldl (writeChar N) buf = buf ++ cs
  | [], buf, _ => by simp
  | c :: cs, buf, h => by
    simp only [length_cons] at h
    rw [foldl_cons, writeChar, if_neg (by omega), foldl_writeChar N cs _ (by simp; omega)]
    simp

theorem digitChar_eq {n : Nat} (h : n < 10) : Char.ofNat ('0'.toNat + n) = n.digitChar := by
  interval_cases n <;> rfl

theorem lastDigits_eq : ∀ {n v : Nat}, v < 10 ^ n → 0 < n →
    (lastDigits n v).reverse.map (fun d => Char.ofNat ('0'.toNat + d)) = toDigits 10 v
  | 0, _, _, h => absurd h (lt_irrefl 0)
  | n + 1, v, hv, _ => by
    have hmod : Char.ofNat ('0'.toNat + v % 10) = (v % 10).digitChar := digitChar_eq (mod_lt _ (by decide))
    rw [lastDigits]
    split_ifs with h
    · have hlt : v < 10 := by omega
      rw [toDigits_of_lt_base hlt]
      rw [mod_eq_of_lt hlt] at hmod ⊢
      simpa using hmod
    · have hn : 0 < n := by
        rcases Nat.eq_zero_or_pos n with rfl | hn
        · omega
        · exact hn
      have hrest := lastDigits_eq (n := n) (v := v / 10) (by rw [pow_succ] at hv; omega) hn
      have hsplit : toDigits 10 v = toDigits 10 (v / 10) ++ [(v % 10).digitChar] :=
        toDigits_of_base_le (by decide) (by omega)
      rw [reverse_cons, map_append, hrest, hsplit, ← hmod]
      rfl

variable {N : Nat} {buf : List Char}

/-- A number of 64 bits has at most 20 digits. -/
theorem writeDecimal64_eq (v : Word) (h : buf.length + (toDigits 10 v.toNat).length ≤ N) :
    writeDecimal64 N buf v = buf ++ toDigits 10 v.toNat := by
  have hlt : v.toNat < 10 ^ 20 := lt_trans v.isLt (by norm_num)
  rw [writeDecimal64, lastDigits_eq hlt (by decide), foldl_writeChar N _ _ h]

/-- The digits of an octet. -/
def octetText (b : Byte) : List Char := Nat.toDigits 10 b.toNat

theorem isDigits_octetText (b : Byte) :
    IsDigits (octetText b) := fun _ hc => isDigit_of_mem_toDigits (by decide) (by decide) hc

theorem length_octetText_le (b : Byte) : (octetText b).length ≤ 3 := by
  exact (length_toDigits_le_iff (by decide) (by decide)).2 (by omega)

theorem writeDecimal64_octet (b : Byte) (h : buf.length + 3 ≤ N) :
    writeDecimal64 N buf (b.setWidth 64) = buf ++ octetText b := by
  have hb : (b.setWidth 64).toNat = b.toNat := by
    simp only [BitVec.toNat_setWidth]
    omega
  have hlen := length_octetText_le b
  unfold octetText at hlen ⊢
  rw [writeDecimal64_eq _ (by rw [hb]; omega), hb]

theorem writeChar_octet (b : Byte) (h : buf.length + 4 ≤ N) :
    writeChar N (writeDecimal64 N buf (b.setWidth 64)) '.' = buf ++ octetText b ++ ['.'] := by
  have hlen := length_octetText_le b
  rw [writeDecimal64_octet b (by omega), writeChar, if_neg (by rw [length_append]; omega)]

theorem writeString_eq (x : IPv4Addr) (hN : 15 ≤ N) : writeString N x [] = dotted (x.toList.map octetText) := by
  have ha := length_octetText_le x.a
  have hb := length_octetText_le x.b
  have hc := length_octetText_le x.c
  have hrounds : writeString N x [] = writeDecimal64 N (writeChar N (writeDecimal64 N (writeChar N (writeDecimal64 N
      (writeChar N (writeDecimal64 N [] (x.a.setWidth 64)) '.') (x.b.setWidth 64)) '.') (x.c.setWidth 64)) '.')
      (x.d.setWidth 64) := rfl
  rw [hrounds, writeChar_octet x.a (by simp; omega), writeChar_octet x.b (by simp; omega),
    writeChar_octet x.c (by simp; omega), writeDecimal64_octet x.d (by simp; omega)]
  simp [dotted, IPv4Addr.toList, intercalate_cons_cons]

theorem dottedQuad_printed (x : IPv4Addr) : DottedQuad (dotted (x.toList.map octetText)) x := by
  refine ⟨_, rfl, ?_, ?_⟩
  · intro d hd
    obtain ⟨b, -, rfl⟩ := mem_map.1 hd
    exact ⟨ne_nil_of_length_pos length_toDigits_pos, isDigits_octetText b⟩
  · rw [map_map]
    refine map_congr_left fun b _ => ?_
    exact ofDigitChars_toDigits (by decide) (by decide)

theorem nul_notMem_dotted (x : IPv4Addr) : ∀ c ∈ dotted (x.toList.map octetText), (c != '\x00') = true := by
  intro c hc
  have hdigit : ∀ b, ∀ c ∈ octetText b, (c != '\x00') = true := by
    intro b c hc
    rw [bne_iff_ne]
    rintro rfl
    exact absurd (isDigits_octetText b _ hc) (by decide)
  simp only [dotted, IPv4Addr.toList, map_cons, map_nil, intercalate_cons_cons, intercalate_singleton,
    mem_append, mem_singleton] at hc
  rcases hc with (hc | rfl) | (hc | rfl) | (hc | rfl) | hc
  · exact hdigit _ c hc
  · rfl
  · exact hdigit _ c hc
  · rfl
  · exact hdigit _ c hc
  · rfl
  · exact hdigit _ c hc

end

/-- `CreateFromString` is exact for a text unless the text is four runs of digits with dots between them and one run is
empty or above 255. What `WriteString` prints is always read back. -/
theorem createFromString_exact_iff (s : CString '\x00') :
    ((∀ x, createFromString s.text = some x ↔ DottedQuad s.text x) ↔ ¬Malformed s.text) ∧
      ∀ (N : Nat) (x : IPv4Addr), 15 ≤ N → createFromString (getString (writeString N x [])) = some x := by
  refine ⟨⟨?_, ?_⟩, fun N x hN => ?_⟩
  · rintro h hbad
    have hbad' := hbad
    obtain ⟨ds, hlen, hds, hs, -⟩ := hbad'
    have hsome : createFromString s.text = some (addrOfBytes (ds.map byteValue)) :=
      createFromString_eq_some_iff.2 ⟨ds, hlen, hds, hs, (toList_addrOfBytes (by simp [hlen])).symm⟩
    exact ((h _).1 hsome).not_malformed hbad
  · intro hgood x
    refine ⟨fun h => ?_, DottedQuad.createFromString_eq⟩
    obtain ⟨ds, hlen, hds, hs, hx⟩ := createFromString_eq_some_iff.1 h
    have hok : ∀ d ∈ ds, d ≠ [] ∧ value d ≤ 255 := by
      intro d hd
      by_contra hcon
      refine hgood ⟨ds, hlen, hds, hs, d, hd, ?_⟩
      by_cases hnil : d = []
      · exact .inl hnil
      · exact .inr (by simpa [hnil] using hcon)
    refine ⟨ds, hs, fun d hd => ⟨(hok d hd).1, hds d hd⟩, ?_⟩
    rw [← hx, map_map]
    refine map_congr_left fun d hd => ?_
    exact (toNat_byteValue (hok d hd).2).symm
  · rw [writeString_eq x hN, getString, takeWhile_eq_self_iff.2 (nul_notMem_dotted x)]
    exact (dottedQuad_printed x).createFromString_eq

/-- `256.0.0.0` is taken for 0.0.0.0. -/
theorem createFromString_wraps : '\x00' ∉ "256.0.0.0".toList ∧
    createFromString "256.0.0.0".toList = some ⟨0#8, 0#8, 0#8, 0#8⟩ ∧
    ¬DottedQuad "256.0.0.0".toList ⟨0#8, 0#8, 0#8, 0#8⟩ := by
  have hmal : Malformed "256.0.0.0".toList :=
    ⟨["256".toList, "0".toList, "0".toList, "0".toList],
      rfl, by simp [IsDigits], by decide, "256".toList, by simp, .inr (by decide)⟩
  exact ⟨by decide, by decide, fun h => h.not_malformed hmal⟩

end Liumos.Inet
