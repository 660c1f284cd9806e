/-
Splitting a command line into its arguments. The arguments are copied into one buffer, each with a terminator
behind it, and the pointers point into the buffer. The number of arguments is checked before each of them and the
size of the buffer after each character that is stored.
Sources: command_line_args.h, command_line_args_test.cc. `argv_` is kept as offsets into `buf_`. What lies behind
`buf_` goes on at offset 64; the offsets that are written to are logged.
-/
import Liumos.Lib.Words
import Liumos.Machine.CString
import Liumos.Machine.Trace

namespace Liumos.Shell

open Function (update)
open Words List Nat

abbrev Byte := BitVec 8

def kMaxNumOfArgs : Nat := 16
def kBufSize : Nat := 64

/-- The character `' '`. -/
def space : Byte := 0x20#8

def isSpace (c : Byte) : Bool := c == space

structure CommandLineArgs where
  argc : Nat
  argv : Nat → Nat
  buf : Nat → Byte

namespace CommandLineArgs

def getNumOfArgs (args : CommandLineArgs) : Nat := args.argc

/-- `GetArg(index)`, as an offset into `buf_`. -/
def getArg (args : CommandLineArgs) (index : Int) : Option Nat :=
  if index < 0 ∨ args.argc ≤ index then none else some (args.argv index.toNat)

/-- `buf_[i] = c`. -/
def putChar (i : Nat) (c : Byte) : KM (Logged CommandLineArgs Nat) Unit := do
  record [i]
  onState (modify fun args => { args with buf := update args.buf i c })

/-- `while (s[i] && s[i] != ' ')`: what is left of the text and `buf_used`, or nothing when the buffer is full. -/
def copyLoop : List Byte → Nat → KM (Logged CommandLineArgs Nat) (Option (List Byte × Nat))
  | [], bufUsed => return some ([], bufUsed)
  | c :: s, bufUsed => do
    if isSpace c then return some (c :: s, bufUsed)
    else
      putChar bufUsed c
      if kBufSize ≤ bufUsed + 1 then return none
      else copyLoop s (bufUsed + 1)

/-- `argv_[argc_++] = &buf_[buf_used]`. -/
def pushArg (bufUsed : Nat) : KM (Logged CommandLineArgs Nat) Unit :=
  onState (modify fun args => { args with argv := update args.argv args.argc bufUsed, argc := args.argc + 1 })

/-- The rounds of `for (int i = 0;;)`, with `kMaxNumOfArgs - argc_` more arguments at most. -/
def parseLoop : Nat → List Byte → Nat → KM (Logged CommandLineArgs Nat) Bool
  | room, s, bufUsed =>
    match s.dropWhile isSpace with
    | [] => return true
    | c :: s =>
      match room with
      | 0 => return false
      | room + 1 => do
        pushArg bufUsed
        match ← copyLoop (c :: s) bufUsed with
        | none => return false
        | some (s, bufUsed) =>
          putChar bufUsed 0#8
          parseLoop room s (bufUsed + 1)

/-- `Parse(s)`. -/
def parse (s : List Byte) : KM (Logged CommandLineArgs Nat) Bool := do
  onState (modify fun args => { args with argc := 0 })
  parseLoop kMaxNumOfArgs s 0

/-! ## The inner loop -/

/-- A buffer with `w` stored from `i` on. -/
def stored (buf : Nat → Byte) : Nat → List Byte → Nat → Byte
  | _, [] => buf
  | i, c :: w => stored (update buf i c) (i + 1) w

section

variable {buf : Nat → Byte} {w rest : List Byte} {i j : Nat}

theorem stored_of_lt : ∀ w buf i, j < i → stored buf i w j = buf j
  | [], _, _, _ => rfl
  | c :: w, buf, i, h => by
    rw [stored, stored_of_lt w _ (i + 1) (by omega), Function.update_of_ne (by omega)]

theorem stored_of_getElem :
    ∀ (w : List Byte) (buf : Nat → Byte) (i k : Nat) {c : Byte}, w[k]? = some c → stored buf i w (i + k) = c
  | [], _, _, _, _, h => by simp at h
  | d :: w, buf, i, 0, c, h => by
    obtain rfl : d = c := by simpa using h
    show stored (update buf i d) (i + 1) w i = d
    rw [stored_of_lt w _ (i + 1) (lt_succ_self i), Function.update_self]
  | d :: w, buf, i, k + 1, c, h => by
    rw [stored, show i + (k + 1) = i + 1 + k by omega]
    exact stored_of_getElem w _ (i + 1) k (by simpa using h)

/-- A word that has room is copied and its offsets are logged. -/
theorem run_copyLoop_fits : ∀ w rest i args log,
    (∀ c ∈ w, isSpace c = false) → (∀ c ∈ rest.head?, isSpace c = true) → i + w.length < kBufSize →
      (copyLoop (w ++ rest) i).run ⟨args, log⟩ = .ok (some (rest, i + w.length))
        ⟨{ args with buf := stored args.buf i w }, log ++ range' i w.length⟩
  | [], [], i, args, log, _, _, _ => by simp [copyLoop, stored]
  | [], d :: rest, i, args, log, _, hrest, _ => by
    have hd : isSpace d = true := hrest d (by simp)
    simp [copyLoop, stored, hd]
  | c :: w, rest, i, args, log, hw, hrest, hlen => by
    have hc : isSpace c = false := hw c mem_cons_self
    have hroom : ¬kBufSize ≤ i + 1 := by
      simp only [length_cons] at hlen
      omega
    have hput : (putChar i c).run ⟨args, log⟩ = .ok () ⟨{ args with buf := update args.buf i c }, log ++ [i]⟩ := rfl
    have ih := run_copyLoop_fits w rest (i + 1) { args with buf := update args.buf i c } (log ++ [i])
      (fun d hd => hw d (mem_cons_of_mem c hd)) hrest (by simp only [length_cons] at hlen; omega)
    rw [cons_append, copyLoop, if_neg (by simp [hc]), run_bind_eq hput, if_neg hroom, ih]
    simp [stored, range'_succ, add_assoc, add_comm 1]

/-- A word that has no room fills the buffer up, and goes one beyond when the buffer is full before it. -/
theorem run_copyLoop_full :
    ∀ w rest i args log, (∀ c ∈ w, isSpace c = false) → w ≠ [] → i ≤ kBufSize → kBufSize ≤ i + w.length →
      ∃ args' l, (copyLoop (w ++ rest) i).run ⟨args, log⟩ = .ok none ⟨args', log ++ l⟩ ∧
      ((∀ o ∈ l, o < kBufSize) ↔ i ≠ kBufSize)
  | [], _, _, _, _, _, hne, _, _ => absurd rfl hne
  | c :: w, rest, i, args, log, hw, _, hi, hlen => by
    have hc : isSpace c = false := hw c mem_cons_self
    have hput : (putChar i c).run ⟨args, log⟩ = .ok () ⟨{ args with buf := update args.buf i c }, log ++ [i]⟩ := rfl
    rw [cons_append, copyLoop, if_neg (by simp [hc]), run_bind_eq hput]
    split_ifs with hfull
    · refine ⟨_, [i], rfl, ?_⟩
      simp only [mem_singleton, forall_eq]
      omega
    · have hne : w ≠ [] := by
        rintro rfl
        simp only [length_cons, length_nil] at hlen
        omega
      obtain ⟨args', l, hrun, hl⟩ := run_copyLoop_full w rest (i + 1) { args with buf := update args.buf i c }
        (log ++ [i]) (fun d hd => hw d (mem_cons_of_mem c hd)) hne (by omega)
        (by simp only [length_cons] at hlen; omega)
      refine ⟨args', i :: l, ?_, ?_⟩
      · rw [hrun, append_assoc]
        rfl
      · have : ∀ o ∈ l, o < kBufSize := hl.2 (by omega)
        constructor
        · rintro - rfl
          omega
        · rintro - o (_ | ⟨_, ho⟩)
          · omega
          · exact this o ho

end

/-! ## The outer loop -/

/-- The arguments from number `k` on are the words, stored one after the other from offset `i` on. -/
def Holds (args : CommandLineArgs) : Nat → Nat → List (List Byte) → Prop
  | k, _, [] => args.argc = k
  | k, i, w :: ws => args.argv k = i ∧ CStringAt 0#8 args.buf i w ∧ args.Holds (k + 1) (i + w.length + 1) ws

/-- The words have room from offset `i` on, as the loop checks it. -/
def fits : Nat → Nat → List (List Byte) → Bool
  | _, _, [] => true
  | 0, _, _ :: _ => false
  | room + 1, i, w :: ws => decide (i + w.length < kBufSize) && fits room (i + w.length + 1) ws

/-- A word begins when the buffer is full to the last byte. -/
def Overruns : Nat → Nat → List (List Byte) → Prop
  | _, _, [] => False
  | 0, _, _ :: _ => False
  | room + 1, i, w :: ws => i = kBufSize ∨ i + w.length < kBufSize ∧ Overruns room (i + w.length + 1) ws

/-- What the loop has done when it returns `true`: the words are stored behind what was there. -/
structure Parsed (args args' : CommandLineArgs) (i : Nat) (ws : List (List Byte)) : Prop where
  holds : args'.Holds args.argc i ws
  argv : ∀ j < args.argc, args'.argv j = args.argv j
  buf : ∀ j < i, args'.buf j = args.buf j

section

variable {args args' : CommandLineArgs} {w : List Byte} {ws : List (List Byte)} {i : Nat}

/-- The round of one word, and the rounds after it. -/
theorem Parsed.cons (hw : 0#8 ∉ w) (h : Parsed { args with
      argv := update args.argv args.argc i
      argc := args.argc + 1
      buf := update (stored args.buf i w) (i + w.length) 0#8 } args' (i + w.length + 1) ws) :
    Parsed args args' i (w :: ws) where
  holds := by
    refine ⟨?_, ⟨hw, fun j c hc => ?_, ?_⟩, h.holds⟩
    · rw [h.argv args.argc (lt_succ_self _)]
      exact Function.update_self ..
    · have hj : j < w.length := (List.getElem?_eq_some_iff.1 hc).1
      rw [h.buf _ (by omega)]
      show update (stored args.buf i w) (i + w.length) 0#8 (i + j) = c
      rw [Function.update_of_ne (by omega)]
      exact stored_of_getElem w args.buf i j hc
    · rw [h.buf _ (lt_succ_self _)]
      exact Function.update_self ..
  argv := by
    intro j hj
    rw [h.argv j (lt_succ_of_lt hj)]
    exact Function.update_of_ne (by omega) _ _
  buf := by
    intro j hj
    rw [h.buf j (by omega)]
    show update (stored args.buf i w) (i + w.length) 0#8 j = args.buf j
    rw [Function.update_of_ne (by omega), stored_of_lt w args.buf i hj]

theorem run_parseLoop : ∀ room s i args log, i ≤ kBufSize → 0#8 ∉ s →
    ∃ args' l, (parseLoop room s i).run ⟨args, log⟩ = .ok (fits room i (words isSpace s)) ⟨args', log ++ l⟩ ∧
      (fits room i (words isSpace s) = true → Parsed args args' i (words isSpace s)) ∧
      ((∀ o ∈ l, o < kBufSize) ↔ ¬Overruns room i (words isSpace s)) := by
  intro room s i args log hi hnul
  induction room generalizing s i args log with
  | zero =>
    rw [parseLoop]
    rcases dropWhile_cases isSpace s with ⟨hs, hws⟩ | ⟨w, rest, hs, hws, hne, -⟩
    · rw [hs, hws]
      exact ⟨args, [], by simp [fits], fun _ => ⟨rfl, fun _ _ => rfl, fun _ _ => rfl⟩, by simp [Overruns]⟩
    · obtain ⟨c, w, rfl⟩ := exists_cons_of_ne_nil hne
      rw [hs, hws]
      exact ⟨args, [], by simp [fits], by simp [fits], by simp [Overruns]⟩
  | succ room ih =>
    rw [parseLoop]
    rcases dropWhile_cases isSpace s with ⟨hs, hws⟩ | ⟨w, rest, hs, hws, hne, hw, hrest⟩
    · rw [hs, hws]
      exact ⟨args, [], by simp [fits], fun _ => ⟨rfl, fun _ _ => rfl, fun _ _ => rfl⟩, by simp [Overruns]⟩
    · obtain ⟨_, _, hct⟩ := exists_cons_of_ne_nil (append_ne_nil_of_left_ne_nil hne rest)
      have hsub : ∀ x ∈ w ++ rest, x ∈ s := fun x hx => dropWhile_subset _ (hs ▸ hx)
      have hpush : (pushArg i).run ⟨args, log⟩ = .ok () ⟨{ args with
        argv := update args.argv args.argc i, argc := args.argc + 1 }, log⟩ := rfl
      rw [hs, hws, hct]
      dsimp only
      rw [run_bind_eq hpush, ← hct]
      by_cases hroom : i + w.length < kBufSize
      · -- the word and its terminator are stored, and the loop goes on behind them
        rw [run_bind_eq (run_copyLoop_fits w rest i _ log hw hrest hroom)]
        dsimp only
        obtain ⟨args', l, hrun, hparsed, hlog⟩ := ih rest (i + w.length + 1) { args with
          argv := update args.argv args.argc i
          argc := args.argc + 1
          buf := update (stored args.buf i w) (i + w.length) 0#8 } (log ++ range' i w.length ++ [i + w.length])
          hroom fun h => hnul (hsub _ (mem_append_right w h))
        have hput : (putChar (i + w.length) 0#8).run ⟨{ args with
            argv := update args.argv args.argc i
            argc := args.argc + 1
            buf := stored args.buf i w }, log ++ range' i w.length⟩ = .ok () ⟨{ args with
            argv := update args.argv args.argc i
            argc := args.argc + 1
            buf := update (stored args.buf i w) (i + w.length) 0#8 }, log ++ range' i w.length ++ [i + w.length]⟩ := rfl
        refine ⟨args', range' i w.length ++ [i + w.length] ++ l, ?_, ?_, ?_⟩
        · rw [run_bind_eq hput, hrun]
          simp [fits, hroom]
        · intro hfits
          refine (hparsed ?_).cons fun h => hnul (hsub _ (mem_append_left rest h))
          simpa [fits, hroom] using hfits
        · have hne' : i ≠ kBufSize := by omega
          simp only [Overruns, hne', hroom, false_or, true_and, ← hlog, mem_append, mem_range'_1, mem_singleton]
          constructor
          · intro h o ho
            exact h o (.inr ho)
          · rintro h o ((ho | ho) | ho)
            · omega
            · omega
            · exact h o ho
      · obtain ⟨args', l, hrun, hlog⟩ := run_copyLoop_full w rest i { args with
          argv := update args.argv args.argc i, argc := args.argc + 1 } log hw hne hi (by omega)
        refine ⟨args', l, ?_, ?_, ?_⟩
        · rw [run_bind_eq hrun]
          simp [fits, hroom]
        · simp [fits, hroom]
        · simp [Overruns, hroom, hlog]

/-! ## `Parse` -/

/-- The bytes of the words, with one terminator each. -/
def bufNeeded (ws : List (List Byte)) : Nat := (ws.map fun w => w.length + 1).sum

theorem fits_iff : ∀ ws room i, i ≤ kBufSize → (fits room i ws = true ↔ ws.length ≤ room ∧ i + bufNeeded ws ≤ kBufSize)
  | [], room, i, hi => by simp [fits, bufNeeded, hi]
  | w :: ws, 0, i, _ => by simp [fits]
  | w :: ws, room + 1, i, _ => by
    simp only [fits, bufNeeded, Bool.and_eq_true, decide_eq_true_eq, map_cons, sum_cons, length_cons]
    constructor
    · rintro ⟨hroom, hrest⟩
      obtain ⟨hlen, hsum⟩ := (fits_iff ws room _ hroom).1 hrest
      unfold bufNeeded at hsum
      omega
    · rintro ⟨hlen, hsum⟩
      have hroom : i + w.length < kBufSize := by omega
      refine ⟨hroom, (fits_iff ws room _ hroom).2 ⟨by omega, ?_⟩⟩
      unfold bufNeeded
      omega

theorem overruns_iff : ∀ ws room i, i ≤ kBufSize →
    (Overruns room i ws ↔ ∃ j < ws.length, j < room ∧ i + bufNeeded (ws.take j) = kBufSize)
  | [], room, i, _ => by simp [Overruns]
  | w :: ws, 0, i, _ => by simp [Overruns]
  | w :: ws, room + 1, i, hi => by
    rw [Overruns]
    constructor
    · rintro (hfull | ⟨hroom, hrest⟩)
      · exact ⟨0, by simp, by omega, by simpa [bufNeeded] using hfull⟩
      · obtain ⟨j, hj, hjr, hsum⟩ := (overruns_iff ws room _ hroom).1 hrest
        refine ⟨j + 1, by simpa using hj, by omega, ?_⟩
        simp only [bufNeeded, take_succ_cons, map_cons, sum_cons] at hsum ⊢
        omega
    · rintro ⟨j, hj, hjr, hsum⟩
      cases j with
      | zero => exact .inl (by simpa [bufNeeded] using hsum)
      | succ j =>
        simp only [bufNeeded, take_succ_cons, map_cons, sum_cons] at hsum
        have hroom : i + w.length < kBufSize := by omega
        refine .inr ⟨hroom, (overruns_iff ws room _ hroom).2 ⟨j, by simpa using hj, by omega, ?_⟩⟩
        unfold bufNeeded
        omega

theorem Holds.argc_eq : ∀ {ws : List (List Byte)} {k i : Nat}, args.Holds k i ws → args.argc = k + ws.length
  | [], _, _, h => h
  | w :: ws, k, i, h => by
    rw [h.2.2.argc_eq, length_cons]
    omega

theorem Holds.get :
    ∀ {ws : List (List Byte)} {k i : Nat}, args.Holds k i ws → ∀ {j : Nat} {w : List Byte}, ws[j]? = some w →
    CStringAt 0#8 args.buf (args.argv (k + j)) w
  | [], _, _, _, _, _, hw => by simp at hw
  | v :: ws, k, i, h, 0, w, hw => by
    obtain rfl : v = w := by simpa using hw
    show CStringAt 0#8 args.buf (args.argv k) v
    rw [h.1]
    exact h.2.1
  | v :: ws, k, i, h, j + 1, w, hw => by
    have := h.2.2.get (by simpa using hw : ws[j]? = some w)
    rwa [show k + 1 + j = k + (j + 1) by omega] at this

/-- `Parse` as a whole. -/
theorem run_parse (s : CString (0#8 : Byte)) (args : CommandLineArgs) : ∃ args' l,
    (parse s.text).run ⟨args, []⟩ = .ok (fits kMaxNumOfArgs 0 (words isSpace s.text)) ⟨args', l⟩ ∧
      (fits kMaxNumOfArgs 0 (words isSpace s.text) = true → args'.Holds 0 0 (words isSpace s.text)) ∧
      ((∀ o ∈ l, o < kBufSize) ↔ ¬Overruns kMaxNumOfArgs 0 (words isSpace s.text)) := by
  obtain ⟨args', l, hrun, hparsed, hlog⟩ := run_parseLoop kMaxNumOfArgs s.text 0 { args with argc := 0 } []
    (zero_le _) s.nul_notMem
  exact ⟨args', l, hrun, fun h => (hparsed h).holds, hlog⟩

end

/-- When `Parse` returns `true`, the arguments are the runs of characters other than spaces, in order and as C strings.
It does return `true` when there are at most 16 of them and they have room, with their terminators, in 64 bytes. -/
theorem parse_exact (s : CString (0#8 : Byte)) (args : CommandLineArgs) :
    (∀ args' l, (parse s.text).run ⟨args, []⟩ = .ok true ⟨args', l⟩ →
      args'.getNumOfArgs = (words isSpace s.text).length ∧
      ∀ (i : Nat) (w : List Byte), (words isSpace s.text)[i]? = some w →
        ∃ p, args'.getArg i = some p ∧ CStringAt 0#8 args'.buf p w) ∧
    ((words isSpace s.text).length ≤ kMaxNumOfArgs ∧ bufNeeded (words isSpace s.text) ≤ kBufSize →
      ∃ args' l, (parse s.text).run ⟨args, []⟩ = .ok true ⟨args', l⟩) := by
  obtain ⟨args1, l1, hrun, hholds, -⟩ := run_parse s args
  constructor
  · intro args' l htrue
    rw [hrun] at htrue
    obtain ⟨hfits, hstate⟩ := EStateM.Result.ok.inj htrue
    obtain ⟨rfl, -⟩ := Logged.mk.inj hstate
    have h := hholds hfits
    have hargc := h.argc_eq
    refine ⟨by simpa [getNumOfArgs] using hargc, fun i w hw => ⟨args1.argv i, ?_, ?_⟩⟩
    · have hi : i < (words isSpace s.text).length := (List.getElem?_eq_some_iff.1 hw).1
      rw [getArg, if_neg (by omega)]
      rfl
    · simpa using h.get hw
  · rintro ⟨hlen, hsum⟩
    have hfits := (fits_iff (words isSpace s.text) kMaxNumOfArgs 0 (zero_le _)).2 ⟨hlen, by omega⟩
    rw [hfits] at hrun
    exact ⟨args1, l1, hrun⟩

/-- All stores of `Parse` are inside the buffer unless the first words fill it to the last byte, another word comes
after them, and there may be one more argument. -/
theorem parse_writes_inside_iff (s : CString (0#8 : Byte)) (args : CommandLineArgs) : ∃ result args' l,
    (parse s.text).run ⟨args, []⟩ = .ok result ⟨args', l⟩ ∧
      ((∀ o ∈ l, o < kBufSize) ↔ ¬∃ j < (words isSpace s.text).length, j < kMaxNumOfArgs ∧
        bufNeeded ((words isSpace s.text).take j) = kBufSize) := by
  obtain ⟨args', l, hrun, -, hlog⟩ := run_parse s args
  refine ⟨_, args', l, hrun, ?_⟩
  rw [hlog, overruns_iff _ _ 0 (zero_le _)]
  simp only [zero_add]

/-- A word of 63 characters and another word. -/
def fullLine : CString (0#8 : Byte) := ⟨List.replicate 63 0x61#8 ++ [space, 0x61#8], by decide⟩

/-- The second word is stored behind the buffer before `Parse` returns `false`. -/
theorem parse_writes_behind :
    ∃ args' l, (parse fullLine.text).run ⟨⟨0, fun _ => 0, fun _ => 0#8⟩, []⟩ = .ok false ⟨args', l⟩ ∧
    64 ∈ l ∧ ¬∀ o ∈ l, o < kBufSize := by
  have hlog : 64 ∈ (final ((parse fullLine.text).run ⟨⟨0, fun _ => 0, fun _ => 0#8⟩, []⟩)).log := by decide +kernel
  obtain ⟨args', l, hrun, -, -⟩ := run_parse fullLine ⟨0, fun _ => 0, fun _ => 0#8⟩
  have hfits : fits kMaxNumOfArgs 0 (words isSpace fullLine.text) = false := by decide +kernel
  rw [hfits] at hrun
  rw [hrun] at hlog
  exact ⟨args', l, hrun, hlog, fun h => absurd (h 64 hlog) (by decide)⟩

end CommandLineArgs

end Liumos.Shell
