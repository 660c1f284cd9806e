/-
Reading files: what a process reads after it opened a file is a prefix of the file, whatever the other processes
do in between.
Source: syscall.cc.
-/
import Liumos.Syscall.Handler

namespace Liumos.Syscall

open List Function

/-! ## Runs of calls -/

/-- `open(name)`, or `read(6, buf, count)`. -/
inductive FileCall where
  | openFile (name : String)
  | readFile (count : Word)
  deriving DecidableEq, Repr

/-- The call of a process. No call on a file waits for anything. -/
def FileCall.exec (info : LoaderInfo) (pid : Word) : FileCall → KM SyscallState Reply
  | .openFile name => sysOpen info pid name
  | .readFile count => sysRead info (fun _ s => s) 0 pid 6 count

/-- A call that was made, and its reply. -/
structure Event where
  pid : Word
  call : FileCall
  reply : Reply
  deriving DecidableEq, Repr

/-- The calls one after the other. -/
def runCalls (info : LoaderInfo) : List (Word × FileCall) → KM SyscallState (List Event)
  | [] => pure []
  | (pid, call) :: calls => do
    let reply ← call.exec info pid
    return ⟨pid, call, reply⟩ :: (← runCalls info calls)

/-! ## One call -/

section

variable {info : LoaderInfo} {pid : Word}

/-- The effect of a call on the data of its process, and its reply. -/
def FileCall.effect (info : LoaderInfo) (data : PerProcessSyscallData) : FileCall → Reply × PerProcessSyscallData
  | .openFile name =>
    if name = "." then (⟨5#64, []⟩, { data with numGetdents64Called := 0 })
    else if name = "window.bmp" then (⟨7#64, []⟩, data)
    else match info.findFile name with
      | none => (⟨-1#64, []⟩, data)
      | some i => (⟨6#64, []⟩, { data with idxInRootFiles := i, readOffset := 0#64 })
  | .readFile count =>
    let file := info.rootFiles data.idxInRootFiles
    let size := stdMin (file.fileSize - data.readOffset) count
    (⟨size, (file.contents.drop data.readOffset.toNat).take size.toNat⟩,
      { data with readOffset := data.readOffset + size })

/-- The offset is inside the file that the process reads. -/
def InFile (info : LoaderInfo) (data : PerProcessSyscallData) : Prop :=
  data.readOffset.toNat ≤ (info.rootFiles data.idxInRootFiles).fileSize.toNat

theorem toNat_stdMin (a b : Word) : (stdMin a b).toNat = min a.toNat b.toNat := by
  unfold stdMin
  split <;> omega

variable {data : PerProcessSyscallData} {f : EFIFile}

/-- How much of a file is left. -/
theorem toNat_left (h : InFile info data) : ((info.rootFiles data.idxInRootFiles).fileSize - data.readOffset).toNat =
      (info.rootFiles data.idxInRootFiles).fileSize.toNat - data.readOffset.toNat := BitVec.toNat_sub_of_le h

@[simp] theorem length_contents (f : EFIFile) : f.contents.length = f.fileSize.toNat := by simp [EFIFile.contents]

/-- The bytes of a file from an offset on, as `memcpy` reads them. -/
theorem take_drop_contents {off n : Nat} (h : off + n ≤ f.fileSize.toNat) :
    (f.contents.drop off).take n = (range n).map fun i => f.buf (off + i) := by
  apply ext_getElem
  · simp
    omega
  · intro i h1 h2
    simp [EFIFile.contents]

/-- A call changes the data of its process only, and its reply depends on nothing else. -/
theorem run_exec (call : FileCall) {s : SyscallState} (h : InFile info (s.perProcess pid)) :
    (call.exec info pid).run s = .ok (call.effect info (s.perProcess pid)).1
      (s.setData pid (call.effect info (s.perProcess pid)).2) := by
  have hsame : s.setData pid (s.perProcess pid) = s := by simp [SyscallState.setData]
  cases call with
  | openFile name =>
    rw [FileCall.exec, sysOpen, run_get_bind, FileCall.effect]
    split_ifs
    · rfl
    · rw [hsame]
      rfl
    · cases info.findFile name with
      | none => exact congrArg _ hsame.symm
      | some i => rfl
  | readFile count =>
    have hsize := toNat_stdMin ((info.rootFiles (s.perProcess pid).idxInRootFiles).fileSize -
      (s.perProcess pid).readOffset) count
    rw [toNat_left h] at hsize
    rw [FileCall.exec, sysRead, if_neg (by decide), if_pos rfl, run_get_bind, FileCall.effect]
    dsimp only
    rw [run_bind_eq (run_assert_true (decide_eq_true (show _ ≤ _ from h)) _ _)]
    generalize hcopy : stdMin ((info.rootFiles (s.perProcess pid).idxInRootFiles).fileSize -
      (s.perProcess pid).readOffset) count = size
    rw [hcopy] at hsize
    have hle : (s.perProcess pid).readOffset.toNat + size.toNat ≤
        (info.rootFiles (s.perProcess pid).idxInRootFiles).fileSize.toNat := by
      have : (s.perProcess pid).readOffset.toNat ≤ (info.rootFiles (s.perProcess pid).idxInRootFiles).fileSize.toNat :=
        h
      omega
    split_ifs with hzero
    · subst hzero
      simp only [BitVec.add_zero, BitVec.toNat_zero, take_zero]
      exact congrArg _ hsame.symm
    · rw [take_drop_contents hle]
      rfl

theorem inFile_effect (call : FileCall) (h : InFile info data) : InFile info (call.effect info data).2 := by
  cases call with
  | openFile name =>
    rw [FileCall.effect]
    split_ifs
    · exact h
    · exact h
    · cases info.findFile name with
      | none => exact h
      | some i => exact Nat.zero_le _
  | readFile count =>
    have hsize := toNat_stdMin ((info.rootFiles data.idxInRootFiles).fileSize - data.readOffset) count
    have hleft := toNat_left h
    have h' : data.readOffset.toNat ≤ (info.rootFiles data.idxInRootFiles).fileSize.toNat := h
    show (data.readOffset + stdMin _ count).toNat ≤ (info.rootFiles data.idxInRootFiles).fileSize.toNat
    rw [BitVec.toNat_add, Nat.mod_eq_of_lt (by omega)]
    omega

/-! ## One process on its own -/

/-- The replies to the calls of a process, and its data after them. -/
def solo (info : LoaderInfo) (pid : Word) : PerProcessSyscallData → List FileCall → List Event × PerProcessSyscallData
  | data, [] => ([], data)
  | data, call :: calls =>
    let rest := solo info pid (call.effect info data).2 calls
    (⟨pid, call, (call.effect info data).1⟩ :: rest.1, rest.2)

/-- The calls of one process. -/
def callsOf (pid : Word) (calls : List (Word × FileCall)) : List FileCall :=
  (calls.filter fun c => c.1 == pid).map Prod.snd

def eventsOf (pid : Word) (history : List Event) : List Event := history.filter fun e => e.pid == pid

/-- In every run each process sees what it would see on its own. -/
theorem run_runCalls : ∀ (calls : List (Word × FileCall)) {s : SyscallState}, (∀ p, InFile info (s.perProcess p)) →
    ∃ history s', (runCalls info calls).run s = .ok history s' ∧ history.map (fun e => (e.pid, e.call)) = calls ∧
      ∀ p, eventsOf p history = (solo info p (s.perProcess p) (callsOf p calls)).1 ∧
        s'.perProcess p = (solo info p (s.perProcess p) (callsOf p calls)).2
  | [], s, _ => ⟨[], s, rfl, rfl, fun p => ⟨rfl, rfl⟩⟩
  | (pid, call) :: calls, s, hs => by
    have hs' : ∀ p, InFile info ((s.setData pid (call.effect info (s.perProcess pid)).2).perProcess p) := by
      intro p
      rw [SyscallState.perProcess_setData]
      rcases eq_or_ne p pid with rfl | hp
      · rw [update_self]
        exact inFile_effect call (hs p)
      · rw [update_of_ne hp]
        exact hs p
    obtain ⟨history, s', hrun, hmap, hall⟩ := run_runCalls calls hs'
    refine ⟨⟨pid, call, (call.effect info (s.perProcess pid)).1⟩ :: history, s', ?_, by simp [hmap], fun p => ?_⟩
    · rw [runCalls, run_bind_eq (run_exec call (hs pid)), run_bind_eq hrun]
      rfl
    · obtain ⟨hev, hdata⟩ := hall p
      rcases eq_or_ne pid p with rfl | hp
      · simp [eventsOf, callsOf, solo] at hev hdata ⊢
        exact ⟨hev, hdata⟩
      · rw [SyscallState.perProcess_setData, update_of_ne hp.symm] at hev hdata
        simp [eventsOf, callsOf, hp] at hev hdata ⊢
        exact ⟨hev, hdata⟩

/-- A process on its own is a run as well. -/
theorem run_runCalls_solo (pid : Word) : ∀ (calls : List FileCall) {s : SyscallState}, InFile info (s.perProcess pid) →
    ∃ s', (runCalls info (calls.map fun call => (pid, call))).run s = .ok (solo info pid (s.perProcess pid) calls).1 s'
  | [], s, _ => ⟨s, rfl⟩
  | call :: calls, s, hs => by
    have hdata : (s.setData pid (call.effect info (s.perProcess pid)).2).perProcess pid =
      (call.effect info (s.perProcess pid)).2 := by
      rw [SyscallState.perProcess_setData, update_self]
    obtain ⟨s', hrun⟩ := run_runCalls_solo pid calls (s := s.setData pid (call.effect info (s.perProcess pid)).2)
      (by rw [hdata]; exact inFile_effect call hs)
    rw [hdata] at hrun
    refine ⟨s', ?_⟩
    rw [map_cons, runCalls, run_bind_eq (run_exec call hs), run_bind_eq hrun]
    rfl

/-! ## Streams -/

/-- The file that a process opened last, and its reads since then. -/
def track (info : LoaderInfo) (st : Option (EFIFile × List Event)) (e : Event) : Option (EFIFile × List Event) :=
  match e.call with
  | .openFile name => if e.reply.ret = 6#64 then (info.findFile name).map fun i => (info.rootFiles i, []) else st
  | .readFile _ => st.map fun st => (st.1, st.2 ++ [e])

def sinceOpen (info : LoaderInfo) (pid : Word) (history : List Event) : Option (EFIFile × List Event) :=
  (eventsOf pid history).foldl (track info) none

/-- The number of bytes that a call asked for. -/
def Event.count (e : Event) : Nat :=
  match e.call with
  | .openFile _ => 0
  | .readFile count => count.toNat

/-- The bytes of some reads. -/
def bytesRead (reads : List Event) : List Byte := reads.flatMap fun e => e.reply.bytes

def totalCount (reads : List Event) : Nat := (reads.map Event.count).sum

/-- Reads that give a prefix of a file, and nothing only if nothing was asked for or nothing was left. -/
structure PrefixStream (f : EFIFile) (reads : List Event) : Prop where
  bytes : bytesRead reads = f.contents.take (min f.fileSize.toNat (totalCount reads))
  ret : ∀ e ∈ reads, e.reply.ret.toNat = e.reply.bytes.length
  empty : ∀ i (h : i < reads.length), reads[i].reply.ret = 0#64 → reads[i].count = 0 ∨
    bytesRead (reads.take i) = f.contents

/-- The data of a process, and what it opened and read. -/
structure Follows (info : LoaderInfo) (data : PerProcessSyscallData) (st : Option (EFIFile × List Event)) : Prop where
  inFile : InFile info data
  stream : ∀ f reads, st = some (f, reads) → info.rootFiles data.idxInRootFiles = f ∧
    data.readOffset.toNat = min f.fileSize.toNat (totalCount reads) ∧ PrefixStream f reads

/-- One more read of a process whose offset is where the stream ends. -/
theorem PrefixStream.snoc {reads : List Event} (h : PrefixStream f reads) {off size count : Word}
    (hoff : off.toNat = min f.fileSize.toNat (totalCount reads))
    (hsize : size.toNat = min (f.fileSize.toNat - off.toNat) count.toNat) :
    PrefixStream f (reads ++ [⟨pid, .readFile count, ⟨size, (f.contents.drop off.toNat).take size.toNat⟩⟩]) := by
  have htotal : totalCount (reads ++ [⟨pid, .readFile count, ⟨size, (f.contents.drop off.toNat).take size.toNat⟩⟩]) =
      totalCount reads + count.toNat := by
    simp [totalCount, Event.count]
  refine ⟨?_, ?_, ?_⟩
  · rw [htotal, show min f.fileSize.toNat (totalCount reads + count.toNat) = off.toNat +
      size.toNat by omega, take_add, bytesRead, flatMap_append, ← bytesRead, h.bytes, ← hoff]
    simp
  · intro e he
    rcases mem_append.1 he with he | he
    · exact h.ret e he
    · obtain rfl := mem_singleton.1 he
      simp
      omega
  · intro i hi hret
    rcases Nat.lt_or_ge i reads.length with hlt | hge
    · rw [getElem_append_left hlt] at hret ⊢
      rw [take_append_of_le_length hlt.le]
      exact h.empty i hlt hret
    · obtain rfl : i = reads.length := by simp at hi; omega
      rw [getElem_concat_length rfl] at hret ⊢
      rw [take_left]
      have hzero : size.toNat = 0 := by rw [show size = 0#64 from hret]; rfl
      rcases Nat.eq_zero_or_pos count.toNat with hcount | hcount
      · exact Or.inl hcount
      · refine Or.inr ?_
        rw [h.bytes, ← hoff, take_of_length_le]
        rw [length_contents]
        omega

/-- Each call keeps the data and the stream together. -/
theorem Follows.step {st : Option (EFIFile × List Event)} (h : Follows info data st) (pid : Word) (call : FileCall) :
    Follows info (call.effect info data).2 (track info st ⟨pid, call, (call.effect info data).1⟩) := by
  refine ⟨inFile_effect call h.inFile, ?_⟩
  cases call with
  | openFile name =>
    rw [FileCall.effect]
    split_ifs
    · exact h.stream
    · exact h.stream
    · cases hfind : info.findFile name with
      | none => exact h.stream
      | some i =>
        intro f reads hst
        replace hst : (info.findFile name).map (fun i => (info.rootFiles i, ([] : List Event))) = some (f, reads) := hst
        rw [hfind] at hst
        cases hst
        exact ⟨rfl, by simp [totalCount], by simp [bytesRead, totalCount], by simp, by simp⟩
  | readFile count =>
    intro f reads hst
    obtain ⟨⟨f', reads'⟩, hst', heq⟩ := Option.map_eq_some_iff.1 hst
    cases heq
    obtain ⟨rfl, hoff, hstream⟩ := h.stream f' reads' hst'
    have hsize := toNat_stdMin ((info.rootFiles data.idxInRootFiles).fileSize - data.readOffset) count
    rw [toNat_left h.inFile] at hsize
    refine ⟨rfl, ?_, hstream.snoc hoff hsize⟩
    show (data.readOffset + stdMin _ count).toNat = _
    rw [BitVec.toNat_add, Nat.mod_eq_of_lt (by omega), totalCount, map_append, sum_append, ← totalCount]
    simp only [map_cons, map_nil, sum_cons, sum_nil, Event.count]
    omega

theorem Follows.solo (pid : Word) :
    ∀ (calls : List FileCall) {data : PerProcessSyscallData} {st : Option (EFIFile × List Event)},
    Follows info data st → Follows info (solo info pid data calls).2
      ((solo info pid data calls).1.foldl (track info) st)
  | [], _, _, h => h
  | call :: calls, _, _, h => Follows.solo pid calls (h.step pid call)

/-- In every run of calls by any number of processes no assert fails, what a process has read since it opened a file is
a prefix of the file of the length that it asked for, and every process sees what it would see on its own. -/
theorem reads_prefixStream (info : LoaderInfo) (calls : List (Word × FileCall)) :
    ∃ history s', (runCalls info calls).run .initial = .ok history s' ∧ history.map (fun e => (e.pid, e.call)) = calls ∧
      ∀ pid, InFile info (s'.perProcess pid) ∧
        (∀ f reads, sinceOpen info pid history = some (f, reads) → PrefixStream f reads) ∧
        ∃ s'', (runCalls info ((callsOf pid calls).map fun call => (pid, call))).run .initial =
          .ok (eventsOf pid history) s'' := by
  obtain ⟨history, s', hrun, hmap, hall⟩ := run_runCalls calls (s := .initial) fun _ => Nat.zero_le _
  refine ⟨history, s', hrun, hmap, fun pid => ?_⟩
  obtain ⟨hev, hdata⟩ := hall pid
  have hfollows : Follows info (SyscallState.initial.perProcess pid) none := ⟨Nat.zero_le _, by simp⟩
  have hend := hfollows.solo pid (callsOf pid calls)
  refine ⟨?_, ?_, ?_⟩
  · rw [hdata]
    exact hend.inFile
  · intro f reads hst
    rw [sinceOpen, hev] at hst
    exact (hend.stream f reads hst).2.2
  · rw [hev]
    exact run_runCalls_solo pid (callsOf pid calls) (Nat.zero_le _)

end

/-- Two processes that read the same file in turn. -/
example : (runCalls ⟨fun _ => ⟨"a", 3#64, fun i => BitVec.ofNat 8 (65 + i)⟩, 1⟩
    [(1#64, .openFile "a"), (2#64, .openFile "a"), (1#64, .readFile 2#64), (2#64, .readFile 1#64),
      (1#64, .readFile 9#64)]).run' .initial = some
      [⟨1#64, .openFile "a", ⟨6#64, []⟩⟩, ⟨2#64, .openFile "a", ⟨6#64, []⟩⟩,
        ⟨1#64, .readFile 2#64, ⟨2#64, [65#8, 66#8]⟩⟩, ⟨2#64, .readFile 1#64, ⟨1#64, [65#8]⟩⟩,
        ⟨1#64, .readFile 9#64, ⟨1#64, [67#8]⟩⟩] := by
  decide

end Liumos.Syscall
