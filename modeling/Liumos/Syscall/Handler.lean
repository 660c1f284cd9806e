/-
The system calls on files and on the window of a process, and the data that the kernel keeps for each process
between them.
Sources: syscall.cc (`SyscallHandler`, `sys_read`), loader_info.h, efi_file.h. A call returns what it
leaves in `args[0]` and the bytes that it copies to the process. The texts printed to the console are left out.
-/
import Liumos.Machine.Basic
import Liumos.Machine.RingBuffer

namespace Liumos.Syscall

abbrev Byte := BitVec 8

/-! ## Data -/

structure EFIFile where
  fileName : String
  fileSize : Word
  buf : Nat → Byte

/-- The bytes of a file. -/
def EFIFile.contents (f : EFIFile) : List Byte := (List.range f.fileSize.toNat).map f.buf

/-- `LoaderInfo`: the entries of `root_files` from `root_files_used` on are not set. -/
structure LoaderInfo where
  rootFiles : Nat → EFIFile
  rootFilesUsed : Nat

/-- The sheet of a window as `Init` set it up, and the pages that were allocated for its buffer. -/
structure Window where
  xsize : Int
  ysize : Int
  pages : Word
  deriving DecidableEq, Repr

/-- `PerProcessSyscallData`. The window is `none` as long as `window_sheet` is null. -/
structure PerProcessSyscallData where
  window : Option Window
  numGetdents64Called : Nat
  idxInRootFiles : Nat
  readOffset : Word
  deriving DecidableEq, Repr

/-- `PerProcessSyscallData{}`, which `per_process_syscall_data[pid]` makes for a process that has none. -/
def PerProcessSyscallData.zero : PerProcessSyscallData := ⟨none, 0, 0, 0#64⟩

structure SyscallState where
  perProcess : Word → PerProcessSyscallData
  stdin : Word → RingBuffer Byte 16

/-- The kernel before any call. -/
def SyscallState.initial : SyscallState := ⟨fun _ => .zero, fun _ => ⟨fun _ => 0#8, 0, 0⟩⟩

/-- `per_process_syscall_data[pid] = data`. -/
def SyscallState.setData (s : SyscallState) (pid : Word) (data : PerProcessSyscallData) : SyscallState :=
  { s with perProcess := Function.update s.perProcess pid data }

@[simp] theorem SyscallState.perProcess_setData (s : SyscallState) (pid : Word) (data : PerProcessSyscallData) :
    (s.setData pid data).perProcess = Function.update s.perProcess pid data := rfl

/-- What a call returns. -/
structure Reply where
  ret : Word
  bytes : List Byte
  deriving DecidableEq, Repr

/-- `ErrorNumber::kInvalid`. -/
def kInvalid : Word := -22#64

/-! ## Files -/

/-- `FindFile(name)`, which `sys_open` repeats: the first entry with the name. -/
def LoaderInfo.findFile (info : LoaderInfo) (name : String) : Option Nat :=
  (List.range info.rootFilesUsed).find? fun i => (info.rootFiles i).fileName == name

/-- `sys_open` of the process `pid`. -/
def sysOpen (info : LoaderInfo) (pid : Word) (fileName : String) : KM SyscallState Reply := do
  let s ← get
  let ppdata := s.perProcess pid
  if fileName = "." then
    set (s.setData pid { ppdata with numGetdents64Called := 0 })
    return ⟨5#64, []⟩
  else if fileName = "window.bmp" then return ⟨7#64, []⟩
  else match info.findFile fileName with
    | none => return ⟨-1#64, []⟩
    | some foundIdx =>
      set (s.setData pid { ppdata with idxInRootFiles := foundIdx, readOffset := 0#64 })
      return ⟨6#64, []⟩

/-- `while (proc_stdin.IsEmpty()) StoreIntFlagAndHalt()`, cut off after a number of rounds; what happens while the
processor is halted is `halt`. -/
def waitStdin (halt : Nat → SyscallState → SyscallState) (pid : Word) : Nat → KM SyscallState Unit
  | 0 => throw .diverges
  | n + 1 => do
    if ((← get).stdin pid).isEmpty then
      modify (halt n)
      waitStdin halt pid n
    else return ()

/-- `std::min(a, b)`. -/
def stdMin (a b : Word) : Word := if b.toNat < a.toNat then b else a

/-- `sys_read(fd, buf, count)` of the process `pid`. -/
def sysRead (info : LoaderInfo) (halt : Nat → SyscallState → SyscallState) (fuel : Nat) (pid : Word) (fd : Int)
    (count : Word) : KM SyscallState Reply := do
  if fd = 0 then
    if count.toNat < 1 then return ⟨kInvalid, []⟩
    else
      waitStdin halt pid fuel
      let s ← get
      let (byte, rest) := (s.stdin pid).pop
      set { s with stdin := Function.update s.stdin pid rest }
      return ⟨1#64, [byte]⟩
  else if fd = 6 then
    let s ← get
    let ppdata := s.perProcess pid
    let file := info.rootFiles ppdata.idxInRootFiles
    assert (decide (ppdata.readOffset.toNat ≤ file.fileSize.toNat)) "file_size >= ppdata.read_offset"
    let copySize := stdMin (file.fileSize - ppdata.readOffset) count
    if copySize = 0#64 then return ⟨copySize, []⟩
    else
      set (s.setData pid { ppdata with readOffset := ppdata.readOffset + copySize })
      return ⟨copySize, (List.range copySize.toNat).map fun i => file.buf (ppdata.readOffset.toNat + i)⟩
  else return ⟨kInvalid, []⟩

/-! ## Windows -/

/-- `xsize * ysize * 4` on 32-bit integers. -/
def byteSize (xsize ysize : BitVec 32) : BitVec 32 := xsize * ysize * 4#32

/-- The fields of the header at the address that `msync` gets, as the process left them. -/
structure BMPHeader where
  offsetToData : BitVec 32
  xsize : BitVec 32
  ysize : BitVec 32
  deriving DecidableEq, Repr

/-- What `memcpy` is called with: the address of the pixels, the number of bytes, and the pages of the buffer they go
to. -/
structure Copy where
  src : Word
  size : Word
  pages : Word
  deriving DecidableEq, Repr

/-- The address of the pixels. -/
def windowAddr : Word := 0x100000000#64

/-- `msync(addr, ...)` of the process `pid`. Whether the allocator has the pages for the sheet, which takes one, and
for its buffer is `hasPages`; drawing the sheet is left out. The result is `none` for a call that is refused, which
returns -1. -/
def sysMsync (hasPages : Word → Bool) (pid : Word) (addr : Word) (header : BMPHeader) :
    KM SyscallState (Option Copy) := do
  if addr ≠ windowAddr then return none
  else if 0 ≤ header.ysize.toInt then return none
  else
    let ysize := -header.ysize
    let xsize := header.xsize
    if 2048 < ysize.toInt ∨ 2048 < xsize.toInt then return none
    else
      let s ← get
      let ppdata := s.perProcess pid
      let src := addr + header.offsetToData.setWidth 64
      let size := (byteSize xsize ysize).signExtend 64
      match ppdata.window with
      | some window => return some ⟨src, size, window.pages⟩
      | none =>
        let pages := byteSizeToPageSize size
        if hasPages 1#64 && hasPages pages then
          set (s.setData pid { ppdata with window := some ⟨xsize.toInt, ysize.toInt, pages⟩ })
          return some ⟨src, size, pages⟩
        else throw (.message "Cannot allocate pages")

end Liumos.Syscall
