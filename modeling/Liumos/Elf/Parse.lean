/-
The ELF loader's view of a file: the checks on its header, and the loop over its program headers that
lays out the code and the data segment. Source: elf.cc (`EnsureLoadable`, `ParseProgramHeader`).

The file is in memory at `buf`, and its fields are read there at each use. `proc_map_info` is in memory
too, `phdr_map_info` is a local variable of the caller. Of the console output only the complaints about a
file are kept, as what a refusal returns.
-/
import Liumos.Machine.Bytes
import Liumos.Process.Segment

namespace Liumos.Elf

open Process

/-! ## Fields -/

/-- The field of `n` bytes at the offset `off`. -/
def field (off n : Nat) (m : Mem) (p : Word) : Word := leWord m (p.toNat + off) n

def eIdentMag := field 0 4
def eIdentClass := field 4 1
def eIdentData := field 5 1
def eIdentOsabi := field 7 1
def eType := field 16 2
def eMachine := field 18 2
def eEntry := field 24 8
def ePhoff := field 32 8
def ePhentsize := field 54 2
def ePhnum := field 56 2

def pType := field 0 4
def pFlags := field 4 4
def pOffset := field 8 8
def pVaddr := field 16 8
def pFilesz := field 32 8
def pMemsz := field 40 8
def pAlign := field 48 8

def ELFMAG : Word := 0x464C457F#64
def ELFCLASS64 : Word := 2#64
def ELFDATA2LSB : Word := 1#64
def ELFOSABI_SYSV : Word := 0#64
def ET_EXEC : Word := 2#64
def EM_X86_64 : Word := 62#64
def PT_LOAD : Word := 1#64
def PF_X : Word := 1#64

def floorToPageAlignment (v : Word) : Word := v &&& ~~~kPageAddrMask
def ceilToPageAlignment (v : Word) : Word := (v + kPageSize - 1#64) &&& ~~~kPageAddrMask
def isAlignedToPageSize (v : Word) : Bool := v &&& kPageAddrMask == 0#64

/-! ## Parsing -/

structure PhdrInfo where
  data : Word
  vaddr : Word
  mapSize : Word
  copySize : Word
  deriving DecidableEq, Repr

def PhdrInfo.clear : PhdrInfo := ⟨0#64, 0#64, 0#64, 0#64⟩

structure PhdrMappingInfo where
  code : PhdrInfo
  data : PhdrInfo
  deriving DecidableEq, Repr

def PhdrMappingInfo.clear : PhdrMappingInfo := ⟨PhdrInfo.clear, PhdrInfo.clear⟩

section

variable {σ : Type}

def read (f : Mem → Word → Word) (p : Word) : WM σ Word := do return f (← get).mem p

/-- `EnsureLoadable(buf)`: nothing, or what it prints before it returns `nullptr`. -/
def ensureLoadable (buf : Word) : WM σ (Option String) := do
  if (← read eIdentMag buf) ≠ ELFMAG then return some "Not an ELF file\n"
  else if (← read eIdentClass buf) ≠ ELFCLASS64 then return some "Not an ELF Class 64n"
  else if (← read eIdentData buf) ≠ ELFDATA2LSB then return some "Not an ELF Data 2LSB"
  else if (← read eIdentOsabi buf) ≠ ELFOSABI_SYSV then return some "Not a SYSV ABI"
  else if (← read eType buf) ≠ ET_EXEC then return some "Not an executable"
  else if (← read eMachine buf) ≠ EM_X86_64 then return some "Not for x86_64"
  else return none

/-- The loop over the program headers from the `i`-th on, with `n` of them left. -/
def parseLoop (buf : Word) (procMapInfo : Nat) : Nat → Nat → PhdrMappingInfo → WM σ PhdrMappingInfo
  | 0, _, info => return info
  | n + 1, i, info => do
    let phdr := buf + (← read ePhoff buf) + (← read ePhentsize buf) * BitVec.ofNat 64 i
    if (← read pType phdr) ≠ PT_LOAD then parseLoop buf procMapInfo n (i + 1) info
    else
      assert (isAlignedToPageSize (← read pAlign phdr)) "IsAlignedToPageSize(phdr->p_align)"
      let isCode := (← read pFlags phdr) &&& PF_X != 0#64
      let segMap := if isCode then ProcessMappingInfo.code procMapInfo else ProcessMappingInfo.data procMapInfo
      assert ((← SegmentMapping.getMapSize segMap) == 0#64) "!seg_map->GetMapSize()"
      let vaddr := floorToPageAlignment (← read pVaddr phdr)
      SegmentMapping.set segMap vaddr 0#64 (ceilToPageAlignment ((← read pMemsz phdr) + ((← read pVaddr phdr) - vaddr)))
      let phdrInfo : PhdrInfo :=
        ⟨buf + floorToPageAlignment (← read pOffset phdr), ← SegmentMapping.getVirtAddr segMap,
          ← SegmentMapping.getMapSize segMap,
          (← read pFilesz phdr) + ((← read pVaddr phdr) - (← SegmentMapping.getVirtAddr segMap))⟩
      parseLoop buf procMapInfo n (i + 1)
        (if isCode then { info with code := phdrInfo } else { info with data := phdrInfo })

/-- `ParseProgramHeader(file, proc_map_info, phdr_map_info)` for a file at `buf`: `phdr_map_info`, or the complaint. -/
def parseProgramHeader (buf : Word) (procMapInfo : Nat) : WM σ (Except String PhdrMappingInfo) := do
  ProcessMappingInfo.clear procMapInfo
  assert (isAlignedToPageSize buf) "IsAlignedToPageSize(buf)"
  match ← ensureLoadable buf with
  | some complaint => return .error complaint
  | none =>
    let phnum ← read ePhnum buf
    return .ok (← parseLoop buf procMapInfo phnum.toNat 0 PhdrMappingInfo.clear)

end

end Liumos.Elf
