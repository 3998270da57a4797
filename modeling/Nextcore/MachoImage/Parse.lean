import Nextcore.Lib.Commands
import Nextcore.Lib.Sort

/-!
Plans for static x86_64 Mach-O images (`src/macho_image.rs`).

The parser scans the load commands, sorts the segments, and checks them against each other, the
guard page and the entry. Sums and differences without a guard are `add`, `sub` and `mul`, which
panic where they leave the word.
-/

namespace Nextcore.MachoImage

open Checked Checked.Outcome

def maxFileSize : Nat := 64 * 1024 * 1024
def maxImageSize : Nat := 256 * 1024 * 1024
def maxCommands : Nat := 1024
def maxSegments : Nat := 64
def maxSections : Nat := 1024
def pageSize : Nat := 4096
def vmProtExecute : Nat := 4

structure SegmentPlan where
  name : Bytes
  vmaddr : Nat
  memoryOffset : Nat
  memorySize : Nat
  fileOffset : Nat
  fileSize : Nat
  initProt : Nat
  maxProt : Nat
  deriving DecidableEq

inductive EntryKind where
  | main
  | unixThread64
  deriving DecidableEq, Repr

structure MachOImagePlan where
  preferredBase : Nat
  imageSize : Nat
  headerVaddr : Nat
  entryVaddr : Nat
  entryKind : EntryKind
  entryOffset : Nat
  segments : List SegmentPlan
  deriving DecidableEq

inductive MachOImageError where
  | inputTooLarge
  | truncated
  | unsupportedFormat
  | unsupportedCpu
  | unsupportedFileType
  | unsupportedFlags
  | unsupportedCommand
  | unsupportedThreadState
  | unsupportedStack
  | unsupportedRelocations
  | unsupportedSection
  | limitExceeded
  | invalidHeader
  | invalidCommand
  | invalidSegment
  | invalidSection
  | invalidMetadata
  | overflow
  | segmentOverlap
  | sectionOverlap
  | missingSegments
  | missingEntry
  | duplicateEntry
  | entryOutsideExecutable
  deriving DecidableEq, Repr

abbrev Result (α : Type) := Outcome MachOImageError α

inductive Entry where
  | fileOffset (value : Nat)
  | virtualAddress (value : Nat)
  deriving DecidableEq, Repr

/-! ### Ranges and words -/

def errors : ReadErrors MachOImageError := ⟨.overflow, .truncated⟩

def slice : Bytes → Nat → Nat → Result Bytes := sliceOr errors
def read32 : Bytes → Nat → Result Nat := wordOr errors 4
def read64 : Bytes → Nat → Result Nat := wordOr errors 8

def checkedEnd (start size : Nat) : Result Nat := ofOption .overflow (checkedAdd start size)

def fileRange (bytes : Bytes) (start size : Nat) : Result Unit := do
  let stop ← checkedEnd start size
  rejectIf (stop > bytes.length) .truncated

def overlap : Nat → Nat → Nat → Nat → Result Bool := rangesMeet

def exactSize (command : Bytes) (expected : Nat) : Result Unit :=
  rejectIf (command.length ≠ expected) .invalidCommand

/-! ### Segments -/

/-- `b"__PAGEZERO\0\0\0\0\0\0"`. -/
def pageZeroName : Bytes := [95, 95, 80, 65, 71, 69, 90, 69, 82, 79, 0, 0, 0, 0, 0, 0]

/-- What the section loop of a segment reads of the segment. -/
structure SegmentExtent where
  vmaddr : Nat
  memoryEnd : Nat
  fileOffset : Nat
  fileMemoryEnd : Nat

/-- The checks of the contents of a section, by its type. -/
def validateContents (bytes section' : Bytes) (segment : SegmentExtent)
    (addr size stop flags : Nat) : Result Unit :=
  if flags &&& 0xff ∈ [1, 0xc] then rejectIf (addr < segment.fileMemoryEnd) .invalidSection
  else if flags &&& 0xff ∈ [0, 2, 3, 4, 0xe] then do
    let sectionOffset ← read32 section' 48
    rejectIf (stop > segment.fileMemoryEnd) .invalidSection
    let distance ← sub addr segment.vmaddr
    let expected ← checkedEnd segment.fileOffset distance
    rejectIf (sectionOffset ≠ expected) .invalidSection
    fileRange bytes sectionOffset size
  else .err .unsupportedSection

/-- One section of a segment: its range in memory. -/
def parseSection (bytes command : Bytes) (segment : SegmentExtent) (section' : Bytes) :
    Result (Nat × Nat) := do
  let sectionName ← index section' 16 32
  let name ← index command 8 24
  rejectIf (sectionName ≠ name) .invalidSection
  let addr ← read64 section' 32
  let size ← read64 section' 40
  let stop ← checkedEnd addr size
  let align ← read32 section' 52
  let flags ← read32 section' 64
  rejectIf (addr < segment.vmaddr ∨ stop > segment.memoryEnd ∨ align ≥ 64) .invalidSection
  let bit ← shl 1 align
  let mask ← sub bit 1
  rejectIf (addr &&& mask ≠ 0) .invalidSection
  let relocations ← read32 section' 60
  rejectIf (relocations ≠ 0 ∨ flags &&& 0x300 ≠ 0) .unsupportedRelocations
  validateContents bytes section' segment addr size stop flags
  pure (addr, stop)

/-- `parse_segment`, with the sections counted so far. -/
def parseSegment [UnstableSort] (bytes command : Bytes) (totalSections : Nat) :
    Result (SegmentPlan × Nat) := do
  let _ ← slice command 0 72
  let count ← read32 command 64
  let totalSections ← ofOption .overflow (checkedAdd totalSections count)
  rejectIf (totalSections > maxSections) .limitExceeded
  let table ← mul count 80
  let expected ← add 72 table
  exactSize command expected
  let vmaddr ← read64 command 24
  let memorySize ← read64 command 32
  let fileOffset ← read64 command 40
  let fileSize ← read64 command 48
  let maxProt ← read32 command 56
  let initProt ← read32 command 60
  rejectIf (memorySize = 0 ∨ fileSize > memorySize ∨ andNot maxProt 7 ≠ 0 ∨
    andNot initProt maxProt ≠ 0) .invalidSegment
  let flags ← read32 command 68
  rejectIf (andNot flags 4 ≠ 0) .unsupportedFlags
  let memoryEnd ← checkedEnd vmaddr memorySize
  fileRange bytes fileOffset fileSize
  let fileMemoryEnd ← checkedEnd vmaddr fileSize
  let sections ← indexFrom command 72
  let ranges ← collect (parseSection bytes command ⟨vmaddr, memoryEnd, fileOffset, fileMemoryEnd⟩)
    (chunksExact sections 80)
  -- The range of a section of size zero is not kept: it ends where it starts.
  let ranges := UnstableSort.sortByKey (·.1) (ranges.filter fun range => range.1 ≠ range.2)
  forWindows (fun a b => rejectIf (b.1 < a.2) .sectionOverlap) ranges
  let name ← index command 8 24
  pure (⟨name, vmaddr, 0, memorySize, fileOffset, fileSize, initProt, maxProt⟩, totalSections)

def validateMetadata (bytes command : Bytes) (kind : Nat) : Result Unit :=
  if kind = 0x2 then do
    exactSize command 24
    let symbols ← read32 command 8
    let count ← read32 command 12
    let size ← mul count 16
    fileRange bytes symbols size
    let strings ← read32 command 16
    let size ← read32 command 20
    fileRange bytes strings size
  else if kind = 0x1b then exactSize command 24
  else if kind = 0x24 ∨ kind = 0x2a then exactSize command 16
  else if kind = 0x32 then do
    let _ ← slice command 0 24
    let count ← read32 command 20
    let tools ← mul count 8
    let expected ← add 24 tools
    rejectIf (expected ≠ command.length) .invalidCommand
  else if kind = 0x1d ∨ kind = 0x26 ∨ kind = 0x29 then do
    exactSize command 16
    let size ← read32 command 12
    rejectIf (kind = 0x29 ∧ size % 8 ≠ 0) .invalidMetadata
    let offset ← read32 command 8
    fileRange bytes offset size
  else .err .unsupportedCommand

/-! ### Load commands -/

/-- What the loop over the load commands carries. -/
structure Scan where
  offset : Nat
  segments : List SegmentPlan
  guard : Option Nat
  segmentCount : Nat
  sectionCount : Nat
  entry : Option Entry

def Scan.start : Scan := ⟨0, [], none, 0, 0, none⟩

def setEntry (value : Entry) (scan : Scan) : Result Scan := do
  rejectIf scan.entry.isSome .duplicateEntry
  pure { scan with entry := some value }

/-- `0x19`. -/
def segmentCommand [UnstableSort] (bytes command : Bytes) (scan : Scan) : Result Scan := do
  let segmentCount ← add scan.segmentCount 1
  rejectIf (segmentCount > maxSegments) .limitExceeded
  let (segment, sectionCount) ← parseSegment bytes command scan.sectionCount
  let name ← index command 8 24
  if name = pageZeroName then do
    rejectIf (scan.guard.isSome ∨ segment.vmaddr ≠ 0 ∨ segment.fileOffset ≠ 0 ∨
      segment.fileSize ≠ 0 ∨ segment.initProt ≠ 0 ∨ segment.maxProt ≠ 0) .invalidSegment
    let sections ← read32 command 64
    rejectIf (sections ≠ 0) .invalidSegment
    pure { scan with segmentCount, sectionCount, guard := some segment.memorySize }
  else pure { scan with segmentCount, sectionCount, segments := scan.segments ++ [segment] }

/-- `0x8000_0028`. -/
def mainCommand (command : Bytes) (scan : Scan) : Result Scan := do
  exactSize command 24
  let stack ← read64 command 16
  rejectIf (stack ≠ 0) .unsupportedStack
  let value ← read64 command 8
  setEntry (.fileOffset value) scan

/-- `0x5`. -/
def threadCommand (command : Bytes) (scan : Scan) : Result Scan := do
  let flavor ← read32 command 8
  rejectIf (flavor ≠ 4) .unsupportedThreadState
  let count ← read32 command 12
  rejectIf (count ≠ 42) .unsupportedThreadState
  exactSize command 184
  let value ← read64 command 144
  setEntry (.virtualAddress value) scan

section Commands

variable [UnstableSort] (bytes : Bytes)

/-- The `match` on the kind of a load command. -/
def loadCommand (kind : Nat) (command : Bytes) (scan : Scan) : Result Scan :=
  if kind = 0x19 then segmentCommand bytes command scan
  else if kind = 0x80000028 then mainCommand command scan
  else if kind = 0x5 then threadCommand command scan
  else do
    validateMetadata bytes command kind
    pure scan

/-- One load command, at the offset of the scan. -/
def scanCommand (commands : Bytes) (scan : Scan) : Result Scan := do
  let kind ← read32 commands scan.offset
  let sizeAt ← add scan.offset 4
  let size ← read32 commands sizeAt
  rejectIf (size < 8 ∨ size % 8 ≠ 0) .invalidCommand
  let command ← slice commands scan.offset size
  let scan' ← loadCommand bytes kind command scan
  let offset ← ofOption .overflow (checkedAdd scan.offset size)
  pure { scan' with offset }

end Commands

/-! ### The plan -/

/-- The loop that compares each segment with the end of the one before it; it ends with the end
of the last one. -/
def placeSegments : Nat → List SegmentPlan → Result Nat
  | previousEnd, [] => pure previousEnd
  | previousEnd, segment :: rest => do
    rejectIf (segment.vmaddr < previousEnd) .segmentOverlap
    let stop ← checkedEnd segment.vmaddr segment.memorySize
    placeSegments stop rest

/-- Whether the files of two segments share a byte. -/
def rejectShared (segment other : SegmentPlan) : Result Unit := do
  let shared ← overlap segment.fileOffset segment.fileSize other.fileOffset other.fileSize
  rejectIf shared .segmentOverlap

/-- How far the entry is into the segment, if it is not before it. -/
def Entry.within (entry : Entry) (segment : SegmentPlan) : Option Nat :=
  match entry with
  | .fileOffset value => checkedSub value segment.fileOffset
  | .virtualAddress value => checkedSub value segment.vmaddr

/-- The entry in one segment: an executable one that has it replaces what was found. -/
def locateIn (entry : Entry) (found : Option Nat) (segment : SegmentPlan) :
    Result (Option Nat) :=
  if segment.initProt &&& vmProtExecute = 0 then pure found
  else
    match (entry.within segment).filter (· < segment.fileSize) with
    | none => pure found
    | some relative => do
      let vaddr ← checkedEnd segment.vmaddr relative
      pure (some vaddr)

/-- The last loop over the segments: the offsets are set, and the entry is looked for. -/
def locateEntry (preferredBase : Nat) (entry : Entry) :
    Option Nat → List SegmentPlan → Result (Option Nat × List SegmentPlan)
  | found, [] => pure (found, [])
  | found, segment :: rest => do
    let memoryOffset ← sub segment.vmaddr preferredBase
    let found ← locateIn entry found segment
    let (found, others) ← locateEntry preferredBase entry found rest
    pure (found, { segment with memoryOffset } :: others)

def Entry.kind : Entry → EntryKind
  | .fileOffset _ => .main
  | .virtualAddress _ => .unixThread64

/-- What `parse_macho_image` does behind the load commands. -/
def planImage [UnstableSort] (commandSize : Nat) (scan : Scan) : Result MachOImagePlan := do
  rejectIf scan.segments.isEmpty .missingSegments
  let segments := UnstableSort.sortByKey (·.vmaddr) scan.segments
  let previousEnd ← placeSegments (scan.guard.getD 0) segments
  forEarlier rejectShared [] segments
  let headerSize ← add 32 commandSize
  let header ← ofOption .invalidHeader
    (segments.find? fun segment => segment.fileOffset = 0 ∧ segment.fileSize ≥ headerSize)
  let first ← .expect segments.head?
  let preferredBase := andNot first.vmaddr (pageSize - 1)
  let roundedEnd ← checkedEnd previousEnd (pageSize - 1)
  let imageEnd := andNot roundedEnd (pageSize - 1)
  let imageSize ← ofOption .overflow (checkedSub imageEnd preferredBase)
  rejectIf (imageSize > maxImageSize) .limitExceeded
  let entry ← ofOption .missingEntry scan.entry
  let (found, segments) ← locateEntry preferredBase entry none segments
  let entryVaddr ← ofOption .entryOutsideExecutable found
  let entryOffset ← sub entryVaddr preferredBase
  pure { preferredBase, imageSize, headerVaddr := header.vmaddr, entryVaddr,
         entryKind := entry.kind, entryOffset, segments }

def parseMachoImage [UnstableSort] (bytes : Bytes) : Result MachOImagePlan := do
  rejectIf (bytes.length > maxFileSize) .inputTooLarge
  let magic ← read32 bytes 0
  rejectIf (magic ≠ 0xfeedfacf) .unsupportedFormat
  let _ ← slice bytes 0 32
  let cpu ← read32 bytes 4
  rejectIf (cpu ≠ 0x01000007) .unsupportedCpu
  let subtype ← read32 bytes 8
  rejectIf (subtype ≠ 3) .unsupportedCpu
  let fileType ← read32 bytes 12
  rejectIf (fileType ≠ 2) .unsupportedFileType
  let flags ← read32 bytes 24
  rejectIf (andNot flags (0x1 ||| 0x2000) ≠ 0) .unsupportedFlags
  let reserved ← read32 bytes 28
  rejectIf (reserved ≠ 0) .invalidHeader
  let count ← read32 bytes 16
  let commandSize ← read32 bytes 20
  rejectIf (count > maxCommands) .limitExceeded
  rejectIf (commandSize % 8 ≠ 0 ∨ count > commandSize / 8) .invalidHeader
  let commands ← slice bytes 32 commandSize
  let scan ← iterate (scanCommand bytes commands) count .start
  rejectIf (scan.offset ≠ commands.length) .invalidCommand
  planImage commandSize scan

end Nextcore.MachoImage
