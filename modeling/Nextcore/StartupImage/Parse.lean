import Nextcore.Lib.Commands
import Nextcore.Lib.Sort

/-!
Physical staging of two thin ARM64e Mach-O startup companions (`src/arm64_startup_image.rs`).

Both images are parsed and placed before a byte of the memory is written. A `usize` is 64 bits
wide, so that the conversions between it and `u64` do not fail; allocation does not fail either.
-/

namespace Nextcore.StartupImage

open Checked Checked.Outcome Checked.Exec

def pageSize : Nat := 16 * 1024
def maxFileSize : Nat := 128 * 1024 * 1024
def maxImageSize : Nat := 128 * 1024 * 1024
def maxCommands : Nat := 4096
def maxCommandBytes : Nat := 1024 * 1024
def maxSegments : Nat := 128

inductive StartupImageError where
  | truncated
  | unsupportedFormat
  | unsupportedCpu
  | unsupportedFileType
  | unsupportedCommand
  | invalidHeader
  | invalidCommand
  | invalidSegment
  | overlappingRange
  | missingSegments
  | limitExceeded
  | addressOverflow
  | arenaBounds
  | allocationFailed
  | readbackMismatch
  deriving DecidableEq, Repr

abbrev Result (α : Type) := Outcome StartupImageError α

structure ImagePlacement where
  physicalBase : Nat
  virtualBase : Nat
  bytes : Nat
  copiedBytes : Nat
  deriving DecidableEq, Repr

structure StartupPlacement where
  sptm : ImagePlacement
  txm : ImagePlacement
  occupiedEnd : Nat
  deriving DecidableEq, Repr

structure Segment where
  vmaddr : Nat
  vmsize : Nat
  fileoff : Nat
  filesize : Nat
  deriving DecidableEq, Repr

structure Image where
  source : Bytes
  segments : List Segment
  virtualBase : Nat
  span : Nat
  copiedBytes : Nat
  deriving DecidableEq

/-! ### Ranges and words -/

def errors : ReadErrors StartupImageError := ⟨.addressOverflow, .truncated⟩

def bytes : Bytes → Nat → Nat → Result Bytes := sliceOr errors
def read32 : Bytes → Nat → Result Nat := wordOr errors 4
def read64 : Bytes → Nat → Result Nat := wordOr errors 8

def fileTable (source : Bytes) (offset count width : Nat) : Result Unit := do
  let size ← ofOption .addressOverflow (checkedMul count width)
  let _ ← bytes source offset size

def alignUp (value : Nat) : Result Nat := do
  let sum ← ofOption .addressOverflow (checkedAdd value (pageSize - 1))
  pure (andNot sum (pageSize - 1))

def overlaps : Nat → Nat → Nat → Nat → Result Bool := rangesMeet

/-! ### Load commands -/

/-- `b"__PAGEZERO\0\0\0\0\0\0"`. -/
def pageZeroName : Bytes := [95, 95, 80, 65, 71, 69, 90, 69, 82, 79, 0, 0, 0, 0, 0, 0]

/-- What the loop over the load commands carries. -/
structure Scan where
  offset : Nat
  segments : List Segment
  symbolCount : Option Nat
  dysymtab : Option (List (Nat × Nat))
  sawThread : Bool
  pagezeroEnd : Option Nat

def Scan.start : Scan := ⟨0, [], none, none, false, none⟩

/-- The file range of a section, if it is of a type that has one. -/
def validateFile (segment : Segment) (section' : Bytes) (flags size : Nat) : Result Unit :=
  if flags &&& 0xff ∉ [0x1, 0xc, 0x12] ∧ size ≠ 0 then do
    let fileoff ← read32 section' 48
    let fileEnd ← ofOption .addressOverflow (checkedAdd fileoff size)
    let segmentFileEnd ← add segment.fileoff segment.filesize
    rejectIf (fileoff < segment.fileoff ∨ fileEnd > segmentFileEnd) .invalidSegment
  else pure ()

def validateSection (source : Bytes) (segment : Segment) (section' : Bytes) : Result Unit := do
  let address ← read64 section' 32
  let size ← read64 section' 40
  let stop ← ofOption .addressOverflow (checkedAdd address size)
  let segmentEnd ← add segment.vmaddr segment.vmsize
  rejectIf (address < segment.vmaddr ∨ stop > segmentEnd) .invalidSegment
  let align ← read32 section' 52
  rejectIf (align > 31) .invalidSegment
  let flags ← read32 section' 64
  validateFile segment section' flags size
  let relocations ← read32 section' 56
  let count ← read32 section' 60
  fileTable source relocations count 8

/-- The `index`-th section of a segment command. -/
def sectionAt (command : Bytes) (index' : Nat) : Result Bytes := do
  let first ← mul index' 80
  let start ← add 72 first
  let next ← add index' 1
  let last ← mul next 80
  let stop ← add 72 last
  index command start stop

/-- `LC_SEGMENT_64`. -/
def segmentCommand (source command : Bytes) (size : Nat) (scan : Scan) : Result Scan := do
  rejectIf (command.length < 72) .invalidCommand
  let nsects ← read32 command 64
  let expected ← ofOption .addressOverflow
    ((checkedMul nsects 80).bind fun n => checkedAdd n 72)
  rejectIf (expected ≠ size ∨ nsects > 1024) .invalidCommand
  let vmaddr ← read64 command 24
  let vmsize ← read64 command 32
  let fileoff ← read64 command 40
  let filesize ← read64 command 48
  let segment : Segment := ⟨vmaddr, vmsize, fileoff, filesize⟩
  let name ← index command 8 24
  if name = pageZeroName then do
    rejectIf (scan.pagezeroEnd.isSome ∨ vmaddr ≠ 0 ∨ vmsize = 0 ∨ fileoff ≠ 0 ∨ filesize ≠ 0)
      .invalidSegment
    let maxProt ← read32 command 56
    rejectIf (maxProt ≠ 0) .invalidSegment
    let initProt ← read32 command 60
    rejectIf (initProt ≠ 0 ∨ nsects ≠ 0) .invalidSegment
    let flags ← read32 command 68
    rejectIf (flags ≠ 0) .invalidSegment
    pure { scan with pagezeroEnd := some vmsize }
  else do
    rejectIf (scan.segments.length ≥ maxSegments ∨ vmsize = 0 ∨ filesize > vmsize ∨
      checkedAdd vmaddr vmsize = none) .invalidSegment
    let _ ← bytes source fileoff filesize
    forEach (fun index' => do
      let section' ← sectionAt command index'
      validateSection source segment section') (List.range nsects)
    pure { scan with segments := scan.segments ++ [segment] }

/-- `LC_SYMTAB`. -/
def symtabCommand (source command : Bytes) (size : Nat) (scan : Scan) : Result Scan := do
  rejectIf (size ≠ 24 ∨ scan.symbolCount.isSome) .invalidCommand
  let nsyms ← read32 command 12
  let symbols ← read32 command 8
  fileTable source symbols nsyms 16
  let strings ← read32 command 16
  let stringBytes ← read32 command 20
  fileTable source strings stringBytes 1
  pure { scan with symbolCount := some nsyms }

/-- One table of the dynamic symbol table, with the width of its entries. -/
def dysymtabTable (source command : Bytes) (table : Nat × Nat) : Result Unit := do
  let offset ← read32 command table.1
  let countAt ← add table.1 4
  let count ← read32 command countAt
  fileTable source offset count table.2

/-- The index and the count of one group of symbols. -/
def symbolRange (command : Bytes) (offset : Nat) : Result (Nat × Nat) := do
  let first ← read32 command offset
  let count ← read32 command (offset + 4)
  pure (first, count)

/-- `LC_DYSYMTAB`. -/
def dysymtabCommand (source command : Bytes) (size : Nat) (scan : Scan) : Result Scan := do
  rejectIf (size ≠ 80 ∨ scan.dysymtab.isSome) .invalidCommand
  forEach (dysymtabTable source command)
    [(32, 8), (40, 56), (48, 4), (56, 4), (64, 8), (72, 8)]
  let ranges ← collect (symbolRange command) [8, 16, 24]
  pure { scan with dysymtab := some ranges }

/-- `LC_UNIXTHREAD`. -/
def threadCommand (command : Bytes) (size : Nat) (scan : Scan) : Result Scan := do
  rejectIf (scan.sawThread ∨ size < 16) .invalidCommand
  let words ← read32 command 12
  rejectIf (words ≠ 68 ∨ ((checkedMul words 4).bind fun n => checkedAdd n 16) ≠ some size)
    .invalidCommand
  let flavor ← read32 command 8
  rejectIf (flavor ≠ 6) .invalidCommand
  pure { scan with sawThread := true }

/-- The `match` on the kind of a load command. -/
def loadCommand (source command : Bytes) (kind size : Nat) (scan : Scan) : Result Scan :=
  if kind = 0x19 then segmentCommand source command size scan
  else if kind = 0x2 then symtabCommand source command size scan
  else if kind = 0xb then dysymtabCommand source command size scan
  else if kind = 0x1b ∧ size = 24 then pure scan
  else if kind = 0x2a ∧ size = 16 then pure scan
  else if kind = 0x5 then threadCommand command size scan
  else if kind = 0x1b ∨ kind = 0x2a then .err .invalidCommand
  else .err .unsupportedCommand

/-- One load command, at the offset of the scan. -/
def scanCommand (source commands : Bytes) (scan : Scan) : Result Scan := do
  let kind ← read32 commands scan.offset
  let sizeAt ← ofOption .addressOverflow (checkedAdd scan.offset 4)
  let size ← read32 commands sizeAt
  rejectIf (size < 8 ∨ size % 8 ≠ 0) .invalidCommand
  let command ← bytes commands scan.offset size
  let scan' ← loadCommand source command kind size scan
  let offset ← ofOption .addressOverflow (checkedAdd scan.offset size)
  pure { scan' with offset }

/-! ### The image -/

/-- `u32::checked_add`. -/
def checkedAddU32 (a b : Nat) : Option Nat := if a + b < 2 ^ 32 then some (a + b) else none

/-- The check of the symbol ranges, if there are any, against the number of symbols. -/
def validateSymbols (symbolCount : Option Nat) : Option (List (Nat × Nat)) → Result Unit
  | none => pure ()
  | some ranges => do
    let total ← ofOption .invalidCommand symbolCount
    forEach (fun range => do
      let stop ← ofOption .addressOverflow (checkedAddU32 range.1 range.2)
      rejectIf (stop > total) .invalidCommand) ranges

/-- Neighbours in memory. -/
def rejectOverlap (a b : Segment) : Result Unit := do
  let stop ← add a.vmaddr a.vmsize
  rejectIf (stop > b.vmaddr) .overlappingRange

/-- Whether the files of two segments share a byte. -/
def rejectShared (segment other : Segment) : Result Unit := do
  let shared ← overlaps segment.fileoff segment.filesize other.fileoff other.filesize
  rejectIf shared .overlappingRange

def sumFiles (segments : List Segment) : Result Nat :=
  segments.foldlM (fun sum s => ofOption .addressOverflow (checkedAdd sum s.filesize)) 0

/-- What `parse_image` does behind the load commands. -/
def planImage [UnstableSort] (source : Bytes) (commandBytes : Nat) (scan : Scan) :
    Result Image := do
  validateSymbols scan.symbolCount scan.dysymtab
  rejectIf scan.segments.isEmpty .missingSegments
  let segments := UnstableSort.sortByKey (·.vmaddr) scan.segments
  let first ← .expect segments.head?
  rejectIf (scan.pagezeroEnd.any (· > first.vmaddr)) .overlappingRange
  let headerBytes ← add 32 commandBytes
  rejectIf (¬ segments.any fun s => s.fileoff = 0 ∧ s.filesize ≥ headerBytes) .invalidHeader
  forWindows rejectOverlap segments
  forEarlier rejectShared [] segments
  let virtualBase := andNot first.vmaddr (pageSize - 1)
  let last ← ofOption .missingSegments segments.getLast?
  let lastEnd ← add last.vmaddr last.vmsize
  let virtualEnd ← alignUp lastEnd
  let span ← ofOption .addressOverflow (checkedSub virtualEnd virtualBase)
  rejectIf (span = 0 ∨ span > maxImageSize ∨ span > 2 ^ 63 - 1) .limitExceeded
  let copiedBytes ← sumFiles segments
  pure ⟨source, segments, virtualBase, span, copiedBytes⟩

def parseImage [UnstableSort] (source : Bytes) : Result Image := do
  rejectIf (source.length > maxFileSize) .limitExceeded
  let magic ← read32 source 0
  rejectIf (magic ≠ 0xfeedfacf) .unsupportedFormat
  let header ← bytes source 0 32
  let cpu ← read32 header 4
  rejectIf (cpu ≠ 0x0100000c) .unsupportedCpu
  let subtype ← read32 header 8
  rejectIf (subtype &&& 0x00ffffff ≠ 2) .unsupportedCpu
  let fileType ← read32 header 12
  rejectIf (fileType ≠ 2) .unsupportedFileType
  let flags ← read32 header 24
  rejectIf (andNot flags (0x1 ||| 0x200000) ≠ 0) .invalidHeader
  let reserved ← read32 header 28
  rejectIf (reserved ≠ 0) .invalidHeader
  let count ← read32 header 16
  let commandBytes ← read32 header 20
  rejectIf (count > maxCommands ∨ commandBytes > maxCommandBytes) .limitExceeded
  rejectIf (commandBytes % 8 ≠ 0 ∨ count > commandBytes / 8) .invalidHeader
  let commands ← bytes source 32 commandBytes
  let scan ← iterate (scanCommand source commands) count .start
  rejectIf (scan.offset ≠ commands.length) .invalidCommand
  planImage source commandBytes scan

/-! ### Staging -/

def verifyZero (destination : Bytes) (start stop : Nat) : Result Unit := do
  let region ← ofOption .arenaBounds (getRange destination start stop)
  forEach (fun byte => rejectIf (byte ≠ 0) .readbackMismatch) region

def verifyBytes (destination : Bytes) (start : Nat) (expected : Bytes) : Result Unit := do
  let stop ← ofOption .arenaBounds (checkedAdd start expected.length)
  let region ← ofOption .arenaBounds (getRange destination start stop)
  forEach (fun pair => rejectIf (pair.1 ≠ pair.2) .readbackMismatch) (region.zip expected)

/-- `&image.source[segment.fileoff..segment.fileoff + segment.filesize]`. -/
def sourceOf (source : Bytes) (segment : Segment) : Result Bytes := do
  let stop ← add segment.fileoff segment.filesize
  index source segment.fileoff stop

section Staging

variable (source : Bytes) (virtualBase : Nat)

def copySegment (segment : Segment) (destination : Bytes) : Result Bytes := do
  let offset ← sub segment.vmaddr virtualBase
  let file ← sourceOf source segment
  let stop ← add offset segment.filesize
  copyFrom destination offset stop file

/-- The loop that copies the segments. -/
def copySegments : List Segment → Exec Bytes StartupImageError Unit
  | [] => pure ()
  | segment :: rest => do
    update (copySegment source virtualBase segment)
    copySegments rest

/-- The loop that reads the segments back, and the zeros between them; it ends with the end of
the last one. -/
def verifySegments (destination : Bytes) : Nat → List Segment → Result Nat
  | checkedEnd, [] => pure checkedEnd
  | checkedEnd, segment :: rest => do
    let start ← sub segment.vmaddr virtualBase
    let fileEnd ← add start segment.filesize
    let memoryEnd ← add start segment.vmsize
    verifyZero destination checkedEnd start
    let file ← sourceOf source segment
    verifyBytes destination start file
    verifyZero destination fileEnd memoryEnd
    verifySegments destination memoryEnd rest

end Staging

/-- What `stage_image` reads back. -/
def verifyImage (image : Image) (destination : Bytes) : Result Unit := do
  let checkedEnd ← verifySegments image.source image.virtualBase destination 0 image.segments
  verifyZero destination checkedEnd destination.length

def stageImage (image : Image) : Exec Bytes StartupImageError Unit := do
  write fun destination => List.replicate destination.length 0
  copySegments image.source image.virtualBase image.segments
  look (verifyImage image)

/-- A placement, and the parts of the memory that it names. -/
structure Places where
  result : StartupPlacement
  sptmOffset : Nat
  sptmLimit : Nat
  txmOffset : Nat
  txmLimit : Nat
  deriving DecidableEq, Repr

/-- What `stage_startup_images` decides before it writes. -/
def place (sptm txm : Image) (physicalBase occupiedEnd memorySize : Nat) : Result Places := do
  let arenaEnd ← ofOption .addressOverflow (checkedAdd physicalBase memorySize)
  rejectIf (occupiedEnd > arenaEnd) .arenaBounds
  let sptmBase ← alignUp (max occupiedEnd physicalBase)
  let sptmEnd ← ofOption .addressOverflow (checkedAdd sptmBase sptm.span)
  let txmBase ← alignUp sptmEnd
  let txmEnd ← ofOption .addressOverflow (checkedAdd txmBase txm.span)
  rejectIf (txmEnd > arenaEnd) .arenaBounds
  let sptmOffset ← sub sptmBase physicalBase
  let txmOffset ← sub txmBase physicalBase
  let sptmLimit ← ofOption .arenaBounds (checkedAdd sptmOffset sptm.span)
  let txmLimit ← ofOption .arenaBounds (checkedAdd txmOffset txm.span)
  rejectIf (sptmLimit > memorySize ∨ txmLimit > memorySize) .arenaBounds
  let result : StartupPlacement :=
    { sptm := ⟨sptmBase, sptm.virtualBase, sptm.span, sptm.copiedBytes⟩
      txm := ⟨txmBase, txm.virtualBase, txm.span, txm.copiedBytes⟩
      occupiedEnd := txmEnd }
  pure ⟨result, sptmOffset, sptmLimit, txmOffset, txmLimit⟩

/-- `stage_image(image, &mut memory[offset..limit])`. -/
def stageAt (image : Image) (offset limit : Nat) : Exec Bytes StartupImageError Unit := do
  let _ ← look fun memory => index memory offset limit
  zoom (fun memory => window memory offset (limit - offset))
    (fun part memory => overlay memory offset part) (stageImage image)

def stageStartupImages [UnstableSort] (sptm txm : Bytes) (physicalBase occupiedEnd : Nat) :
    Exec Bytes StartupImageError StartupPlacement := do
  let sptmImage ← look fun _ => parseImage sptm
  let txmImage ← look fun _ => parseImage txm
  let places ← look fun memory =>
    place sptmImage txmImage physicalBase occupiedEnd memory.length
  stageAt sptmImage places.sptmOffset places.sptmLimit
  stageAt txmImage places.txmOffset places.txmLimit
  pure places.result

end Nextcore.StartupImage
