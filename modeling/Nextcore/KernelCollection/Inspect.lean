import Nextcore.KernelCollection.Parse

/-!
Inspecting a collection: the load commands of each image, the collection's entry, and the
members against the outer segments.
-/

namespace Nextcore.KernelCollection

open Checked Checked.Outcome

/-! ### Load commands -/

/-- What `parse_image` carries from one load command to the next. -/
structure CommandScan where
  budget : Budget
  segments : List SegmentMetadata
  members : List MemberReference
  entry : Option EntryMetadata
  symtab : Option Nat
  dysymtab : Option Bytes
  fixupRange : Option FileRange
  linkeditRanges : List FileRange
  offset : Nat

/-- The scan before the first load command. -/
def CommandScan.start (budget : Budget) : CommandScan :=
  ⟨budget, [], [], none, none, none, none, [], 0⟩

def setEntry (value : EntryMetadata) (scan : CommandScan) : Result CommandScan := do
  rejectIf scan.entry.isSome .duplicateEntry
  pure { scan with entry := some value }

/-- The file range named by two 32-bit words of a command. -/
def commandRange (bytes cmd : Bytes) (at' width : Nat) : Result FileRange := do
  let offset ← u32At cmd at'
  let count ← u32At cmd (at' + 4)
  fileRange bytes offset count width

/-- `0x19`. -/
def segmentCommand [UnstableSort] (bytes cmd : Bytes) (scan : CommandScan) :
    Result CommandScan := do
  let spent ← addBudget scan.budget.segments 1 maxSegments
  let (segment, budget) ← parseSegment bytes cmd { scan.budget with segments := spent }
  pure { scan with budget, segments := scan.segments ++ [segment] }

/-- `0x8000_0035`, in the outer image. -/
def filesetCommand (bytes cmd : Bytes) (size : Nat) (scan : CommandScan) :
    Result CommandScan := do
  rejectIf (size < 32) .invalidCommand
  rejectIf (scan.members.length = maxMembers) .limitExceeded
  let stringOffset ← u32At cmd 24
  rejectIf (stringOffset < 32 ∨ stringOffset ≥ size) .invalidIdentifier
  let reserved ← u32At cmd 28
  rejectIf (reserved ≠ 0) .invalidIdentifier
  let tail ← indexFrom cmd stringOffset
  let length ← ofOption .invalidIdentifier (tail.findIdx? (· = 0))
  rejectIf (length = 0 ∨ length > maxIdentifier) .invalidIdentifier
  let identifier ← index tail 0 length
  let memberOffset ← u64At cmd 16
  let address ← u64At cmd 8
  let _ ← range bytes memberOffset 32
  rejectIf (memberOffset = 0 ∨ scan.members.any fun m =>
    m.offset = memberOffset ∨ m.address = address ∨ m.identifier = identifier) .duplicateMember
  pure { scan with members := scan.members ++ [⟨identifier, memberOffset, address⟩] }

/-- The entry in a thread command: one flavor, count and state triple for each architecture. -/
def threadState (cmd : Bytes) : Profile → Result EntryMetadata
  | .x86_64 => do
    exactSize cmd 184
    let flavor ← u32At cmd 8
    rejectIf (flavor ≠ 4) .unsupportedThreadState
    let count ← u32At cmd 12
    rejectIf (count ≠ 42) .unsupportedThreadState
    let instructionPointer ← u64At cmd 144
    pure (.unixThread64 instructionPointer)
  | .arm64 => do
    rejectIf (cmd.length ≠ 288) .unsupportedThreadState
    let flavor ← u32At cmd 8
    rejectIf (flavor ≠ 6) .unsupportedThreadState
    let count ← u32At cmd 12
    rejectIf (count ≠ 68) .unsupportedThreadState
    let instructionPointer ← u64At cmd 272
    let stackPointer ← u64At cmd 264
    let cpsr ← u32At cmd 280
    let flags ← u32At cmd 284
    pure (.armThread64 instructionPointer stackPointer cpsr flags)

/-- `5`. -/
def threadCommand (cmd : Bytes) (profile : Profile) (scan : CommandScan) : Result CommandScan := do
  let value ← threadState cmd profile
  setEntry value scan

/-- `0x8000_0028`. -/
def mainCommand (cmd : Bytes) (scan : CommandScan) : Result CommandScan := do
  exactSize cmd 24
  let textOffset ← u64At cmd 8
  let stackSize ← u64At cmd 16
  setEntry (.main textOffset stackSize) scan

/-- `2`. -/
def symtabCommand (bytes cmd : Bytes) (scan : CommandScan) : Result CommandScan := do
  exactSize cmd 24
  rejectIf scan.symtab.isSome .invalidCommand
  let symbols ← commandRange bytes cmd 8 16
  let strings ← commandRange bytes cmd 16 1
  let count ← u32At cmd 12
  pure { scan with
    linkeditRanges := scan.linkeditRanges ++ [symbols, strings]
    symtab := some count }

/-- The tables of a `dysymtab` command: where it names them, and the width of an entry. -/
def dysymtabTables : List (Nat × Nat) := [(32, 8), (40, 56), (48, 4), (56, 4), (64, 8), (72, 8)]

/-- `0xb`. -/
def dysymtabCommand (bytes cmd : Bytes) (scan : CommandScan) : Result CommandScan := do
  exactSize cmd 80
  rejectIf scan.dysymtab.isSome .invalidCommand
  let tables ← collect (fun table => commandRange bytes cmd table.1 table.2) dysymtabTables
  pure { scan with
    linkeditRanges := scan.linkeditRanges ++ tables
    dysymtab := some cmd }

/-- `0x8000_0034`. -/
def fixupsCommand (bytes cmd : Bytes) (scan : CommandScan) : Result CommandScan := do
  exactSize cmd 16
  rejectIf scan.fixupRange.isSome .invalidCommand
  let r ← commandRange bytes cmd 8 1
  pure { scan with linkeditRanges := scan.linkeditRanges ++ [r], fixupRange := some r }

/-- A command of which only the size is checked. -/
def sizedCommand (cmd : Bytes) (expected : Nat) (scan : CommandScan) : Result CommandScan := do
  exactSize cmd expected
  pure scan

/-- `0x32`. -/
def buildVersionCommand (cmd : Bytes) (size : Nat) (scan : CommandScan) : Result CommandScan := do
  let _ ← slice cmd 0 24
  let tools ← u32At cmd 20
  let table ← mul tools 8
  let expected ← add 24 table
  rejectIf (expected ≠ size) .invalidCommand
  pure scan

/-- `0x1d`, `0x26` and `0x29`. -/
def linkeditCommand (bytes cmd : Bytes) (kind : Nat) (scan : CommandScan) :
    Result CommandScan := do
  exactSize cmd 16
  let n ← u32At cmd 12
  rejectIf (kind = 0x29 ∧ n % 8 ≠ 0) .invalidCommand
  let offset ← u32At cmd 8
  let r ← fileRange bytes offset n 1
  pure { scan with linkeditRanges := scan.linkeditRanges ++ [r] }

section Image

variable [UnstableSort] (bytes : Bytes) (outer : Bool) (profile : Profile)

/-- The `match` on the kind of a load command. -/
def loadCommand (kind size : Nat) (cmd : Bytes) (scan : CommandScan) : Result CommandScan :=
  if kind = 0x19 then segmentCommand bytes cmd scan
  else if kind = 0x80000035 ∧ outer then filesetCommand bytes cmd size scan
  else if kind = 5 then threadCommand cmd profile scan
  else if kind = 0x80000028 then mainCommand cmd scan
  else if kind = 2 then symtabCommand bytes cmd scan
  else if kind = 0xb then dysymtabCommand bytes cmd scan
  else if kind = 0x80000034 then fixupsCommand bytes cmd scan
  else if kind = 0x1b then sizedCommand cmd 24 scan
  else if kind = 0x24 ∨ kind = 0x2a then sizedCommand cmd 16 scan
  else if kind = 0x32 then buildVersionCommand cmd size scan
  else if kind = 0x1d ∨ kind = 0x26 ∨ kind = 0x29 then linkeditCommand bytes cmd kind scan
  else .err .unsupportedCommand

/-- One load command, at the offset of the scan. -/
def scanCommand (commands : Bytes) (scan : CommandScan) : Result CommandScan := do
  let kind ← u32At commands scan.offset
  let sizeAt ← add scan.offset 4
  let size ← u32At commands sizeAt
  rejectIf (size < 8 ∨ size % 8 ≠ 0) .invalidCommand
  let cmd ← slice commands scan.offset size
  let scan' ← loadCommand bytes outer profile kind size cmd scan
  let offset ← ofOption .overflow (checkedAdd scan.offset size)
  pure { scan' with offset }

/-- `for _ in 0..count`. -/
def scanCommands (commands : Bytes) : Nat → CommandScan → Result CommandScan
  | 0, scan => pure scan
  | count + 1, scan => do
    let scan ← scanCommand bytes outer profile commands scan
    scanCommands commands count scan

end Image

/-! ### Images -/

/-- The CPU subtypes of the ARM profile. -/
def armSubtypes : List Nat :=
  [0, 1, 2, 0x80000002, 0x81000002, 0xc0000002, 0xc1000002, 0xc2000002]

def validCpu (cpuType cpuSubtype : Nat) : Profile → Bool
  | .x86_64 => cpuType = 0x01000007 ∧ cpuSubtype = 3
  | .arm64 => cpuType = 0x0100000c ∧ cpuSubtype ∈ armSubtypes

def validateNonoverlap [UnstableSort] (segments : List SegmentMetadata) : Result Unit := do
  let byAddress := UnstableSort.sortByKey (·.address) (segments.filter (·.memorySize ≠ 0))
  forWindows (fun a b => do
    let stop ← rangeEnd a.address a.memorySize
    rejectIf (stop > b.address) .overlappingRange) byAddress
  let byFile := UnstableSort.sortByKey (·.file.offset) (segments.filter (·.file.size ≠ 0))
  forWindows (fun a b => do
    let hit ← overlaps a.file b.file
    rejectIf hit .overlappingRange) byFile

/-- The address that a segment gives the header, when it has the header and the commands. -/
def headerIn (base headerSize : Nat) (s : SegmentMetadata) : Result (Option Nat) :=
  if contains s.file ⟨base, headerSize⟩ then do
    let displacement ← sub base s.file.offset
    pure (checkedAdd s.address displacement)
  else pure none

/-- `*b"__LINKEDIT\0\0\0\0\0\0"`. -/
def linkeditName : Bytes := [95, 95, 76, 73, 78, 75, 69, 68, 73, 84, 0, 0, 0, 0, 0, 0]

/-- Whether a range is empty or in a linkedit segment. -/
def inLinkedit (segments : List SegmentMetadata) (r : FileRange) : Bool :=
  r.size = 0 ∨ segments.any fun s => s.name = linkeditName ∧ contains s.file r

/-- The relocation tables, when there is a `dysymtab`. -/
def parseRelocations (bytes : Bytes) (scan : CommandScan) : Result (Option RelocationMetadata) :=
  match scan.dysymtab with
  | none => pure none
  | some cmd => do
    let symbols ← ofOption .invalidLinkedit scan.symtab
    forEach (fun at' => do
      let first ← u32At cmd at'
      let count ← u32At cmd (at' + 4)
      let stop ← rangeEnd first count
      rejectIf (stop > symbols) .invalidLinkedit) [8, 16, 24]
    let localRange ← commandRange bytes cmd 72 8
    let external ← commandRange bytes cmd 64 8
    let localCount ← u32At cmd 76
    let externalCount ← u32At cmd 68
    pure (some ⟨localRange, external, localCount, externalCount⟩)

/-- `fixup_range.map(..).transpose()`. -/
def parseFixupRange (bytes : Bytes) (scan : CommandScan) (headerAddress : Nat) :
    Result (Option ChainedFixupMetadata) :=
  match scan.fixupRange with
  | none => pure none
  | some r => do
    let fixups ← parseFixups bytes r scan.segments headerAddress
    pure (some fixups)

/-- `parse_image`, with the budget it leaves. -/
def parseImage [UnstableSort] (bytes : Bytes) (base : Nat) (outer : Bool) (profile : Profile)
    (budget : Budget) : Result (ParsedImage × Budget) := do
  let h ← range bytes base 32
  let magic ← u32At h 0
  rejectIf (magic ≠ 0xfeedfacf) .unsupportedFormat
  let cpuType ← u32At h 4
  let cpuSubtype ← u32At h 8
  rejectIf (validCpu cpuType cpuSubtype profile = false) .unsupportedCpu
  let fileType ← u32At h 12
  rejectIf ((outer ∧ fileType ≠ 12) ∨ (¬ outer ∧ fileType ≠ 2 ∧ fileType ≠ 11))
    .unsupportedFileType
  let count ← u32At h 16
  let commandBytes ← u32At h 20
  let reserved ← u32At h 28
  rejectIf (reserved ≠ 0 ∨ commandBytes % 8 ≠ 0 ∨ count > commandBytes / 8) .invalidHeader
  let spent ← addBudget budget.commands count maxCommands
  rejectIf (commandBytes > maxCommandBytes) .limitExceeded
  let first ← rangeEnd base 32
  let commands ← range bytes first commandBytes
  let scan ← scanCommands bytes outer profile commands count
    (.start { budget with commands := spent })
  rejectIf (scan.offset ≠ commands.length ∨ scan.segments.isEmpty) .invalidHeader
  validateNonoverlap scan.segments
  let headerSize ← add 32 commandBytes
  let found ← findMapM (headerIn base headerSize) scan.segments
  let headerAddress ← ofOption .invalidHeader found
  rejectIf (scan.linkeditRanges.any fun r => inLinkedit scan.segments r = false) .invalidLinkedit
  rejectIf ((scan.segments.flatMap (·.sections)).any fun s =>
    inLinkedit scan.segments s.relocations = false) .invalidLinkedit
  let relocations ← parseRelocations bytes scan
  let chainedFixups ← parseFixupRange bytes scan headerAddress
  let flags ← u32At h 24
  pure (⟨⟨cpuType, cpuSubtype, base, headerAddress, fileType, flags, count, commandBytes,
    scan.segments, scan.entry, relocations, chainedFixups⟩, scan.members⟩, scan.budget)

/-! ### Collections -/

/-- Whether the entry lies in the file-backed bytes of an executable segment. -/
def entryIn (entry : EntryMetadata) (s : SegmentMetadata) : Bool :=
  if s.initialProtection &&& 4 = 0 then false
  else
    match entry with
    | .unixThread64 instructionPointer =>
      (checkedSub instructionPointer s.address).any (· < s.file.size)
    | .armThread64 instructionPointer .. =>
      instructionPointer % 4 = 0 ∧
        ((checkedSub instructionPointer s.address).bind (checkedAdd · 4)).any (· ≤ s.file.size)
    | .main .. => false

def validateCollectionEntry (image : ImageMetadata) : Result Unit := do
  let entry ← ofOption .missingEntry image.entry
  match entry with
  | .main .. => .err .unsupportedCollectionEntry
  | _ => rejectIf (image.segments.any (entryIn entry) = false) .invalidEntry

def isCollectionView (segments : List SegmentMetadata) (file : FileRange) (address : Nat) : Bool :=
  segments.any fun s =>
    contains s.file file ∧ checkedSub address s.address = checkedSub file.offset s.file.offset

/-- The mapping checks of one member segment. -/
def validateMemberSegment (segments : List SegmentMetadata) (segment : SegmentMetadata) :
    Result Unit := do
  rejectIf (segment.memorySize ≠ 0 ∧ ¬ segments.any fun s =>
    contains ⟨s.address, s.memorySize⟩ ⟨segment.address, segment.memorySize⟩) .invalidMemberMapping
  rejectIf (segment.file.size ≠ 0 ∧ ¬ isCollectionView segments segment.file segment.address)
    .invalidMemberMapping

/-- One member, with the budget it leaves. -/
def inspectMember [UnstableSort] (bytes : Bytes) (profile : Profile) (outer : ImageMetadata)
    (reference : MemberReference) (budget : Budget) : Result (FilesetMember × Budget) := do
  let (parsed, budget) ← parseImage bytes reference.offset false profile budget
  let child := parsed.image
  rejectIf (child.cpuSubtype ≠ outer.cpuSubtype) .unsupportedCpu
  rejectIf (child.headerAddress ≠ reference.address) .invalidMemberMapping
  let headerSize ← add 32 child.commandBytes
  let header : FileRange := ⟨reference.offset, headerSize⟩
  rejectIf (¬ isCollectionView outer.segments header reference.address) .invalidMemberMapping
  forEach (validateMemberSegment outer.segments) child.segments
  pure (⟨reference.identifier, child⟩, budget)

/-- `for reference in &outer.members`. -/
def inspectMembers [UnstableSort] (bytes : Bytes) (profile : Profile) (outer : ImageMetadata) :
    List MemberReference → Budget → Result (List FilesetMember)
  | [], _ => pure []
  | reference :: rest, budget => do
    let (member, budget) ← inspectMember bytes profile outer reference budget
    let members ← inspectMembers bytes profile outer rest budget
    pure (member :: members)

/-- `require`: a requirement is listed once. -/
def require (value : PreparationRequirement) (requirements : List PreparationRequirement) :
    List PreparationRequirement :=
  if value ∈ requirements then requirements else requirements ++ [value]

/-- The requirements that the fixups of an image add. -/
def requireFixups (fixups : ChainedFixupMetadata) (requirements : List PreparationRequirement) :
    List PreparationRequirement :=
  let requirements := require .chainedRebasing requirements
  let requirements :=
    if fixups.importsCount ≠ 0 then require .chainedImports requirements else requirements
  let requirements :=
    if fixups.symbolsFormat ≠ 0 then require .compressedFixupSymbols requirements
    else requirements
  fixups.segments.foldl (fun requirements segment =>
    if segment.pointerFormat ≠ 11 then
      require (.unsupportedPointerFormat segment.pointerFormat) requirements
    else requirements) requirements

/-- The requirements that an image adds. -/
def requireImage (requirements : List PreparationRequirement) (image : ImageMetadata) :
    List PreparationRequirement :=
  let requirements :=
    if image.relocations.any (fun r => r.localCount ≠ 0 ∨ r.externalCount ≠ 0) ∨
        image.segments.any (fun s => s.sections.any (·.relocations.size ≠ 0)) then
      require .classicRelocations requirements
    else requirements
  match image.chainedFixups with
  | some fixups => requireFixups fixups requirements
  | none => requirements

def inspectProfile [UnstableSort] (bytes : Bytes) (profile : Profile) :
    Result KcMetadataInspection := do
  rejectIf (bytes.length > maxInputSize) .inputTooLarge
  let (outer, budget) ← parseImage bytes 0 true profile ⟨0, 0, 0⟩
  validateCollectionEntry outer.image
  rejectIf outer.members.isEmpty .invalidHeader
  let members ← inspectMembers bytes profile outer.image outer.members budget
  let requirements := (outer.image :: members.map (·.image)).foldl requireImage
    [.collectionPlacement, .kernelEntryAbi, .platformHandoffProviders]
  pure ⟨outer.image, members, requirements⟩

/-- Inspect metadata of a thin generic x86_64 fileset and one member level. -/
def inspectKernelCollection [UnstableSort] (bytes : Bytes) : Result KcMetadataInspection :=
  inspectProfile bytes .x86_64

/-- Inspect a thin ARM64 fileset without executing or authenticating it. -/
def inspectArm64KernelCollection [UnstableSort] (bytes : Bytes) : Result KcMetadataInspection :=
  inspectProfile bytes .arm64

end Nextcore.KernelCollection
