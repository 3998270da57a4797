import Nextcore.KernelCollection.Reading
import Nextcore.Lib.Sort

/-!
Parsing one image: its header, its load commands, its segments and its chained fixups.

The loops of the source are folds; `CommandScan` is what `parse_image` carries from one
load command to the next, and each arm of its `match` is a definition of its own. A `?`
inside a chain of `||` is made where the source makes it, between the tests around it.
-/

namespace Nextcore.KernelCollection

open Checked Checked.Outcome

/-! ### Segments -/

/-- The checks that `parse_segment` makes of one section. -/
def parseSection (bytes cmd : Bytes) (address memorySize : Nat) (file : FileRange) (s : Bytes) :
    Result SectionMetadata := do
  let sa ← u64At s 32
  let size ← u64At s 40
  let sectionOffset ← u32At s 48
  let align ← u32At s 52
  let sectionFlags ← u32At s 64
  let segmentName ← index s 16 32
  let name ← index cmd 8 24
  rejectIf (segmentName ≠ name ∨ sa < address) .invalidSection
  let sectionEnd ← rangeEnd sa size
  let memoryEnd ← rangeEnd address memorySize
  rejectIf (sectionEnd > memoryEnd) .invalidSection
  rejectIf (align ≥ 64) .invalidSection
  let bit ← shl 1 align
  let mask ← sub bit 1
  rejectIf (sa &&& mask ≠ 0) .invalidSection
  if sectionFlags &&& 0xff ∉ [1, 0xc, 0x12] ∧ size ≠ 0 then do
    rejectIf (contains file ⟨sectionOffset, size⟩ = false) .invalidSection
    let fileDistance ← sub sectionOffset file.offset
    let distance ← sub sa address
    rejectIf (fileDistance ≠ distance) .invalidSection
  let relocations ← do
    let offset ← u32At s 56
    let count ← u32At s 60
    fileRange bytes offset count 8
  pure ⟨sa, size, sectionOffset, sectionFlags, relocations⟩

/-- `parse_segment`, with the budget it leaves. -/
def parseSegment [UnstableSort] (bytes cmd : Bytes) (budget : Budget) :
    Result (SegmentMetadata × Budget) := do
  let _ ← slice cmd 0 72
  let count ← u32At cmd 64
  let spent ← addBudget budget.sections count maxSections
  let table ← mul count 80
  let expected ← add 72 table
  rejectIf (expected ≠ cmd.length) .invalidCommand
  let address ← u64At cmd 24
  let memorySize ← u64At cmd 32
  let file ← do
    let offset ← u64At cmd 40
    let size ← u64At cmd 48
    fileRange bytes offset size 1
  let maximumProtection ← u32At cmd 56
  let initialProtection ← u32At cmd 60
  let flags ← u32At cmd 68
  let _ ← rangeEnd address memorySize
  rejectIf (file.size > memorySize ∨ andNot maximumProtection 7 ≠ 0 ∨
    andNot initialProtection maximumProtection ≠ 0) .invalidSegment
  rejectIf (andNot flags 4 ≠ 0) .unsupportedSegmentFlags
  let table ← indexFrom cmd 72
  let sections ← collect (parseSection bytes cmd address memorySize file) (chunksExact table 80)
  let ordered := UnstableSort.sortByKey (·.address) (sections.filter (·.size ≠ 0))
  forWindows (fun a b => do
    let stop ← rangeEnd a.address a.size
    rejectIf (stop > b.address) .overlappingRange) ordered
  let name ← index cmd 8 24
  pure (⟨name, address, memorySize, file, maximumProtection, initialProtection, flags, sections⟩,
    { budget with sections := spent })

/-! ### Chained fixups -/

/-- The width of the field that a page start points at. -/
def pageStartWidth (format : Nat) : Nat := if format = 8 ∨ format = 11 then 8 else 1

def validatePageStart (offset pageSize backedBytes format : Nat) : Result Unit := do
  rejectIf (offset ≥ pageSize) .invalidFixups
  let stop ← add offset (pageStartWidth format)
  rejectIf (stop > backedBytes) .invalidFixups

/-- The loop over the chain starts of a page that has several. `remaining` is what is left of
`available` at the cursor; the loop ends with the start that carries the last bit. -/
def walkStarts (info : Bytes) (pageSize backedBytes format : Nat) :
    (remaining cursor visits : Nat) → Result Nat
  | 0, _, visits => do
    let _ ← addBudget visits 1 maxPageStartVisits
    .err .invalidFixups
  | remaining + 1, cursor, visits => do
    let visits ← addBudget visits 1 maxPageStartVisits
    let step ← mul cursor 2
    let valueAt ← add 22 step
    let value ← u16At info valueAt
    validatePageStart (value &&& 0x7fff) pageSize backedBytes format
    if value &&& 0x8000 ≠ 0 then pure visits
    else do
      let cursor ← add cursor 1
      walkStarts info pageSize backedBytes format remaining cursor visits

/-- What the loop over the pages of a segment carries. -/
structure PageScan where
  pagesWithFixups : Nat
  multipleStartPages : Nat
  startVisits : Nat

/-- One page of a segment with fixups. -/
def scanPage (info : Bytes) (segment : SegmentMetadata) (pageSize pageCount format available : Nat)
    (scan : PageScan) (page : Nat) : Result PageScan := do
  let visits ← addBudget scan.startVisits 1 maxPageStartVisits
  let step ← mul page 2
  let firstAt ← add 22 step
  let first ← u16At info firstAt
  if first = 0xffff then pure { scan with startVisits := visits }
  else do
    let pagesWithFixups ← addU32 scan.pagesWithFixups 1
    let pageOffset ← mul page pageSize
    -- `saturating_sub` is the subtraction of naturals.
    let backedBytes := min (segment.file.size - pageOffset) (segment.memorySize - pageOffset)
    if first &&& 0x8000 = 0 then do
      validatePageStart first pageSize backedBytes format
      pure ⟨pagesWithFixups, scan.multipleStartPages, visits⟩
    else do
      let multipleStartPages ← addU32 scan.multipleStartPages 1
      let cursor := first &&& 0x7fff
      rejectIf (cursor < pageCount) .invalidFixups
      let visits ← walkStarts info pageSize backedBytes format (available - cursor) cursor visits
      pure ⟨pagesWithFixups, multipleStartPages, visits⟩

/-- What the loop over the segments of `parse_fixups` carries. -/
structure FixupScan where
  infoRanges : List FileRange
  result : List FixupSegmentMetadata
  startVisits : Nat

/-- The fixed parts of a fixup blob that the loop over its segments reads. -/
structure FixupTable where
  data : Bytes
  starts : Nat
  tableSize : Nat
  importRange : FileRange
  symbolRange : FileRange
  headerAddress : Nat

/-- One segment of a fixup blob. -/
def scanFixupSegment (table : FixupTable) (scan : FixupScan) (entry : SegmentMetadata × Nat) :
    Result FixupScan := do
  let (segment, position) := entry
  let entries ← add table.starts 4
  let step ← mul position 4
  let relativeAt ← add entries step
  let relative ← u32At table.data relativeAt
  if relative = 0 then pure scan
  else do
    rejectIf (relative < table.tableSize) .invalidFixups
    let start ← ofOption .overflow (checkedAdd table.starts relative)
    let size ← u32At table.data start
    rejectIf (size < 22) .invalidFixups
    let room ← sub size 22
    rejectIf (room % 2 ≠ 0) .invalidFixups
    let info ← slice table.data start size
    let ir : FileRange := ⟨start, size⟩
    let hit ← anyM (overlaps · ir) scan.infoRanges
    rejectIf hit .invalidFixups
    let hit ← overlaps ir table.importRange
    rejectIf hit .invalidFixups
    let hit ← overlaps ir table.symbolRange
    rejectIf hit .invalidFixups
    let pageSize ← u16At info 4
    let pointerFormat ← u16At info 6
    let segmentOffset ← u64At info 8
    let pageCount ← u16At info 20
    rejectIf (segmentOffset ≠ wrappingSub segment.address table.headerAddress ∨
      pageSize ∉ [4096, 16384]) .invalidFixups
    let reserved ← u32At info 16
    rejectIf (reserved ≠ 0 ∨ pageCount > divCeil segment.memorySize pageSize) .invalidFixups
    let available := room / 2
    rejectIf (pageCount > available) .invalidFixups
    let pages ← (List.range pageCount).foldlM
      (scanPage info segment pageSize pageCount pointerFormat available) ⟨0, 0, scan.startVisits⟩
    pure ⟨scan.infoRanges ++ [ir],
      scan.result ++ [⟨position, pointerFormat, pageSize, pageCount, pages.pagesWithFixups,
        pages.multipleStartPages, segmentOffset⟩], pages.startVisits⟩

/-- The width of one import, by format. -/
def importWidth : Nat → Option Nat
  | 1 => some 4
  | 2 => some 8
  | 3 => some 16
  | _ => none

def parseFixups (bytes : Bytes) (file : FileRange) (segments : List SegmentMetadata)
    (headerAddress : Nat) : Result ChainedFixupMetadata := do
  rejectIf (file.size > maxFixupBytes) .limitExceeded
  let data ← range bytes file.offset file.size
  let _ ← slice data 0 28
  let version ← u32At data 0
  rejectIf (version ≠ 0) .unsupportedFixupVersion
  let starts ← u32At data 4
  let imports ← u32At data 8
  let symbols ← u32At data 12
  let importsCount ← u32At data 16
  let importsFormat ← u32At data 20
  let symbolsFormat ← u32At data 24
  rejectIf (starts < 28 ∨ imports < 28 ∨ symbols < 28 ∨ symbols > data.length ∨
    symbolsFormat > 1) .invalidFixups
  let importWidth ← ofOption .invalidFixups (importWidth importsFormat)
  let importRange ← fileRange data imports importsCount importWidth
  let symbolSize ← sub data.length symbols
  let symbolRange : FileRange := ⟨symbols, symbolSize⟩
  let hit ← overlaps importRange symbolRange
  rejectIf hit .invalidFixups
  let count ← u32At data starts
  rejectIf (count ≠ segments.length) .invalidFixups
  let entries ← mul count 4
  let tableSize ← add 4 entries
  let _ ← slice data starts tableSize
  let tableRange : FileRange := ⟨starts, tableSize⟩
  let hit ← overlaps tableRange importRange
  rejectIf hit .invalidFixups
  let hit ← overlaps tableRange symbolRange
  rejectIf hit .invalidFixups
  let scan ← segments.zipIdx.foldlM
    (scanFixupSegment ⟨data, starts, tableSize, importRange, symbolRange, headerAddress⟩)
    ⟨[], [], 0⟩
  pure ⟨file, importsCount, importsFormat, symbolsFormat, scan.result⟩

end Nextcore.KernelCollection
