import Nextcore.FixupAudit.Records
import Nextcore.KernelCollection.Inspect

/-!
The audit of classic and format-11 write targets (`src/kc_fixup_audit.rs`).

A method on `&mut self` is a function from the audit so far to the audit after it: an error
drops the whole audit, so what one leaves behind is not visible. The parts of `Audit` that no
method changes are the structure `Audit`; the record lists and the counters are `KcFixupAudit`.
-/

namespace Nextcore.FixupAudit

open Checked Checked.Outcome KernelCollection

/-! ### Mappings -/

structure Mapping where
  start : Nat
  stop : Nat
  fileEnd : Nat
  fileOffset : Nat
  deriving DecidableEq

/-- `add(a, b)`. -/
def addWord (a b : Nat) : Result Nat := ofOption .overflow (checkedAdd a b)

def mapping (s : SegmentMetadata) : Result Mapping := do
  let stop ← addWord s.address s.memorySize
  let fileEnd ← addWord s.address s.file.size
  pure ⟨s.address, stop, fileEnd, s.file.offset⟩

def mappings [UnstableSort] (segments : List SegmentMetadata) : Result (List Mapping) := do
  let maps ← collect mapping (segments.filter (·.memorySize ≠ 0))
  pure (UnstableSort.sortByKey (·.start) maps)

def containing (maps : List Mapping) (address width : Nat) : Option Mapping := do
  let m ← lastOfFront (·.start ≤ address) maps
  let stop ← checkedAdd address width
  if stop ≤ m.stop then some m else none

/-- The file range of a mapping was found inside the input, so the sum of an offset into it
is a word. -/
def fileLocation (maps : List Mapping) (address width : Nat) : Option Nat := do
  let m ← containing maps address width
  let stop ← checkedAdd address width
  if stop ≤ m.fileEnd then some (m.fileOffset + (address - m.start)) else none

/-! ### Reading -/

def raw (source : Bytes) (at' size : Nat) : Result Bytes := do
  let stop ← addWord at' size
  rejectIf (stop > source.length) .invalidMetadata
  index source at' stop

/-- `u16_at`, `u32_at` and `word_at`, by the width of the word. -/
def wordAt (source : Bytes) (at' width : Nat) : Result Nat := do
  let bytes ← raw source at' width
  pure (fromLeBytes bytes)

def pushBounded {α : Type} (items : List α) (value : α) (limit : Nat) : Result (List α × Nat) := do
  rejectIf (items.length ≥ limit) .limitExceeded
  pure (items ++ [value], items.length)

/-! ### The audit -/

/-- What an audit reads and does not change. -/
structure Audit where
  source : Bytes
  limits : AuditLimits
  outer : List Mapping
  executable : List (Nat × Nat)
  kext : List (Nat × Nat)

/-- Whether one of the sorted, separate ranges meets `[start, stop)`. -/
def intersects (ranges : List (Nat × Nat)) (start stop : Nat) : Bool :=
  (lastOfFront (·.1 < stop) ranges).any (start < ·.2)

/-- The arguments of `classic`, but for the mappings of the image. -/
structure ClassicRange where
  imageIndex : Nat
  sectionSize : Option Nat
  table : ClassicTable
  range : FileRange
  base : Option Nat

/-- The arguments of `chain`. -/
structure ChainStart where
  imageIndex : Nat
  segmentIndex : Nat
  pageIndex : Nat
  segment : SegmentMetadata
  pageSize : Nat
  start : Nat

namespace Audit

def issue (audit : Audit) (code : IssueCode) (image : Nat) (record related : Option Nat)
    (out : KcFixupAudit) : Result KcFixupAudit := do
  let (issues, _) ← pushBounded out.issues ⟨code, image, record, related⟩ audit.limits.issues
  pure { out with issues }

def pageStart (audit : Audit) (out : KcFixupAudit) : Result KcFixupAudit := do
  rejectIf (out.summary.pageStartsVisited ≥ audit.limits.pageStarts) .limitExceeded
  pure { out with
    summary := { out.summary with pageStartsVisited := out.summary.pageStartsVisited + 1 } }

def memberOverlap (audit : Audit) (address : Option Nat) (width : Nat) : MemberOverlap :=
  match address with
  | none => .outerOnly
  | some start =>
    match checkedAdd start width with
    | none => .outerOnly
    | some stop =>
      match intersects audit.executable start stop, intersects audit.kext start stop with
      | true, true => .both
      | true, false => .executableMember
      | false, true => .kextMember
      | false, false => .outerOnly

/-- `record`: the index of the record, and the audit with it. -/
def record (audit : Audit) (record : AuditRecord) (out : KcFixupAudit) :
    Result (Nat × KcFixupAudit) := do
  let (records, index) ← pushBounded out.records record audit.limits.records
  pure (index, { out with records, summary := out.summary.countRecord record })

/-! ### Classic relocations -/

/-- `1 << ((info >> 25) & 3)`. -/
def classicLength (info : Nat) : Nat := info >>> 25 &&& 3

/-- The address that an entry writes to. -/
def classicAddress (c : ClassicRange) (displacement : Int) : Option Nat :=
  c.base.bind (checkedAddSigned · displacement)

/-- Where the file has these bytes, when the image and the outer image agree about it. -/
def classicFile (audit : Audit) (maps : List Mapping) (address : Option Nat) (width : Nat) :
    Option Nat :=
  (address.bind (fileLocation maps · width)).filter fun file =>
    address.bind (fileLocation audit.outer · width) = some file

/-- `file.map(|off| word_at(self.source, off, width)).transpose()`. -/
def storedValue (audit : Audit) (width : Nat) : Option Nat → Result (Option Nat)
  | none => pure none
  | some file => do
    let word ← wordAt audit.source file width
    pure (some word)

/-- The record of an entry at `offset`, with its two words and the value found where it writes. -/
def classicRecord (audit : Audit) (maps : List Mapping) (c : ClassicRange) (offset : Nat)
    (displacement : Int) (info : Nat) (stored : Option Nat) : AuditRecord :=
  let width := 2 ^ classicLength info
  let address := classicAddress c displacement
  { imageIndex := c.imageIndex
    sourceRecordOffset := offset
    writeAddress := address
    writeFileOffset := audit.classicFile maps address width
    width := width
    memberOverlap := audit.memberOverlap address width
    detail := .classic c.table displacement (info &&& 0xffffff) (info >>> 28) (classicLength info)
      (info &&& 2 ^ 24 ≠ 0) (info &&& 2 ^ 27 ≠ 0) stored }

/-- What `classic` counts, besides the record. -/
def countClassic (displacement : Int) (info : Nat) (s : AuditSummary) : AuditSummary :=
  { s with
    classicRecords := s.classicRecords + 1
    classicTypes := bump s.classicTypes (info >>> 28)
    classicWidthExponents := bump s.classicWidthExponents (classicLength info)
    classicNegativeDisplacements := s.classicNegativeDisplacements + ofFlag (displacement < 0)
    classicPcRelative := s.classicPcRelative + ofFlag (info &&& 2 ^ 24 ≠ 0)
    classicExternal := s.classicExternal + ofFlag (info &&& 2 ^ 27 ≠ 0) }

/-- A code, if it applies. -/
def codeIf (p : Prop) [Decidable p] (code : IssueCode) : List IssueCode := if p then [code] else []

/-- Whether the bytes that an entry writes leave its section. -/
def leavesSection (displacement : Int) (width size : Nat) : Bool :=
  displacement < 0 ∨ (checkedAdd displacement.toNat width).all (size < ·) = true

/-- The codes of an entry, in order. -/
def classicCodes (audit : Audit) (maps : List Mapping) (c : ClassicRange) (displacement : Int)
    (info : Nat) : List IssueCode :=
  let width := 2 ^ classicLength info
  let address := classicAddress c displacement
  codeIf (info >>> 28 ≠ 0) .unsupportedClassicType ++
    codeIf (classicLength info < 2) .unsupportedClassicWidth ++
    codeIf (info &&& 2 ^ 24 ≠ 0) .unsupportedPcRelative ++
    codeIf (info &&& 2 ^ 27 ≠ 0 ∨ c.table = .externalDynamic) .unsupportedExternal ++
    (if c.base = none then [.missingClassicBase]
      else codeIf (address = none) .writeAddressOverflow) ++
    codeIf (c.table = .section ∧ displacement < 0) .negativeSectionDisplacement ++
    codeIf (c.sectionSize.any (leavesSection displacement width)) .writeOutsideSection ++
    codeIf (audit.classicFile maps address width = none) .writeOutsideFileMapping

/-- One entry, at the given place in its table. -/
def classicEntry (audit : Audit) (maps : List Mapping) (c : ClassicRange) (out : KcFixupAudit)
    (at' : Nat) : Result KcFixupAudit := do
  let offset ← addWord c.range.offset at'
  let word ← wordAt audit.source offset 4
  let infoOffset ← add offset 4
  let info ← wordAt audit.source infoOffset 4
  let displacement := asI32 word
  let width := 2 ^ classicLength info
  let stored ← audit.storedValue width
    (audit.classicFile maps (classicAddress c displacement) width)
  let (index, out) ← audit.record (audit.classicRecord maps c offset displacement info stored) out
  let out := { out with summary := countClassic displacement info out.summary }
  (audit.classicCodes maps c displacement info).foldlM
    (fun out code => audit.issue code c.imageIndex (some index) none out) out

/-- `(0..size).step_by(8)`. -/
def entryOffsets (size : Nat) : List Nat := (List.range (divCeil size 8)).map (· * 8)

def classic (audit : Audit) (maps : List Mapping) (out : KcFixupAudit) (c : ClassicRange) :
    Result KcFixupAudit :=
  (entryOffsets c.range.size).foldlM (audit.classicEntry maps c) out

/-! ### Chained words -/

/-- `((word >> 30) & 3)`. -/
def cacheLevel (word : Nat) : Nat := word >>> 30 &&& 3

/-- `((word >> 51) & 0xfff)`. -/
def nextOffset (word : Nat) : Nat := word >>> 51 &&& 0xfff

/-- The target of a word, where its cache has a base. -/
def resolvedTarget (primaryBase word : Nat) : Option Nat :=
  if cacheLevel word = 0 ∧ primaryBase ≠ 0 then checkedAdd primaryBase (word &&& 0x3fffffff)
  else none

def targetCovered (audit : Audit) (primaryBase word : Nat) : Bool :=
  (resolvedTarget primaryBase word).any fun target => (containing audit.outer target 1).isSome

/-- The address and the file offset of the word at an offset in its page, when it lies in the
file bytes of its segment and the outer image agrees about them. -/
def chainLocation (audit : Audit) (c : ChainStart) (pageOffset inPage : Nat) :
    Result (Option (Nat × Nat)) := do
  let segmentOffset ← addWord pageOffset inPage
  if (checkedAdd segmentOffset 8).all
      (fun stop => stop > c.segment.file.size ∨ stop > c.segment.memorySize) = true then
    pure none
  else do
    let address ← addWord c.segment.address segmentOffset
    let file ← addWord c.segment.file.offset segmentOffset
    if fileLocation audit.outer address 8 ≠ some file then pure none
    else pure (some (address, file))

def chainRecord (audit : Audit) (c : ChainStart) (primaryBase address file word : Nat) :
    AuditRecord where
  imageIndex := c.imageIndex
  sourceRecordOffset := file
  writeAddress := some address
  writeFileOffset := some file
  width := 8
  memberOverlap := audit.memberOverlap (some address) 8
  detail := .chain11 c.segmentIndex c.pageIndex (word &&& 0x3fffffff) (cacheLevel word)
    (word >>> 32 &&& 0xffff) (word &&& 2 ^ 48 ≠ 0) (word >>> 49 &&& 3) (nextOffset word)
    (word >>> 63 ≠ 0) (resolvedTarget primaryBase word) (audit.targetCovered primaryBase word)

/-- What a chained word counts, besides the record. -/
def countChain (c : ChainStart) (inPage word : Nat) (covered : Bool) (s : AuditSummary) :
    AuditSummary :=
  { s with
    chainRecords := s.chainRecords + 1
    chainPageStraddlingWords := s.chainPageStraddlingWords + ofFlag (inPage + 8 > c.pageSize)
    chainCacheLevels := bump s.chainCacheLevels (cacheLevel word)
    authenticatedWords := s.authenticatedWords + ofFlag (word >>> 63 ≠ 0)
    primaryPointerTargetsCovered := s.primaryPointerTargetsCovered + ofFlag covered }

/-- The codes of a chained word, in order. -/
def chainCodes (audit : Audit) (primaryBase word : Nat) : List IssueCode :=
  (if cacheLevel word ≠ 0 ∨ primaryBase = 0 then [.missingCacheBase]
    else if resolvedTarget primaryBase word = none then [.pointerTargetOverflow]
    else codeIf (audit.targetCovered primaryBase word = false) .pointerTargetOutsideMappings) ++
  codeIf (word >>> 63 ≠ 0) .unsupportedAuthentication

/-- A word that was found: its link, and the audit with its record. -/
def chainWord (audit : Audit) (c : ChainStart) (inPage address file : Nat) (out : KcFixupAudit) :
    Result (Nat × KcFixupAudit) := do
  let word ← wordAt audit.source file 8
  let primaryBase := out.primaryBase
  let (index, out) ← audit.record (audit.chainRecord c primaryBase address file word) out
  let out := { out with
    summary := countChain c inPage word (audit.targetCovered primaryBase word) out.summary }
  let out ← (audit.chainCodes primaryBase word).foldlM
    (fun out code => audit.issue code c.imageIndex (some index) none out) out
  pure (nextOffset word, out)

/-- One round of the loop, at an offset in the page: the link to follow, or zero where the walk
ends. -/
def chainStep (audit : Audit) (c : ChainStart) (pageOffset inPage : Nat) (out : KcFixupAudit) :
    Result (Nat × KcFixupAudit) := do
  let location ← audit.chainLocation c pageOffset inPage
  match location with
  | none => do
    let out ← audit.issue .chainOutsideFileMapping c.imageIndex none none out
    pure (0, out)
  | some (address, file) => do
    let (next, out) ← audit.chainWord c inPage address file out
    let terminated := out.summary.chainsTerminated + ofFlag (next = 0)
    pure (next, { out with summary := { out.summary with chainsTerminated := terminated } })

/-- The loop over the words of a chain, from an offset in the page on. A terminal unaligned word
may straddle the page; the next starts cannot leave it. -/
def chainFrom (audit : Audit) (c : ChainStart) (pageOffset inPage : Nat) (out : KcFixupAudit) :
    Result KcFixupAudit :=
  if _ : c.pageSize ≤ inPage then audit.issue .chainOutsidePage c.imageIndex none none out
  else do
    let (next, out) ← audit.chainStep c pageOffset inPage out
    if _ : next = 0 then pure out
    else
      match _ : checkedAdd inPage next with
      | none => .err .overflow
      | some inPage' => audit.chainFrom c pageOffset inPage' out
termination_by c.pageSize - inPage
decreasing_by
  obtain ⟨_, rfl⟩ := checkedAdd_eq_some.mp ‹_›
  omega

def chain (audit : Audit) (c : ChainStart) (out : KcFixupAudit) : Result KcFixupAudit := do
  let out := { out with summary := { out.summary with chainStarts := out.summary.chainStarts + 1 } }
  let pageOffset ← ofOption .overflow (checkedMul c.pageIndex c.pageSize)
  audit.chainFrom c pageOffset c.start out

/-! ### Images -/

/-- Where the starts of a segment lie in the source. -/
structure StartTable where
  imageIndex : Nat
  segmentIndex : Nat
  segment : SegmentMetadata
  pageSize : Nat
  info : Nat
  infoEnd : Nat

/-- A chain of a page. -/
def StartTable.chainAt (table : StartTable) (page start : Nat) : ChainStart :=
  ⟨table.imageIndex, table.segmentIndex, page, table.segment, table.pageSize, start⟩

/-- The loop over the chain starts of a page that has several. -/
def walkStarts (audit : Audit) (table : StartTable) (page at' : Nat) (out : KcFixupAudit) :
    Result KcFixupAudit := do
  let out ← audit.pageStart out
  match room : checkedAdd at' 2 with
  | none => .err .overflow
  | some stop =>
    if beyond : stop > table.infoEnd then .err .invalidMetadata
    else do
      let start ← wordAt audit.source at' 2
      let out ← audit.chain (table.chainAt page (start &&& 0x7fff)) out
      if start &&& 0x8000 ≠ 0 then pure out else audit.walkStarts table page stop out
termination_by table.infoEnd - at'
decreasing_by
  obtain ⟨_, rfl⟩ := checkedAdd_eq_some.mp room
  omega

/-- One page of a segment with fixups. -/
def fixupPage (audit : Audit) (table : StartTable) (out : KcFixupAudit) (page : Nat) :
    Result KcFixupAudit := do
  let out ← audit.pageStart out
  let entry ← addWord table.info (22 + page * 2)
  let first ← wordAt audit.source entry 2
  if first = 0xffff then pure out
  else if first &&& 0x8000 = 0 then audit.chain (table.chainAt page first) out
  else do
    let out := { out with
      summary := { out.summary with multiStartPages := out.summary.multiStartPages + 1 } }
    let out ← audit.issue .unsupportedMultiStartConsumer table.imageIndex none none out
    let at' ← addWord table.info (22 + (first &&& 0x7fff) * 2)
    audit.walkStarts table page at' out

/-- One segment with fixups. -/
def fixupSegment (audit : Audit) (index : Nat) (image : ImageMetadata) (starts : Nat)
    (out : KcFixupAudit) (info : FixupSegmentMetadata) : Result KcFixupAudit :=
  if info.pointerFormat ≠ 11 then audit.issue .unsupportedPointerFormat index none none out
  else do
    let segment ← expect image.segments[info.segmentIndex]?
    rejectIf (info.segmentOffset ≠ wrappingSub segment.address image.headerAddress)
      .invalidMetadata
    let entry ← addWord starts (4 + info.segmentIndex * 4)
    let offset ← wordAt audit.source entry 4
    let table ← addWord starts offset
    let size ← wordAt audit.source table 4
    let tableEnd ← addWord table size
    (List.range info.pageCount).foldlM
      (audit.fixupPage ⟨index, info.segmentIndex, segment, info.pageSize, table, tableEnd⟩) out

/-- `if condition { self.issue(code, index, None, None)? }`. -/
def issueIf (audit : Audit) (p : Prop) [Decidable p] (code : IssueCode) (index : Nat)
    (out : KcFixupAudit) : Result KcFixupAudit :=
  if p then audit.issue code index none none out else pure out

/-- The chained fixups of an image. -/
def imageFixups (audit : Audit) (index : Nat) (image : ImageMetadata) (out : KcFixupAudit) :
    Result KcFixupAudit :=
  match image.chainedFixups with
  | none => pure out
  | some fixups => do
    let out ← audit.issueIf (fixups.importsCount ≠ 0) .unsupportedImports index out
    let out ← audit.issueIf (fixups.symbolsFormat ≠ 0) .unsupportedCompressedSymbols index out
    let startsOffset ← add fixups.file.offset 4
    let relative ← wordAt audit.source startsOffset 4
    let starts ← addWord fixups.file.offset relative
    fixups.segments.foldlM (audit.fixupSegment index image starts) out

/-- The address that the dynamic entries of an image are relative to. -/
def classicBase (image : ImageMetadata) : Option Nat :=
  if image.fileType = 11 then image.segments.head?.map (·.address)
  else (image.segments.find? (·.initialProtection &&& 2 ≠ 0)).map (·.address)

/-- The tables of classic entries of an image, in the order in which they are read. -/
def classicRanges (index : Nat) (image : ImageMetadata) : List ClassicRange :=
  (match image.relocations with
    | none => []
    | some relocations =>
      [⟨index, none, .localDynamic, relocations.localRange, classicBase image⟩,
        ⟨index, none, .externalDynamic, relocations.external, classicBase image⟩]) ++
  image.segments.flatMap fun segment => segment.sections.map fun s =>
    ⟨index, some s.size, .section, s.relocations, some s.address⟩

def image [UnstableSort] (audit : Audit) (out : KcFixupAudit) (entry : ImageMetadata × Nat) :
    Result KcFixupAudit := do
  let maps ← mappings entry.1.segments
  let out ← (classicRanges entry.2 entry.1).foldlM (audit.classic maps) out
  audit.imageFixups entry.2 entry.1 out

/-! ### Overlaps -/

/-- What the pass over the ordered records carries: for each mechanism the record that reaches
furthest, with where it ends, and the last chained word. -/
structure Sweep where
  classic : Option (Nat × Nat)
  chained : Option (Nat × Nat)
  lastChain : Option (Nat × Nat)
  out : KcFixupAudit

def isChained : RecordDetail → Bool
  | .classic .. => false
  | .chain11 .. => true

/-- `furthest[mechanism]`. -/
def Sweep.furthest (sweep : Sweep) (chained : Bool) : Option (Nat × Nat) :=
  if chained then sweep.chained else sweep.classic

/-- `furthest[mechanism] = Some((end, index))`, if the record reaches further. -/
def Sweep.reach (sweep : Sweep) (chained : Bool) (stop index : Nat) : Sweep :=
  if (sweep.furthest chained).all (·.1 < stop) then
    if chained then { sweep with chained := some (stop, index) }
    else { sweep with classic := some (stop, index) }
  else sweep

/-- The issue of a chained word at the address of the last one. -/
def duplicateIssue (audit : Audit) (sweep : Sweep) (r : AuditRecord) (address index : Nat) :
    Result Sweep :=
  if isChained r.detail then do
    let out ← match sweep.lastChain with
      | none => pure sweep.out
      | some (prior, other) =>
        if prior = address then
          audit.issue .duplicateChainVisit r.imageIndex (some index) (some other) sweep.out
        else pure sweep.out
    pure { sweep with lastChain := some (address, index), out }
  else pure sweep

/-- The issue of a record that runs into the one of a mechanism that reaches furthest. -/
def overlapIssue (audit : Audit) (r : AuditRecord) (address index : Nat) (kind : Bool)
    (sweep : Sweep) : Result Sweep :=
  match sweep.furthest kind with
  | none => pure sweep
  | some (priorEnd, other) =>
    if priorEnd > address then do
      let code : IssueCode := if kind = isChained r.detail then .sameMechanismWriteOverlap
        else .crossMechanismWriteOverlap
      let out ← audit.issue code r.imageIndex (some index) (some other) sweep.out
      pure { sweep with out }
    else pure sweep

/-- One record of the pass. -/
def sweepRecord (audit : Audit) (sweep : Sweep) (place : Nat × Nat) : Result Sweep := do
  let r ← expect sweep.out.records[place.2]?
  let address ← expect r.writeAddress
  let stop ← addWord address r.width
  let sweep ← audit.duplicateIssue sweep r address place.2
  let sweep ← audit.overlapIssue r address place.2 false sweep
  let sweep ← audit.overlapIssue r address place.2 true sweep
  pure (sweep.reach (isChained r.detail) stop place.2)

/-- The keys of the records that write to the file, each with its index: their addresses. -/
def writeKeys (records : List AuditRecord) : Result (List (Nat × Nat)) :=
  collect (fun entry => do
    let address ← expect entry.1.writeAddress
    pure (address, entry.2)) (records.zipIdx.filter (·.1.writeFileOffset.isSome))

def overlaps (audit : Audit) (out : KcFixupAudit) : Result KcFixupAudit := do
  let keys ← writeKeys out.records
  let sweep ← (sortPairs keys).foldlM audit.sweepRecord ⟨none, none, none, out⟩
  let out := sweep.out
  let issueCounts := out.issues.foldl (fun counts issue => countIssue issue.code counts)
    out.summary.issueCounts
  pure { out with summary := { out.summary with issueCounts } }

end Audit

/-! ### Collections -/

/-- Ranges that meet or touch, made one. -/
def mergeOnto (last : Nat × Nat) : List (Nat × Nat) → List (Nat × Nat)
  | [] => [last]
  | (start, stop) :: rest =>
    if start ≤ last.2 then mergeOnto (last.1, max last.2 stop) rest
    else last :: mergeOnto (start, stop) rest

def mergeRanges : List (Nat × Nat) → List (Nat × Nat)
  | [] => []
  | first :: rest => mergeOnto first rest

def memberRanges (inspection : KcMetadataInspection) (fileType : Nat) :
    Result (List (Nat × Nat)) := do
  let members := inspection.members.filter (·.image.fileType = fileType)
  let segments := members.flatMap fun m => m.image.segments.filter (·.memorySize ≠ 0)
  let ranges ← segments.foldlM (fun ranges s => do
    let stop ← addWord s.address s.memorySize
    let (ranges, _) ← pushBounded ranges (s.address, stop) 4096
    pure ranges) []
  pure (mergeRanges (sortPairs ranges))

/-- The images of a collection, each with its index. -/
def images (inspection : KcMetadataInspection) : List (ImageMetadata × Nat) :=
  (inspection.collection :: inspection.members.map (·.image)).zipIdx

def auditKernelCollectionWithLimits [UnstableSort] (source : Bytes) (limits : AuditLimits) :
    Result KcFixupAudit := do
  rejectIf (limits.records = 0 ∨ limits.records > maxAuditRecords ∨ limits.issues = 0 ∨
    limits.issues > maxAuditIssues ∨ limits.pageStarts = 0 ∨
    limits.pageStarts > maxAuditPageStarts) .invalidLimits
  let inspection ← (inspectKernelCollection source).mapErr .metadata
  let primaryBase ← ofOption .invalidMetadata
    (inspection.collection.segments.map (·.address)).min?
  let outer ← mappings inspection.collection.segments
  let executable ← memberRanges inspection 2
  let kext ← memberRanges inspection 11
  let audit : Audit := ⟨source, limits, outer, executable, kext⟩
  let out ← (images inspection).foldlM audit.image ⟨.zero, [], [], primaryBase⟩
  audit.overlaps out

/-- Audit a single primary collection in its linked address space. -/
def auditKernelCollection [UnstableSort] (source : Bytes) : Result KcFixupAudit :=
  auditKernelCollectionWithLimits source .default

end Nextcore.FixupAudit
