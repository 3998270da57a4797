import Nextcore.KernelCollection.Metadata

/-!
What a fixup audit returns (`src/kc_fixup_audit.rs`): its limits, records, issues and counters.
The counters count records, issues and page starts, all of which the limits bound far below a
word; they are naturals.
-/

namespace Nextcore.FixupAudit

open Checked KernelCollection

def maxAuditRecords : Nat := 1000000
def maxAuditIssues : Nat := 1000000
def maxAuditPageStarts : Nat := 1000000

structure AuditLimits where
  records : Nat
  issues : Nat
  pageStarts : Nat
  deriving DecidableEq

def AuditLimits.default : AuditLimits := ⟨maxAuditRecords, maxAuditIssues, maxAuditPageStarts⟩

inductive AuditError where
  | metadata (error : KcMetadataError)
  | invalidLimits
  | limitExceeded
  | invalidMetadata
  | overflow
  deriving DecidableEq

abbrev Result (α : Type) := Outcome AuditError α

inductive IssueCode where
  | unsupportedClassicType
  | unsupportedClassicWidth
  | unsupportedPcRelative
  | unsupportedExternal
  | missingClassicBase
  | negativeSectionDisplacement
  | writeOutsideSection
  | writeOutsideFileMapping
  | writeAddressOverflow
  | unsupportedPointerFormat
  | unsupportedImports
  | unsupportedCompressedSymbols
  | unsupportedMultiStartConsumer
  | chainOutsidePage
  | chainOutsideFileMapping
  | duplicateChainVisit
  | missingCacheBase
  | unsupportedAuthentication
  | pointerTargetOverflow
  | pointerTargetOutsideMappings
  | sameMechanismWriteOverlap
  | crossMechanismWriteOverlap
  deriving DecidableEq

structure AuditIssue where
  code : IssueCode
  imageIndex : Nat
  recordIndex : Option Nat
  relatedRecordIndex : Option Nat
  deriving DecidableEq

inductive ClassicTable where
  | localDynamic
  | externalDynamic
  | section
  deriving DecidableEq

inductive MemberOverlap where
  | executableMember
  | kextMember
  | both
  | outerOnly
  deriving DecidableEq

inductive RecordDetail where
  | classic (table : ClassicTable) (displacement : Int) (symbolOrdinal relocationType : Nat)
      (lengthExponent : Nat) (pcRelative external : Bool) (storedValue : Option Nat)
  | chain11 (segmentIndex pageIndex targetOffset cacheLevel diversity : Nat)
      (addressDiversity : Bool) (key next : Nat) (authenticated : Bool)
      (resolvedTarget : Option Nat) (targetInPrimaryMapping : Bool)
  deriving DecidableEq

structure AuditRecord where
  /-- Zero is outer; `n + 1` is the nth fileset member. -/
  imageIndex : Nat
  sourceRecordOffset : Nat
  writeAddress : Option Nat
  writeFileOffset : Option Nat
  width : Nat
  memberOverlap : MemberOverlap
  detail : RecordDetail
  deriving DecidableEq

structure IssueCount where
  code : IssueCode
  count : Nat
  deriving DecidableEq

structure AuditSummary where
  classicRecords : Nat
  classicNegativeDisplacements : Nat
  classicTypes : List Nat
  classicWidthExponents : List Nat
  classicPcRelative : Nat
  classicExternal : Nat
  chainRecords : Nat
  chainStarts : Nat
  chainsTerminated : Nat
  chainPageStraddlingWords : Nat
  pageStartsVisited : Nat
  multiStartPages : Nat
  chainCacheLevels : List Nat
  authenticatedWords : Nat
  primaryPointerTargetsCovered : Nat
  fileBackedWriteRecords : Nat
  executableMemberWriteRecords : Nat
  kextMemberWriteRecords : Nat
  bothMemberWriteRecords : Nat
  outerOnlyWriteRecords : Nat
  issueCounts : List IssueCount
  deriving DecidableEq

/-- `AuditSummary::default()`. -/
def AuditSummary.zero : AuditSummary where
  classicRecords := 0
  classicNegativeDisplacements := 0
  classicTypes := List.replicate 16 0
  classicWidthExponents := List.replicate 4 0
  classicPcRelative := 0
  classicExternal := 0
  chainRecords := 0
  chainStarts := 0
  chainsTerminated := 0
  chainPageStraddlingWords := 0
  pageStartsVisited := 0
  multiStartPages := 0
  chainCacheLevels := List.replicate 4 0
  authenticatedWords := 0
  primaryPointerTargetsCovered := 0
  fileBackedWriteRecords := 0
  executableMemberWriteRecords := 0
  kextMemberWriteRecords := 0
  bothMemberWriteRecords := 0
  outerOnlyWriteRecords := 0
  issueCounts := []

structure KcFixupAudit where
  summary : AuditSummary
  records : List AuditRecord
  issues : List AuditIssue
  primaryBase : Nat
  deriving DecidableEq

namespace KcFixupAudit

def rangesValid (audit : KcFixupAudit) : Bool := audit.issues.isEmpty

end KcFixupAudit

/-- `usize::from(flag)`. -/
def ofFlag (flag : Bool) : Nat := if flag then 1 else 0

/-- `counts[at] += 1`. -/
def bump (counts : List Nat) (at' : Nat) : List Nat := counts.modify at' (· + 1)

/-- The records by the members that their writes meet, with one more. -/
def AuditSummary.countOverlap (summary : AuditSummary) : MemberOverlap → AuditSummary
  | .executableMember =>
    { summary with executableMemberWriteRecords := summary.executableMemberWriteRecords + 1 }
  | .kextMember => { summary with kextMemberWriteRecords := summary.kextMemberWriteRecords + 1 }
  | .both => { summary with bothMemberWriteRecords := summary.bothMemberWriteRecords + 1 }
  | .outerOnly => { summary with outerOnlyWriteRecords := summary.outerOnlyWriteRecords + 1 }

/-- What `record` counts. -/
def AuditSummary.countRecord (summary : AuditSummary) (record : AuditRecord) : AuditSummary :=
  let summary := { summary with
    fileBackedWriteRecords :=
      summary.fileBackedWriteRecords + ofFlag record.writeFileOffset.isSome }
  summary.countOverlap record.memberOverlap

/-- One more of an issue, behind the codes that have occurred before. -/
def countIssue (code : IssueCode) : List IssueCount → List IssueCount
  | [] => [⟨code, 1⟩]
  | first :: rest =>
    if first.code = code then { first with count := first.count + 1 } :: rest
    else first :: countIssue code rest

end Nextcore.FixupAudit
