import Nextcore.FixupAudit.Audit
import Nextcore.KcStaging.Stage

/-!
Classic relocations in an owned arena (`src/kc_classic_rebase.rs`), never an entry into the
kernel. Allocations succeed here, as in the staging: `AllocationFailed` is never returned.
-/

namespace Nextcore.ClassicRebase

open Checked Checked.Outcome
open KernelCollection (ImageMetadata SegmentMetadata KcMetadataInspection)
open KcStaging (KcStagingError KcStagingPlan StagingSegment StagingVerification Target)
open FixupAudit (AuditError AuditRecord RecordDetail ClassicTable MemberOverlap
  auditKernelCollection)

inductive ClassicRebaseError where
  | staging (error : KcStagingError)
  | audit (error : AuditError)
  | auditIssues
  | executableMemberCount
  | emptyClassicTable
  | unsupportedClassicProfile
  | outsideKernelFileMapping
  | headerWrite
  | addressOverflow
  /-- Outside this conservative subset, not necessarily malformed Mach-O. -/
  | valueOverflow
  | allocationFailed
  | destinationSize
  | readbackMismatch
  deriving DecidableEq

abbrev Result (α : Type) := Outcome ClassicRebaseError α

/-- The words counted here are records of an audit, of which there are at most a million with
eight bytes each: the counters are naturals. -/
structure ClassicRebaseVerification where
  slide : Nat
  arenaBytes : Nat
  classicWords : Nat
  width4Words : Nat
  width8Words : Nat
  writeBytesVerified : Nat
  nonTargetBytesVerified : Nat
  changedBytes : Nat
  chainWordsPreserved : Nat
  headerRangesPreserved : Nat
  deriving DecidableEq

/-- A word to be written: `after` has eight bytes, of which the first `width` are. -/
structure Word where
  offset : Nat
  width : Nat
  after : Bytes
  deriving DecidableEq

/-- Every decision, bound to the source. Neither the slide nor a placement is inferred. -/
structure KcClassicRebasePlan where
  source : Bytes
  staging : KcStagingPlan
  words : List Word
  verification : ClassicRebaseVerification
  deriving DecidableEq

/-! ### The plan -/

/-- `overlaps`. -/
def overlaps (a alen b blen : Nat) : Result Bool := do
  let bEnd ← ofOption .addressOverflow (checkedAdd b blen)
  if a < bEnd then do
    let aEnd ← ofOption .addressOverflow (checkedAdd a alen)
    pure (decide (b < aEnd))
  else pure false

/-- The loop of `file_mapping_matches`, up to the first segment that has the address. -/
def mappingMatches (address stop file : Nat) : List SegmentMetadata → Result Bool
  | [] => pure false
  | segment :: rest => do
    let fileEnd ← ofOption .addressOverflow (checkedAdd segment.address segment.file.size)
    if address ≥ segment.address ∧ stop ≤ fileEnd then do
      let distance ← sub address segment.address
      let found ← ofOption .addressOverflow (checkedAdd segment.file.offset distance)
      pure (decide (found = file))
    else mappingMatches address stop file rest

def fileMappingMatches (image : ImageMetadata) (address file width : Nat) : Result Bool := do
  let stop ← ofOption .addressOverflow (checkedAdd address width)
  mappingMatches address stop file image.segments

/-- The header and the load commands of an image are not written to. -/
def headerClear (address file width : Nat) (image : ImageMetadata) : Result Unit := do
  let headerSize := 32 + image.commandBytes
  let inFile ← overlaps file width image.headerFileOffset headerSize
  if inFile then .err .headerWrite
  else do
    let inMemory ← overlaps address width image.headerAddress headerSize
    rejectIf (inMemory = true) .headerWrite

/-- The outer image and those of the members. -/
def imagesOf (inspection : KcMetadataInspection) : List ImageMetadata :=
  inspection.collection :: inspection.members.map (·.image)

/-- What the loop over the records carries: the words so far, and the counters. -/
structure Progress where
  words : List Word
  verification : ClassicRebaseVerification

/-- The word of a record that passed the profile, and what it counts. -/
def planWord (source : Bytes) (slide : Nat) (staging : KcStagingPlan) (kernel : ImageMetadata)
    (width : Nat) (writeAddress writeFileOffset storedValue : Option Nat) (progress : Progress) :
    Result Progress := do
  let address ← ofOption .outsideKernelFileMapping writeAddress
  let file ← ofOption .outsideKernelFileMapping writeFileOffset
  let mapped ← fileMappingMatches kernel address file width
  rejectIf (mapped = false) .outsideKernelFileMapping
  forEach (headerClear address file width) (imagesOf staging.inspection)
  let before ← ofOption .outsideKernelFileMapping storedValue
  let after ← ofOption .valueOverflow (checkedAdd before slide)
  rejectIf (width = 4 ∧ after > 2 ^ 32 - 1) .valueOverflow
  let relative ← ofOption .addressOverflow (checkedSub address staging.minimumVirtualAddress)
  let offset ← tryWord relative .addressOverflow
  let stop ← ofOption .addressOverflow (checkedAdd offset width)
  rejectIf (stop > staging.arenaSize) .outsideKernelFileMapping
  let sourceStart ← tryWord file .addressOverflow
  let sourceEnd ← ofOption .addressOverflow (checkedAdd sourceStart width)
  let raw ← ofOption .outsideKernelFileMapping (getRange source sourceStart sourceEnd)
  rejectIf (raw ≠ (toLeBytes 8 before).take width) .unsupportedClassicProfile
  let word : Word := ⟨offset, width, toLeBytes 8 after⟩
  let v := progress.verification
  pure
    { words := progress.words ++ [word]
      verification :=
        { v with
          changedBytes := v.changedBytes + differences raw (word.after.take width)
          classicWords := v.classicWords + 1
          writeBytesVerified := v.writeBytesVerified + width
          width4Words := v.width4Words + (if width = 4 then 1 else 0)
          width8Words := v.width8Words + (if width = 4 then 0 else 1) } }

/-- One record of the audit: chained words are passed over. -/
def planRecord (source : Bytes) (slide : Nat) (staging : KcStagingPlan) (kernel : ImageMetadata)
    (progress : Progress) (record : AuditRecord) : Result Progress :=
  match record.detail with
  | .chain11 .. => pure progress
  | .classic table _ symbolOrdinal relocationType lengthExponent pcRelative external
      storedValue => do
    rejectIf (record.imageIndex ≠ 0 ∨ table ≠ .localDynamic ∨ symbolOrdinal ≠ 0 ∨
      relocationType ≠ 0 ∨ pcRelative = true ∨ external = true ∨
      ¬ (lengthExponent = 2 ∨ lengthExponent = 3) ∨ record.width ≠ 2 ^ lengthExponent ∨
      record.memberOverlap ≠ .executableMember) .unsupportedClassicProfile
    planWord source slide staging kernel record.width record.writeAddress record.writeFileOffset
      storedValue progress

/-- `executables.next()`, and that there is no other. -/
def onlyExecutable (inspection : KcMetadataInspection) : Result ImageMetadata :=
  match inspection.members.filter (·.image.fileType = 2) with
  | [kernel] => pure kernel.image
  | _ => .err .executableMemberCount

def KcClassicRebasePlan.new [UnstableSort] (source : Bytes) (slide : Nat) :
    Result KcClassicRebasePlan := do
  let staging ← (KcStagingPlan.new source).mapErr .staging
  let kernel ← onlyExecutable staging.inspection
  let audit ← (auditKernelCollection source).mapErr .audit
  rejectIf (audit.rangesValid = false) .auditIssues
  rejectIf (audit.summary.classicRecords = 0) .emptyClassicTable
  let verification : ClassicRebaseVerification :=
    { slide := slide
      arenaBytes := staging.arenaSize
      classicWords := 0
      width4Words := 0
      width8Words := 0
      writeBytesVerified := 0
      nonTargetBytesVerified := 0
      changedBytes := 0
      chainWordsPreserved := audit.summary.chainRecords
      headerRangesPreserved := staging.inspection.members.length + 1 }
  let progress ← audit.records.foldlM (planRecord source slide staging kernel) ⟨[], verification⟩
  let words := UnstableSort.sortByKey (·.offset) progress.words
  forWindows (fun a b => do
    let stop ← add a.offset a.width
    rejectIf (stop > b.offset) .auditIssues) words
  let nonTarget ← ofOption .addressOverflow (checkedSub progress.verification.arenaBytes
    progress.verification.writeBytesVerified)
  pure { source, staging, words,
         verification := { progress.verification with nonTargetBytesVerified := nonTarget } }

/-! ### Verification -/

section Verification

variable [Target]

/-- `readback`, which is the staging's. -/
def readback (start : Nat) (actual : Bytes) (expected : Option Bytes) : Result Bool :=
  (KcStaging.readback start actual expected).mapErr .staging

/-- `if !readback(&bytes[start..stop], expected) { return Err(..) }`. -/
def mustRead (bytes : Bytes) (start stop : Nat) (expected : Option Bytes) : Result Unit := do
  let actual ← index bytes start stop
  let same ← readback start actual expected
  rejectIf (same = false) .readbackMismatch

/-- The three cursors: a place in the arena, and the segments and words from the current ones on. -/
structure Cursors where
  cursor : Nat
  segments : List StagingSegment
  words : List Word

/-- The segments from the first one on that does not end at or before the cursor. -/
def skipSegments (cursor : Nat) : List StagingSegment → Result (List StagingSegment)
  | [] => pure []
  | segment :: rest => do
    let stop ← add segment.destinationOffset segment.memorySize
    if cursor ≥ stop then skipSegments cursor rest else pure (segment :: rest)

/-- How far the bytes at the cursor are of one kind, and where the source has them. -/
def expectation (cursor nextWord : Nat) (segments : List StagingSegment) :
    Result (Nat × Option Nat) :=
  match segments with
  | [] => pure (nextWord, none)
  | segment :: _ =>
    if cursor < segment.destinationOffset then pure (min nextWord segment.destinationOffset, none)
    else do
      let copyEnd ← add segment.destinationOffset segment.fileSize
      if cursor < copyEnd then do
        let past ← add segment.fileOffset cursor
        let sourceStart ← sub past segment.destinationOffset
        pure (min nextWord copyEnd, some sourceStart)
      else do
        let stop ← add segment.destinationOffset segment.memorySize
        pure (min nextWord stop, none)

/-- `source_start.map(|at| &self.source[at..at + end - cursor])`. -/
def expectedBytes (source : Bytes) (cursor stop : Nat) : Option Nat → Result (Option Bytes)
  | none => pure none
  | some at' => do
    let sum ← add at' stop
    let sourceEnd ← sub sum cursor
    let bytes ← index source at' sourceEnd
    pure (some bytes)

/-- A round of the loop at a word. -/
def wordRound (bytes : Bytes) (at' : Cursors) (word : Word) (rest : List Word) :
    Result Cursors := do
  let stop ← add at'.cursor word.width
  let wanted ← index word.after 0 word.width
  mustRead bytes at'.cursor stop (some wanted)
  pure ⟨stop, at'.segments, rest⟩

/-- A round of the loop between words. -/
def gapRound (source bytes : Bytes) (at' : Cursors) : Result Cursors := do
  let segments ← skipSegments at'.cursor at'.segments
  let nextWord := at'.words.head?.elim bytes.length (·.offset)
  let (stop, sourceStart) ← expectation at'.cursor nextWord segments
  rejectIf (stop ≤ at'.cursor) .readbackMismatch
  let expected ← expectedBytes source at'.cursor stop sourceStart
  mustRead bytes at'.cursor stop expected
  pure ⟨stop, segments, at'.words⟩

/-- A round of the loop. -/
def verifyRound (source bytes : Bytes) (at' : Cursors) : Result Cursors :=
  match at'.words with
  | word :: rest =>
    if word.offset = at'.cursor then wordRound bytes at' word rest else gapRound source bytes at'
  | [] => gapRound source bytes at'

/-- A round passes a word, or moves the cursor on. -/
theorem verifyRound_progress {source bytes : Bytes} {at' next : Cursors}
    (inside : at'.cursor < bytes.length) (passed : verifyRound source bytes at' = .ok next) :
    (bytes.length - next.cursor) + next.words.length <
      (bytes.length - at'.cursor) + at'.words.length := by
  have gap (passed : gapRound source bytes at' = .ok next) :
      at'.cursor < next.cursor ∧ next.words = at'.words := by
    simp only [gapRound, bind_eq_ok, rejectIf_eq_ok] at passed
    obtain ⟨_, _, ⟨stop, _⟩, _, _, forward, _, _, _, _, same⟩ := passed
    cases same
    exact ⟨Nat.lt_of_not_le forward, rfl⟩
  unfold verifyRound at passed
  split at passed
  · next word rest words =>
      split at passed
      · simp only [wordRound, bind_eq_ok, add_eq_ok] at passed
        obtain ⟨_, ⟨_, rfl⟩, _, _, _, _, same⟩ := passed
        cases same
        rw [words, List.length_cons]
        dsimp only
        omega
      · obtain ⟨forward, same⟩ := gap passed
        rw [same]
        omega
  · obtain ⟨forward, same⟩ := gap passed
    rw [same]
    omega

/-- The loop, from the cursors on: the words that are left behind it. -/
def verifyFrom (source bytes : Bytes) (at' : Cursors) : Result (List Word) :=
  if _ : at'.cursor < bytes.length then
    match _ : verifyRound source bytes at' with
    | .ok next => verifyFrom source bytes next
    | .err error => .err error
    | .panic => .panic
  else pure at'.words
termination_by (bytes.length - at'.cursor) + at'.words.length
decreasing_by exact verifyRound_progress ‹_› ‹_›

def KcClassicRebasePlan.verify (plan : KcClassicRebasePlan) (bytes : Bytes) :
    Result ClassicRebaseVerification := do
  rejectIf (bytes.length ≠ plan.staging.arenaSize) .destinationSize
  let left ← verifyFrom plan.source bytes ⟨0, plan.staging.segments, plan.words⟩
  rejectIf (left ≠ []) .readbackMismatch
  pure plan.verification

/-! ### Application -/

/-- Ordinary initialized memory with its plan: neither an entry nor a handoff. -/
structure RebasedKc where
  plan : KcClassicRebasePlan
  bytes : Bytes
  originalStaging : StagingVerification

def writeWord (bytes : Bytes) (word : Word) : Result Bytes := do
  let stop ← add word.offset word.width
  let value ← index word.after 0 word.width
  copyFrom bytes word.offset stop value

/-- Staging performs its full readback before any word is written. -/
def KcClassicRebasePlan.apply (plan : KcClassicRebasePlan) : Result RebasedKc := do
  let out := plan.staging.stageInto (List.replicate plan.staging.arenaSize 0)
  let originalStaging ← out.1.mapErr .staging
  let bytes ← plan.words.foldlM writeWord out.2
  let _ ← plan.verify bytes
  pure ⟨plan, bytes, originalStaging⟩

end Verification

end Nextcore.ClassicRebase
