import Nextcore.KcStaging.Plan

/-!
Staging a plan into an arena, and reading the arena back.

A `Staging` is the arena and the phases that were reported to the observer. `readback`
compares bytewise where `align_to` leaves a prefix or a suffix and wordwise between;
where it splits a slice depends on where the slice lies, so the split is a parameter
(`Target`), and so is the byte order in which a word is read.
-/

namespace Nextcore.KcStaging

open Checked Checked.Outcome Checked.Exec

/-- Counts of a completed readback. -/
structure StagingVerification where
  arenaBytes : Nat
  copiedBytes : Nat
  zeroTailBytes : Nat
  holeBytes : Nat
  memberHeadersChecked : Nat
  memberSegmentViewsChecked : Nat
  memberFileBytesCompared : Nat
  deriving DecidableEq

inductive KcStagingPhase where
  | destinationInitialized
  | segmentsCopied
  | arenaVerified
  | memberViewsVerified
  deriving DecidableEq

/-- The machine that an arena is staged on: how `align_to::<u64>` splits a slice of the arena,
from its start and length into the length of the prefix and the number of words, and the
order of the bytes of a word. -/
class Target where
  bigEndian : Bool
  alignTo : Nat → Nat → Nat × Nat
  fits : ∀ start size, (alignTo start size).1 + 8 * (alignTo start size).2 ≤ size

/-- A little-endian target, with the arena at an address that is a multiple of eight. -/
abbrev Target.aligned : Target where
  bigEndian := false
  alignTo start size :=
    let before := min size ((8 - start % 8) % 8)
    (before, (size - before) / 8)
  fits start size := by
    dsimp only
    omega

/-! ### Readback -/

section Readback

variable [Target]

/-- `u64::from_ne_bytes`. -/
def fromNeBytes (bytes : Bytes) : Nat :=
  fromLeBytes (if Target.bigEndian then bytes.reverse else bytes)

/-- `expected.map_or(0, |bytes| bytes[offset])`. -/
def expectedByte (expected : Option Bytes) (offset : Nat) : Result UInt8 :=
  match expected with
  | none => pure 0
  | some bytes => byteAt bytes offset

/-- `expected.map_or(0, |bytes| u64::from_ne_bytes(bytes[offset..offset + 8]))`. -/
def expectedWord (expected : Option Bytes) (offset : Nat) : Result Nat :=
  match expected with
  | none => pure 0
  | some bytes => do
    let word ← index bytes offset (offset + 8)
    pure (fromNeBytes word)

/-- The loop over the bytes of a prefix or a suffix: `count` bytes from `offset` on. -/
def bytesMatch (actual : Bytes) (expected : Option Bytes) : (count offset : Nat) → Result Bool
  | 0, _ => pure true
  | count + 1, offset => do
    let byte ← byteAt actual offset
    let wanted ← expectedByte expected offset
    if byte ≠ wanted then pure false
    else bytesMatch actual expected count (offset + 1)

/-- The loop over the words: `count` words from `offset` on. -/
def wordsMatch (actual : Bytes) (expected : Option Bytes) : (count offset : Nat) → Result Bool
  | 0, _ => pure true
  | count + 1, offset => do
    let word ← index actual offset (offset + 8)
    let wanted ← expectedWord expected offset
    if fromNeBytes word ≠ wanted then pure false
    else wordsMatch actual expected count (offset + 8)

/-- `readback`, of the slice of the arena that starts at `start`. -/
def readback (start : Nat) (actual : Bytes) (expected : Option Bytes) : Result Bool :=
  if expected.any (·.length ≠ actual.length) then pure false
  else do
    let split := Target.alignTo start actual.length
    let body := split.1 + 8 * split.2
    let before ← bytesMatch actual expected split.1 0
    if before = false then pure false
    else do
      let between ← wordsMatch actual expected split.2 split.1
      if between = false then pure false
      else bytesMatch actual expected (actual.length - body) body

/-! ### Verification -/

/-- What the sweep over the outer segments carries. -/
structure Sweep where
  copiedBytes : Nat
  zeroTailBytes : Nat
  holeBytes : Nat
  previousEnd : Nat

/-- `if !readback(&destination[start..stop], expected) { return Err(..) }`. -/
def mustRead (destination : Bytes) (start stop : Nat) (expected : Option Bytes) :
    Result Unit := do
  let actual ← index destination start stop
  let same ← readback start actual expected
  rejectIf (same = false) .readbackMismatch

/-- One outer segment of the sweep: the hole before it, its file bytes and its zero tail. -/
def sweepSegment (source destination : Bytes) (sweep : Sweep) (segment : StagingSegment) :
    Result Sweep := do
  let start := segment.destinationOffset
  let copiedEnd ← add start segment.fileSize
  let memoryEnd ← add start segment.memorySize
  mustRead destination sweep.previousEnd start none
  let fileEnd ← add segment.fileOffset segment.fileSize
  let file ← index source segment.fileOffset fileEnd
  mustRead destination start copiedEnd (some file)
  mustRead destination copiedEnd memoryEnd none
  let copiedBytes ← add sweep.copiedBytes segment.fileSize
  let tail ← sub segment.memorySize segment.fileSize
  let zeroTailBytes ← add sweep.zeroTailBytes tail
  let hole ← sub start sweep.previousEnd
  let holeBytes ← add sweep.holeBytes hole
  pure ⟨copiedBytes, zeroTailBytes, holeBytes, memoryEnd⟩

/-- The hole behind the last segment. -/
def lastHole (destination : Bytes) (sweep : Sweep) : Result Sweep := do
  mustRead destination sweep.previousEnd destination.length none
  let hole ← sub destination.length sweep.previousEnd
  let holeBytes ← add sweep.holeBytes hole
  pure { sweep with holeBytes }

/-- The pass over the whole arena. -/
def verifyArena (plan : KcStagingPlan) (destination : Bytes) : Result Sweep := do
  let sweep ← plan.segments.foldlM (sweepSegment plan.source destination) ⟨0, 0, 0, 0⟩
  lastHole destination sweep

/-- What the pass over the member views carries. -/
structure MemberPass where
  headersChecked : Nat
  segmentViewsChecked : Nat
  fileBytesCompared : Nat
  coveredEnd : Nat

/-- The comparison of one view: its file bytes that no view before it has covered. -/
def compareView (source destination : Bytes) (pass : MemberPass) (view : MemberView)
    (viewFileEnd : Nat) : Result Nat := do
  let compareStart := max pass.coveredEnd view.destinationOffset
  if compareStart < viewFileEnd then do
    let skipped ← sub compareStart view.destinationOffset
    let actual ← index destination compareStart viewFileEnd
    let fileStart ← add view.fileOffset skipped
    let fileEnd ← add view.fileOffset view.fileSize
    let file ← index source fileStart fileEnd
    let same ← readback compareStart actual (some file)
    rejectIf (same = false) .readbackMismatch
    let count ← sub viewFileEnd compareStart
    ofOption .addressOverflow (checkedAdd pass.fileBytesCompared count)
  else pure pass.fileBytesCompared

/-- One member view. -/
def passView (source destination : Bytes) (pass : MemberPass) (view : MemberView) :
    Result MemberPass := do
  let memoryEnd ← add view.destinationOffset view.memorySize
  rejectIf (memoryEnd > destination.length) .readbackMismatch
  let viewFileEnd ← add view.destinationOffset view.fileSize
  let compared ← compareView source destination pass view viewFileEnd
  let coveredEnd := max pass.coveredEnd viewFileEnd
  if view.isHeader then do
    let headersChecked ← add pass.headersChecked 1
    pure ⟨headersChecked, pass.segmentViewsChecked, compared, coveredEnd⟩
  else do
    let segmentViewsChecked ← add pass.segmentViewsChecked 1
    pure ⟨pass.headersChecked, segmentViewsChecked, compared, coveredEnd⟩

/-- The pass over the member views. -/
def verifyMembers (plan : KcStagingPlan) (destination : Bytes) : Result MemberPass :=
  plan.memberViews.foldlM (passView plan.source destination) ⟨0, 0, 0, 0⟩

/-! ### Staging -/

/-- An arena and the phases reported so far. -/
structure Staging where
  destination : Bytes
  phases : List KcStagingPhase
  deriving DecidableEq

def observe (phase : KcStagingPhase) : Exec Staging KcStagingError Unit :=
  write fun s => { s with phases := s.phases ++ [phase] }

/-- The copy of one segment's file bytes. -/
def copySegment (source : Bytes) (segment : StagingSegment) (s : Staging) : Result Staging := do
  let stop ← add segment.destinationOffset segment.fileSize
  let fileStop ← add segment.fileOffset segment.fileSize
  let file ← index source segment.fileOffset fileStop
  let destination ← copyFrom s.destination segment.destinationOffset stop file
  pure { s with destination }

/-- `for segment in &self.segments { .. }`. -/
def copySegments (source : Bytes) : List StagingSegment → Exec Staging KcStagingError Unit
  | [] => pure ()
  | segment :: rest => do
    update (copySegment source segment)
    copySegments source rest

/-- Owned, verified bytes plus their plan. -/
structure StagedKc where
  plan : KcStagingPlan
  bytes : Bytes
  verification : StagingVerification

namespace KcStagingPlan

def verifyObserved (plan : KcStagingPlan) : Exec Staging KcStagingError StagingVerification := do
  look fun s => rejectIf (s.destination.length ≠ plan.arenaSize) .destinationSize
  let sweep ← look fun s => verifyArena plan s.destination
  observe .arenaVerified
  let pass ← look fun s => verifyMembers plan s.destination
  observe .memberViewsVerified
  pure ⟨plan.arenaSize, sweep.copiedBytes, sweep.zeroTailBytes, sweep.holeBytes,
    pass.headersChecked, pass.segmentViewsChecked, pass.fileBytesCompared⟩

def stageIntoObserved (plan : KcStagingPlan) :
    Exec Staging KcStagingError StagingVerification := do
  look fun s => rejectIf (s.destination.length ≠ plan.arenaSize) .destinationSize
  write fun s => { s with destination := List.replicate s.destination.length 0 }
  observe .destinationInitialized
  copySegments plan.source plan.segments
  observe .segmentsCopied
  plan.verifyObserved

/-- `stage_into`: the result, and the arena it leaves. -/
def stageInto (plan : KcStagingPlan) (destination : Bytes) : Result StagingVerification × Bytes :=
  let out := plan.stageIntoObserved.on ⟨destination, []⟩
  (out.1, out.2.destination)

def verify (plan : KcStagingPlan) (destination : Bytes) : Result StagingVerification :=
  (plan.verifyObserved.on ⟨destination, []⟩).1

/-- `stage`, into an arena of its own. -/
def stage (plan : KcStagingPlan) : Result StagedKc := do
  let out := plan.stageInto (List.replicate plan.arenaSize 0)
  let verification ← out.1
  pure ⟨plan, out.2, verification⟩

end KcStagingPlan

end Readback

end Nextcore.KcStaging
