import Nextcore.KernelCollection.Inspect

/-!
Planning the staging of a collection (`src/kc_staging.rs`).

Outer segments own copies and zero-fill; members are shared views. Offsets are relative to
the arena, not physical addresses. Allocations succeed here: the `try_reserve_exact` of
the planner and of `stage`, whose failures are `AllocationFailed`, are left out.
-/

namespace Nextcore.KcStaging

open Checked Checked.Outcome
open KernelCollection (EntryMetadata ImageMetadata SegmentMetadata FilesetMember KcMetadataError
  KcMetadataInspection inspectKernelCollection inspectArm64KernelCollection)

def stagingPageSize : Nat := 4096
def arm64StagingPageSize : Nat := 16 * 1024

/-- Independent bound on the page-rounded memory span, including holes. -/
def maxStagingSize : Nat := 128 * 1024 * 1024

inductive KcStagingError where
  | metadata (error : KcMetadataError)
  | emptyImage
  | addressOverflow
  | arenaTooLarge
  | allocationFailed
  | destinationSize
  | invalidMapping
  | readbackMismatch
  deriving DecidableEq

abbrev Result (α : Type) := Outcome KcStagingError α

/-- One outer mapping, with the index of its command. -/
structure StagingSegment where
  collectionSegmentIndex : Nat
  virtualAddress : Nat
  destinationOffset : Nat
  memorySize : Nat
  fileOffset : Nat
  fileSize : Nat
  initialProtection : Nat
  maximumProtection : Nat
  deriving DecidableEq

structure MemberView where
  destinationOffset : Nat
  memorySize : Nat
  fileOffset : Nat
  fileSize : Nat
  isHeader : Bool
  deriving DecidableEq

/-- An inspected plan bound to its source. -/
structure KcStagingPlan where
  source : Bytes
  inspection : KcMetadataInspection
  segments : List StagingSegment
  memberViews : List MemberView
  minimumVirtualAddress : Nat
  arenaSize : Nat
  collectionHeaderOffset : Nat
  outerEntryOffset : Nat
  pageSize : Nat
  deriving DecidableEq

/-! ### Ranges -/

def relativeRange (address size base arena : Nat) : Result Nat := do
  let start ← ofOption .invalidMapping (checkedSub address base)
  let stop ← ofOption .addressOverflow (checkedAdd start size)
  rejectIf (stop > arena) .invalidMapping
  tryWord start .invalidMapping

def sourceRange (source : Bytes) (offset size : Nat) : Result Nat := do
  let stop ← ofOption .addressOverflow (checkedAdd offset size)
  rejectIf (stop > source.length) .invalidMapping
  tryWord offset .invalidMapping

/-- Whether a view lies in an outer mapping, file bytes and displacement included. -/
def ownedBy (view : MemberView) (outer : StagingSegment) : Result Bool :=
  if view.destinationOffset < outer.destinationOffset then pure false
  else do
    let stop ← add view.destinationOffset view.memorySize
    let outerStop ← add outer.destinationOffset outer.memorySize
    if stop > outerStop then pure false
    else if view.fileSize = 0 then pure true
    else if view.fileOffset < outer.fileOffset then pure false
    else do
      let fileStop ← add view.fileOffset view.fileSize
      let outerFileStop ← add outer.fileOffset outer.fileSize
      if fileStop > outerFileStop then pure false
      else do
        let distance ← sub view.destinationOffset outer.destinationOffset
        let fileDistance ← sub view.fileOffset outer.fileOffset
        pure (decide (distance = fileDistance))

/-- `view`. -/
def memberView (source : Bytes) (segments : List StagingSegment) (base arena : Nat)
    (address memorySize fileOffset fileSize : Nat) (isHeader : Bool) : Result MemberView := do
  let destinationOffset ← relativeRange address memorySize base arena
  let fileOffset ← sourceRange source fileOffset fileSize
  let memorySize ← tryWord memorySize .invalidMapping
  let fileSize ← tryWord fileSize .invalidMapping
  rejectIf (fileSize > memorySize) .invalidMapping
  let view : MemberView := ⟨destinationOffset, memorySize, fileOffset, fileSize, isHeader⟩
  let owned ← anyM (ownedBy view) segments
  rejectIf (owned = false) .invalidMapping
  pure view

/-! ### The plan -/

/-- The segments that take memory. -/
def nonempty (segments : List SegmentMetadata) : List SegmentMetadata :=
  segments.filter (·.memorySize ≠ 0)

/-- The lowest address and the highest end so far, and those of one segment more. -/
def extendBounds (bounds : Nat × Nat) (segment : SegmentMetadata) : Result (Nat × Nat) := do
  let stop ← ofOption .addressOverflow (checkedAdd segment.address segment.memorySize)
  pure (min bounds.1 segment.address, max bounds.2 stop)

/-- One outer mapping of the plan, from a segment and its index. -/
def stagingSegment (source : Bytes) (base arena : Nat) (entry : SegmentMetadata × Nat) :
    Result StagingSegment := do
  let (segment, position) := entry
  let destinationOffset ← relativeRange segment.address segment.memorySize base arena
  let fileOffset ← sourceRange source segment.file.offset segment.file.size
  let memorySize ← tryWord segment.memorySize .arenaTooLarge
  let fileSize ← tryWord segment.file.size .invalidMapping
  pure ⟨position, segment.address, destinationOffset, memorySize, fileOffset, fileSize,
    segment.initialProtection, segment.maximumProtection⟩

/-- The instruction pointer of a collection entry. -/
def entryAddress : Option EntryMetadata → Result Nat
  | some (.unixThread64 instructionPointer) => pure instructionPointer
  | some (.armThread64 instructionPointer _ _ _) => pure instructionPointer
  | _ => .err .invalidMapping

/-- The views of one member: its header, and its segments that take memory. -/
def memberViews (source : Bytes) (segments : List StagingSegment) (base arena : Nat)
    (member : FilesetMember) : Result (List MemberView) := do
  let image := member.image
  let headerSize := 32 + image.commandBytes
  let header ← memberView source segments base arena image.headerAddress headerSize
    image.headerFileOffset headerSize true
  let views ← collect (fun segment =>
    memberView source segments base arena segment.address segment.memorySize
      segment.file.offset segment.file.size false) (nonempty image.segments)
  pure (header :: views)

/-- The number of views, counted before any is made. -/
def viewCount (members : List FilesetMember) : Result Nat :=
  members.foldlM (fun total member => ofOption .addressOverflow
    ((checkedAdd total 1).bind (checkedAdd · member.image.segments.length))) 0

/-- The page-rounded span of the segments: its start, and the size of the arena. -/
def arenaSpan (segments : List SegmentMetadata) (pageSize : Nat) : Result (Nat × Nat) := do
  let (first, last) ← (nonempty segments).foldlM extendBounds (2 ^ 64 - 1, 0)
  rejectIf (first = 2 ^ 64 - 1 ∨ last ≤ first) .emptyImage
  let mask ← sub pageSize 1
  let minimumVirtualAddress := andNot first mask
  let padded ← ofOption .addressOverflow (checkedAdd last mask)
  let span ← ofOption .addressOverflow (checkedSub (andNot padded mask) minimumVirtualAddress)
  rejectIf (span = 0 ∨ span > maxStagingSize ∨ span > 2 ^ 63 - 1) .arenaTooLarge
  let arenaSize ← tryWord span .arenaTooLarge
  pure (minimumVirtualAddress, arenaSize)

/-- What follows the span in `from_inspection`: the mappings, the offsets and the views. -/
def layOut [UnstableSort] (source : Bytes) (inspection : KcMetadataInspection)
    (pageSize minimumVirtualAddress arenaSize : Nat) : Result KcStagingPlan := do
  let segments ← collect (stagingSegment source minimumVirtualAddress arenaSize)
    (inspection.collection.segments.zipIdx.filter (·.1.memorySize ≠ 0))
  let segments := UnstableSort.sortByKey (·.destinationOffset) segments
  forWindows (fun a b => do
    let stop ← add a.destinationOffset a.memorySize
    rejectIf (stop > b.destinationOffset) .invalidMapping) segments
  let collectionHeaderOffset ← relativeRange inspection.collection.headerAddress
    (32 + inspection.collection.commandBytes) minimumVirtualAddress arenaSize
  let entry ← entryAddress inspection.collection.entry
  let outerEntryOffset ← relativeRange entry 1 minimumVirtualAddress arenaSize
  let _ ← viewCount inspection.members
  let views ← collect (memberViews source segments minimumVirtualAddress arenaSize)
    inspection.members
  let memberViews := UnstableSort.sortByKey (·.destinationOffset) views.flatten
  pure { source, inspection, segments, memberViews, minimumVirtualAddress, arenaSize,
         collectionHeaderOffset, outerEntryOffset, pageSize }

def fromInspection [UnstableSort] (source : Bytes) (inspection : KcMetadataInspection)
    (pageSize : Nat) : Result KcStagingPlan := do
  let (minimumVirtualAddress, arenaSize) ← arenaSpan inspection.collection.segments pageSize
  layOut source inspection pageSize minimumVirtualAddress arenaSize

namespace KcStagingPlan

def new [UnstableSort] (source : Bytes) : Result KcStagingPlan := do
  let inspection ← (inspectKernelCollection source).mapErr .metadata
  fromInspection source inspection stagingPageSize

def newArm64 [UnstableSort] (source : Bytes) : Result KcStagingPlan := do
  let inspection ← (inspectArm64KernelCollection source).mapErr .metadata
  fromInspection source inspection arm64StagingPageSize

end KcStagingPlan

end Nextcore.KcStaging
