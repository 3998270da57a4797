import Nextcore.BootArgs.Encode
import Nextcore.KcStaging.Stage

/-!
The placement of a collection for its entry (`xnu_arm64_handoff.rs`).

A plan puts the staged collection, the page of the boot arguments, the device tree, the boot
stack and an optional framebuffer one behind the other, and keeps the bytes that belong there.
`stageInto` writes them into an allocation and `verify` reads one back. Phases are reported to
an observer, as those of the collection's own staging are.
-/

namespace Nextcore.Handoff

open Checked Checked.Outcome Checked.Exec
open KcStaging BootArgs

def maxDeviceTreeBytes : Nat := 1024 * 1024
def armBootStackBytes : Nat := 64 * 1024
def armBootstrapBlockBytes : Nat := 32 * 1024 * 1024

structure Arm64FramebufferGeometry where
  width : Nat
  height : Nat
  rowBytes : Nat
  deriving DecidableEq, Repr

structure Arm64FramebufferLayout where
  basePhys : Nat
  byteLen : Nat
  reservedBytes : Nat
  geometry : Arm64FramebufferGeometry
  deriving DecidableEq, Repr

structure Arm64PlacementInput where
  physicalBase : Nat
  virtualBase : Nat
  memorySize : Nat
  actualMemorySize : Nat
  kernelPhys : Nat
  deviceTree : Bytes
  commandLine : String
  machineType : Nat
  bootFlags : Nat
  video : Arm64BootVideo
  deriving DecidableEq

structure Arm64HandoffLayout where
  kernelPhys : Nat
  kernelBytes : Nat
  collectionHeaderPhys : Nat
  entryPhys : Nat
  bootArgsPhys : Nat
  deviceTreePhys : Nat
  stackTopPhys : Nat
  occupiedEnd : Nat
  allocationBytes : Nat
  deriving DecidableEq, Repr

inductive Arm64HandoffPhase where
  | destinationInitialized
  | collectionInitialized
  | collectionSegmentsCopied
  | collectionArenaVerified
  | collectionMemberViewsVerified
  | collectionVerified
  | tailVerified
  deriving DecidableEq, Repr

inductive Arm64HandoffError where
  | staging (error : KcStagingError)
  | bootArgs (error : Arm64BootArgsError)
  | invalidPlacement
  | bootstrapCorrespondence
  | deviceTreeTooLarge
  | addressOverflow
  | destinationSize
  | readbackMismatch
  | invalidFramebufferGeometry
  | conflictingVideo
  deriving DecidableEq

abbrev Result (α : Type) := Outcome Arm64HandoffError α

structure Arm64HandoffPlan where
  staging : KcStagingPlan
  layout : Arm64HandoffLayout
  bootArgs : Arm64BootArgsEncoding
  deviceTree : Bytes
  framebuffer : Option Arm64FramebufferLayout
  deriving DecidableEq

/-! ### The constructors -/

/-- `a.checked_add(b)`, with the error that this file gives it everywhere. -/
def addAddress (a b : Nat) : Result Nat := ofOption .addressOverflow (checkedAdd a b)

def alignUp (value : Nat) : Result Nat := do
  let padded ← addAddress value (vmapplePageSize - 1)
  pure (andNot padded (vmapplePageSize - 1))

/-- The check of the placement against the linked addresses of the collection. -/
def checkPlacement (input : Arm64PlacementInput) (staging : KcStagingPlan) : Result Unit := do
  rejectIf (input.kernelPhys % vmapplePageSize ≠ 0 ∨ input.kernelPhys < input.physicalBase)
    .invalidPlacement
  let physicalOffset ← ofOption .addressOverflow (checkedSub input.kernelPhys input.physicalBase)
  let expectedVirtual ← addAddress input.virtualBase physicalOffset
  rejectIf (expectedVirtual ≠ staging.minimumVirtualAddress ∨
    input.virtualBase % armBootstrapBlockBytes ≠ input.physicalBase % armBootstrapBlockBytes)
    .bootstrapCorrespondence

/-- The framebuffer behind the stack. -/
def framebufferLayout (stackTopPhys : Nat) (geometry : Arm64FramebufferGeometry) :
    Result Arm64FramebufferLayout := do
  let byteLen ← ofOption .addressOverflow (checkedMul geometry.rowBytes geometry.height)
  let reservedBytes ← alignUp byteLen
  pure ⟨stackTopPhys, byteLen, reservedBytes, geometry⟩

/-- `geometry.map(..).transpose()?`. -/
def optionalFramebuffer (stackTopPhys : Nat) :
    Option Arm64FramebufferGeometry → Result (Option Arm64FramebufferLayout)
  | none => pure none
  | some geometry => do
    let framebuffer ← framebufferLayout stackTopPhys geometry
    pure (some framebuffer)

/-- The video words of a plan, and the end of what it occupies. -/
def occupiedEnd (stackTopPhys : Nat) (video : Arm64BootVideo) :
    Option Arm64FramebufferLayout → Result (Arm64BootVideo × Nat)
  | none => pure (video, stackTopPhys)
  | some framebuffer => do
    let stop ← addAddress framebuffer.basePhys framebuffer.reservedBytes
    pure (⟨framebuffer.basePhys, 1, framebuffer.geometry.rowBytes, framebuffer.geometry.width,
      framebuffer.geometry.height, 32⟩, stop)

/-- The layout, the framebuffer and the video words. -/
def placeAll (input : Arm64PlacementInput) (staging : KcStagingPlan)
    (geometry : Option Arm64FramebufferGeometry) :
    Result (Arm64HandoffLayout × Option Arm64FramebufferLayout × Arm64BootVideo) := do
  let kernelBytes := staging.arenaSize
  let bootArgsPhys ← addAddress input.kernelPhys kernelBytes
  let deviceTreePhys ← addAddress bootArgsPhys vmapplePageSize
  let deviceTreeEnd ← addAddress deviceTreePhys input.deviceTree.length
  let stackBase ← alignUp deviceTreeEnd
  let stackTopPhys ← addAddress stackBase armBootStackBytes
  let framebuffer ← optionalFramebuffer stackTopPhys geometry
  let (video, stop) ← occupiedEnd stackTopPhys input.video framebuffer
  let span ← ofOption .addressOverflow (checkedSub stop input.kernelPhys)
  let allocationBytes ← tryWord span .addressOverflow
  rejectIf (allocationBytes > 2 ^ 63 - 1) .addressOverflow
  let collectionHeaderPhys ← addAddress input.kernelPhys staging.collectionHeaderOffset
  let entryPhys ← addAddress input.kernelPhys staging.outerEntryOffset
  pure (⟨input.kernelPhys, kernelBytes, collectionHeaderPhys, entryPhys, bootArgsPhys,
    deviceTreePhys, stackTopPhys, stop, allocationBytes⟩, framebuffer, video)

/-- The input of the encoder, for a layout. -/
def bootArgsInput (input : Arm64PlacementInput) (layout : Arm64HandoffLayout)
    (video : Arm64BootVideo) : Arm64BootArgsInput where
  physicalBase := input.physicalBase
  virtualBase := input.virtualBase
  memorySize := input.memorySize
  actualMemorySize := input.actualMemorySize
  topOfKernelData := layout.occupiedEnd
  kernelPhys := input.kernelPhys
  kernelSize := layout.kernelBytes
  bootArgsPhys := layout.bootArgsPhys
  deviceTreePhys := layout.deviceTreePhys
  deviceTree := input.deviceTree
  commandLine := input.commandLine
  machineType := input.machineType
  bootFlags := input.bootFlags
  video := video

/-- The check of a geometry in front of a plan with a framebuffer. -/
def checkGeometry (geometry : Arm64FramebufferGeometry) : Result Unit := do
  let minimumRow := geometry.width * 4
  rejectIf (2 ^ 32 ≤ minimumRow) .invalidFramebufferGeometry
  rejectIf (geometry.width = 0 ∨ geometry.height = 0 ∨ geometry.rowBytes < minimumRow ∨
    geometry.rowBytes % 4 ≠ 0) .invalidFramebufferGeometry

namespace Arm64HandoffPlan

def build [UnstableSort] (source : Bytes) (input : Arm64PlacementInput)
    (geometry : Option Arm64FramebufferGeometry) : Result Arm64HandoffPlan := do
  rejectIf (input.deviceTree = [] ∨ input.deviceTree.length > maxDeviceTreeBytes)
    .deviceTreeTooLarge
  let staging ← (KcStagingPlan.newArm64 source).mapErr .staging
  checkPlacement input staging
  let (layout, framebuffer, video) ← placeAll input staging geometry
  let bootArgs ← (encodeArm64BootArgs (bootArgsInput input layout video)).mapErr .bootArgs
  pure ⟨staging, layout, bootArgs, input.deviceTree, framebuffer⟩

def new [UnstableSort] (source : Bytes) (input : Arm64PlacementInput) : Result Arm64HandoffPlan :=
  build source input none

def newWithFramebuffer [UnstableSort] (source : Bytes) (input : Arm64PlacementInput)
    (geometry : Arm64FramebufferGeometry) : Result Arm64HandoffPlan := do
  rejectIf (input.video ≠ .zero) .conflictingVideo
  checkGeometry geometry
  build source input (some geometry)

end Arm64HandoffPlan

/-! ### Staging and verification -/

/-- An allocation and the phases reported so far. -/
structure Allocation where
  destination : Bytes
  phases : List Arm64HandoffPhase
  deriving DecidableEq

def observe (phase : Arm64HandoffPhase) : Exec Allocation Arm64HandoffError Unit :=
  write fun s => { s with phases := s.phases ++ [phase] }

/-- The phases of the collection, as this file reports them. -/
def collectionPhase : KcStagingPhase → Arm64HandoffPhase
  | .destinationInitialized => .collectionInitialized
  | .segmentsCopied => .collectionSegmentsCopied
  | .arenaVerified => .collectionArenaVerified
  | .memberViewsVerified => .collectionMemberViewsVerified

namespace Arm64HandoffPlan

/-- The bytes in front of the boot arguments. -/
def argsOffset (plan : Arm64HandoffPlan) : Result Nat :=
  sub plan.layout.bootArgsPhys plan.layout.kernelPhys

/-- The bytes in front of the device tree. -/
def treeOffset (plan : Arm64HandoffPlan) : Result Nat :=
  sub plan.layout.deviceTreePhys plan.layout.kernelPhys

/-- `expected`, for one offset of the tail. -/
def expectedByte (plan : Arm64HandoffPlan) (args dt offset : Nat) : Result UInt8 :=
  if args ≤ offset ∧ offset - args < plan.bootArgs.bytes.length then
    byteAt plan.bootArgs.bytes (offset - args)
  else if dt ≤ offset ∧ offset - dt < plan.deviceTree.length then
    byteAt plan.deviceTree (offset - dt)
  else pure 0

/-- The loop over the bytes of the tail, from `offset` on. -/
def tailMatches (plan : Arm64HandoffPlan) (args dt : Nat) : (tail : Bytes) → (offset : Nat) →
    Result Unit
  | [], _ => pure ()
  | byte :: rest, offset => do
    let expected ← plan.expectedByte args dt offset
    rejectIf (byte ≠ expected) .readbackMismatch
    tailMatches plan args dt rest (offset + 1)

def verifyTail (plan : Arm64HandoffPlan) (destination : Bytes) : Result Unit := do
  let args ← plan.argsOffset
  let dt ← plan.treeOffset
  plan.tailMatches args dt (destination.drop plan.layout.kernelBytes) plan.layout.kernelBytes

section Target

variable [Target]

/-- The staging of the collection into the front of the allocation. -/
def stageCollection (plan : Arm64HandoffPlan) :
    Exec Allocation Arm64HandoffError StagingVerification := do
  let front ← look fun s => index s.destination 0 plan.layout.kernelBytes
  let out := plan.staging.stageIntoObserved.on ⟨front, []⟩
  write fun s => ⟨overlay s.destination 0 out.2.destination,
    s.phases ++ out.2.phases.map collectionPhase⟩
  look fun _ => out.1.mapErr .staging

/-- The copies of the arguments and of the device tree. -/
def copyTail (plan : Arm64HandoffPlan) (s : Allocation) : Result Allocation := do
  let args ← plan.argsOffset
  let dt ← plan.treeOffset
  let argsEnd ← add args plan.bootArgs.bytes.length
  let destination ← copyFrom s.destination args argsEnd plan.bootArgs.bytes
  let dtEnd ← add dt plan.deviceTree.length
  let destination ← copyFrom destination dt dtEnd plan.deviceTree
  pure { s with destination }

def stageIntoObserved (plan : Arm64HandoffPlan) :
    Exec Allocation Arm64HandoffError StagingVerification := do
  look fun s => rejectIf (s.destination.length ≠ plan.layout.allocationBytes) .destinationSize
  write fun s => { s with destination := List.replicate s.destination.length 0 }
  observe .destinationInitialized
  let verification ← plan.stageCollection
  observe .collectionVerified
  update plan.copyTail
  look fun s => plan.verifyTail s.destination
  observe .tailVerified
  pure verification

/-- `stage_into`: the result, and the bytes it leaves. -/
def stageInto (plan : Arm64HandoffPlan) (destination : Bytes) :
    Result StagingVerification × Bytes :=
  let out := plan.stageIntoObserved.on ⟨destination, []⟩
  (out.1, out.2.destination)

def verify (plan : Arm64HandoffPlan) (destination : Bytes) : Result Unit := do
  rejectIf (destination.length ≠ plan.layout.allocationBytes) .destinationSize
  let front ← index destination 0 plan.layout.kernelBytes
  let _ ← (plan.staging.verify front).mapErr .staging
  plan.verifyTail destination

end Target

end Arm64HandoffPlan

end Nextcore.Handoff
