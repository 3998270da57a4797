import Nextcore.Lib.Bytes
import Nextcore.Lib.Span

/-!
Kernel collection metadata (`src/kernel_collection.rs`): the limits, the records that an
inspection returns and its errors. Integers of every width are naturals; the readers of
`Nextcore.KernelCollection.Reading` return them within their width.
-/

namespace Nextcore.KernelCollection

open Checked

def maxInputSize : Nat := 128 * 1024 * 1024
def maxCommands : Nat := 16384
def maxCommandBytes : Nat := 1024 * 1024
def maxSegments : Nat := 4096
def maxSections : Nat := 32768
def maxMembers : Nat := 512
def maxIdentifier : Nat := 1024
def maxFixupBytes : Nat := 16 * 1024 * 1024
def maxPageStartVisits : Nat := 1000000

structure FileRange where
  offset : Nat
  size : Nat
  deriving DecidableEq

/-- The file offsets of the range. -/
def FileRange.span (r : FileRange) : Span := ⟨r.offset, r.size⟩

structure SectionMetadata where
  address : Nat
  size : Nat
  fileOffset : Nat
  flags : Nat
  relocations : FileRange
  deriving DecidableEq

structure SegmentMetadata where
  name : Bytes
  address : Nat
  memorySize : Nat
  file : FileRange
  maximumProtection : Nat
  initialProtection : Nat
  flags : Nat
  sections : List SectionMetadata
  deriving DecidableEq

/-- The addresses of the segment. -/
def SegmentMetadata.memory (s : SegmentMetadata) : Span := ⟨s.address, s.memorySize⟩

inductive EntryMetadata where
  | unixThread64 (instructionPointer : Nat)
  | armThread64 (instructionPointer stackPointer cpsr flags : Nat)
  | main (textOffset stackSize : Nat)
  deriving DecidableEq

structure RelocationMetadata where
  localRange : FileRange
  external : FileRange
  localCount : Nat
  externalCount : Nat
  deriving DecidableEq

structure FixupSegmentMetadata where
  segmentIndex : Nat
  pointerFormat : Nat
  pageSize : Nat
  pageCount : Nat
  pagesWithFixups : Nat
  multipleStartPages : Nat
  segmentOffset : Nat
  deriving DecidableEq

structure ChainedFixupMetadata where
  file : FileRange
  importsCount : Nat
  importsFormat : Nat
  symbolsFormat : Nat
  segments : List FixupSegmentMetadata
  deriving DecidableEq

structure ImageMetadata where
  cpuType : Nat
  cpuSubtype : Nat
  headerFileOffset : Nat
  headerAddress : Nat
  fileType : Nat
  flags : Nat
  commandCount : Nat
  commandBytes : Nat
  segments : List SegmentMetadata
  /-- Belongs to this header only. -/
  entry : Option EntryMetadata
  relocations : Option RelocationMetadata
  chainedFixups : Option ChainedFixupMetadata
  deriving DecidableEq

structure FilesetMember where
  /-- Opaque bounded bytes, without the terminating NUL. -/
  identifier : Bytes
  image : ImageMetadata
  deriving DecidableEq

inductive PreparationRequirement where
  | collectionPlacement
  | kernelEntryAbi
  | platformHandoffProviders
  | classicRelocations
  | chainedRebasing
  | chainedImports
  | compressedFixupSymbols
  | unsupportedPointerFormat (format : Nat)
  deriving DecidableEq

structure KcMetadataInspection where
  collection : ImageMetadata
  members : List FilesetMember
  requirements : List PreparationRequirement
  deriving DecidableEq

inductive KcMetadataError where
  | inputTooLarge
  | truncated
  | overflow
  | limitExceeded
  | unsupportedFormat
  | unsupportedCpu
  | unsupportedFileType
  | unsupportedCommand
  | unsupportedSegmentFlags
  | unsupportedThreadState
  | unsupportedCollectionEntry
  | unsupportedFixupVersion
  | invalidHeader
  | invalidCommand
  | invalidSegment
  | invalidSection
  | invalidIdentifier
  | duplicateMember
  | overlappingRange
  | invalidMemberMapping
  | invalidLinkedit
  | invalidFixups
  | missingEntry
  | duplicateEntry
  | invalidEntry
  deriving DecidableEq

abbrev Result (α : Type) := Outcome KcMetadataError α

structure Budget where
  commands : Nat
  segments : Nat
  sections : Nat
  deriving DecidableEq

structure MemberReference where
  identifier : Bytes
  offset : Nat
  address : Nat
  deriving DecidableEq

structure ParsedImage where
  image : ImageMetadata
  members : List MemberReference
  deriving DecidableEq

inductive Profile where
  | x86_64
  | arm64
  deriving DecidableEq

end Nextcore.KernelCollection
