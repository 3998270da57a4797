import Mathlib.Data.List.Infix
import Nextcore.BootConfig.Trace
import Nextcore.Lib.Lines
import Nextcore.RuntimeDt.Prepare

/-!
Records that select a boot image (`src/selected_boot_input.rs`).

A record is a text of a few lines in a fixed order. It names files by their path, their size and
their SHA-256, which is any function of the bytes here. `copySelectedPayload` binds a decoded
payload to the selected image.
-/

namespace Nextcore.SelectedBoot

open Checked Checked.Outcome
open BootConfig (fromStrRadix)
open RuntimeDt (Sha256 asciiAlphanumeric)

inductive VerifyError where
  | missingSelection
  | invalidSelection
  | sizeMismatch
  | digestMismatch
  | invalidRecord
  | bindingMismatch
  | destinationCapacity
  deriving DecidableEq, Repr

abbrev Result (α : Type) := Outcome VerifyError α

def maxSelectedImageBytes : Nat := 64 * 1024 * 1024
def maxSelectedRecordBytes : Nat := 2048
def maxSelectedPayloadRecordBytes : Nat := 2048
def maxSelectedBootkcBytes : Nat := 128 * 1024 * 1024

structure ExpectedBootImage where
  byteLen : Nat
  sha256 : Bytes
  deriving DecidableEq, Repr

def ExpectedBootImage.new (byteLen : Nat) (sha256 : Bytes) : Result ExpectedBootImage := do
  rejectIf (byteLen = 0 ∨ byteLen > maxSelectedImageBytes) .invalidSelection
  pure ⟨byteLen, sha256⟩

structure SelectedCompanion where
  signedPath : String
  signed : ExpectedBootImage
  decodedPath : String
  decoded : ExpectedBootImage
  deriving DecidableEq, Repr

structure SelectedStartupCompanions where
  deviceClass : String
  sourceSha256 : Bytes
  manifestSha256 : Bytes
  sptm : SelectedCompanion
  txm : SelectedCompanion
  deriving DecidableEq, Repr

structure SelectedBootRecord where
  deviceClass : String
  sourceSha256 : Bytes
  manifestSha256 : Bytes
  imagePath : String
  expected : ExpectedBootImage
  deriving DecidableEq, Repr

structure SelectedPayloadRecord where
  signedSha256 : Bytes
  decodedPath : String
  expected : ExpectedBootImage
  deriving DecidableEq, Repr

structure SelectedBootKcRecord where
  deviceClass : String
  sourceSha256 : Bytes
  manifestSha256 : Bytes
  signedPath : String
  signed : ExpectedBootImage
  decodedPath : String
  decoded : ExpectedBootImage
  deriving DecidableEq, Repr

/-! ### Fields -/

def validEfiPath (path : String) : Bool :=
  2 ≤ (asBytes path).length && (asBytes path).length ≤ 1024 &&
    (asBytes "\\").isPrefixOf (asBytes path) && ¬ asBytes ".." <:+: asBytes path &&
    (asBytes path).all fun b => asciiAlphanumeric b || b ∈ asBytes "\\._-"

/-- `device_class.is_empty() || device_class.len() > 64 || ..`, the other way round. -/
def validDeviceClass (deviceClass : String) : Bool :=
  asBytes deviceClass ≠ [] && (asBytes deviceClass).length ≤ 64 &&
    (asBytes deviceClass).all fun b => asciiAlphanumeric b || b ∈ asBytes "-"

/-- The next line behind `key`, and the lines that follow. -/
def field (key : String) : List String → Result (String × List String)
  | [] => .err .invalidRecord
  | line :: rest => do
    let value ← ofOption .invalidRecord (stripPrefix key line)
    pure (value, rest)

def hexNibble (byte : UInt8) : Option UInt8 :=
  if 0x30 ≤ byte ∧ byte ≤ 0x39 then some (byte - 0x30)
  else if 0x61 ≤ byte ∧ byte ≤ 0x66 then some (byte - 0x61 + 10)
  else none

/-- `out[index] = (high << 4) | low`. -/
def putPair (out : Bytes) (index : Nat) (pair : Bytes) : Result Bytes := do
  let first ← byteAt pair 0
  let high ← ofOption .invalidRecord (hexNibble first)
  let second ← byteAt pair 1
  let low ← ofOption .invalidRecord (hexNibble second)
  if index < out.length then pure (out.set index ((high <<< 4) ||| low)) else .panic

def hexDigest (text : String) : Result Bytes := do
  rejectIf ((asBytes text).length ≠ 64) .invalidRecord
  (chunksExact (asBytes text) 2).zipIdx.foldlM (fun out pair => putPair out pair.2 pair.1)
    (List.replicate 32 0)

/-- A field that is a digest. -/
def digestField (key : String) (lines : List String) : Result (Bytes × List String) := do
  let (text, lines) ← field key lines
  let digest ← hexDigest text
  pure (digest, lines)

/-- A field that is a `usize`. -/
def sizeField (key : String) (lines : List String) : Result (Nat × List String) := do
  let (text, lines) ← field key lines
  let size ← ofOption .invalidRecord (fromStrRadix 10 text.toList)
  pure (size, lines)

/-! ### Records -/

/-- The lines behind the first one of a record. -/
def recordLines (maximum : Nat) (header : String) (input : Bytes) : Result (List String) := do
  rejectIf (input = [] ∨ input.length > maximum ∨ ¬ asBytes "\n" <:+ input) .invalidRecord
  let text ← ofOption .invalidRecord (fromUtf8 input)
  rejectIf ((lines text).head? ≠ some header) .invalidRecord
  pure (lines text).tail

/-- What a record is about: the device class, and the digests of the source and the manifest. -/
structure Identity where
  deviceClass : String
  sourceSha256 : Bytes
  manifestSha256 : Bytes
  deriving DecidableEq

def identity (lines : List String) : Result (Identity × List String) := do
  let (deviceClass, lines) ← field "device-class=" lines
  rejectIf (¬ validDeviceClass deviceClass) .invalidRecord
  let (sourceSha256, lines) ← digestField "source-sha256=" lines
  let (manifestSha256, lines) ← digestField "manifest-sha256=" lines
  pure (⟨deviceClass, sourceSha256, manifestSha256⟩, lines)

/-- A signed file and what it decodes to, as they are spelled. -/
structure FilePair where
  signedPath : String
  signedBytes : Nat
  signedSha256 : Bytes
  decodedPath : String
  decodedBytes : Nat
  decodedSha256 : Bytes
  deriving DecidableEq

/-- The six fields of a pair of files, which all start with `role`. -/
def filePair (role : String) (lines : List String) : Result (FilePair × List String) := do
  let (signedPath, lines) ← field (role ++ "signed-path=") lines
  let (signedBytes, lines) ← sizeField (role ++ "signed-bytes=") lines
  let (signedSha256, lines) ← digestField (role ++ "signed-sha256=") lines
  let (decodedPath, lines) ← field (role ++ "decoded-path=") lines
  let (decodedBytes, lines) ← sizeField (role ++ "decoded-bytes=") lines
  let (decodedSha256, lines) ← digestField (role ++ "decoded-sha256=") lines
  pure (⟨signedPath, signedBytes, signedSha256, decodedPath, decodedBytes, decodedSha256⟩, lines)

/-- `lines.next().is_some()` is refused. -/
def noMore (lines : List String) : Result Unit := rejectIf (lines ≠ []) .invalidRecord

def parseCompanion (role : String) (lines : List String) :
    Result (SelectedCompanion × List String) := do
  let (files, lines) ← filePair (role ++ "-") lines
  rejectIf (¬ validEfiPath files.signedPath ∨ ¬ validEfiPath files.decodedPath) .invalidRecord
  let signed ← ExpectedBootImage.new files.signedBytes files.signedSha256
  let decoded ← ExpectedBootImage.new files.decodedBytes files.decodedSha256
  pure (⟨files.signedPath, signed, files.decodedPath, decoded⟩, lines)

/-- Both are about one selection. -/
def SelectedStartupCompanions.bindsSelected (companions : SelectedStartupCompanions)
    (selected : SelectedBootRecord) : Bool :=
  companions.deviceClass = selected.deviceClass &&
    companions.sourceSha256 = selected.sourceSha256 &&
    companions.manifestSha256 = selected.manifestSha256

def SelectedBootKcRecord.bindsSelected (record : SelectedBootKcRecord)
    (selected : SelectedBootRecord) : Bool :=
  record.deviceClass = selected.deviceClass && record.sourceSha256 = selected.sourceSha256 &&
    record.manifestSha256 = selected.manifestSha256

def SelectedBootKcRecord.matchesSelectedPath (record : SelectedBootKcRecord)
    (selected : SelectedBootRecord) (configuredPath : String) : Bool :=
  record.bindsSelected selected && record.decodedPath = configuredPath

/-- The loops over the paths: a path and one behind it are the same but for the case of letters. -/
def sharesPath : List String → Bool
  | [] => false
  | path :: rest => rest.any (eqIgnoreAsciiCase path) || sharesPath rest

/-- The paths of the four files. -/
def SelectedStartupCompanions.paths (companions : SelectedStartupCompanions) : List String :=
  [companions.sptm.signedPath, companions.sptm.decodedPath, companions.txm.signedPath,
    companions.txm.decodedPath]

def SelectedStartupCompanions.pathsDisjointFrom (companions : SelectedStartupCompanions)
    (reserved : List String) : Bool :=
  companions.paths.all fun path => reserved.all fun other => ! eqIgnoreAsciiCase path other

def parseSelectedStartupCompanions (input : Bytes) : Result SelectedStartupCompanions := do
  let lines ← recordLines maxSelectedRecordBytes "nextcore-selected-startup-companions-v1" input
  let (id, lines) ← identity lines
  let (sptm, lines) ← parseCompanion "sptm" lines
  let (txm, lines) ← parseCompanion "txm" lines
  noMore lines
  let companions : SelectedStartupCompanions :=
    ⟨id.deviceClass, id.sourceSha256, id.manifestSha256, sptm, txm⟩
  rejectIf (sharesPath companions.paths) .invalidRecord
  pure companions

def parseSelectedBootkcRecord (input : Bytes) : Result SelectedBootKcRecord := do
  let lines ← recordLines maxSelectedRecordBytes "nextcore-selected-bootkc-v1" input
  let (id, lines) ← identity lines
  let (files, lines) ← filePair "" lines
  rejectIf (lines ≠ [] ∨ ¬ validEfiPath files.signedPath ∨ ¬ validEfiPath files.decodedPath ∨
    files.signedPath = files.decodedPath) .invalidRecord
  let signed ← ExpectedBootImage.new files.signedBytes files.signedSha256
  rejectIf (files.decodedBytes = 0 ∨ files.decodedBytes > maxSelectedBootkcBytes) .invalidSelection
  pure
    { deviceClass := id.deviceClass, sourceSha256 := id.sourceSha256,
      manifestSha256 := id.manifestSha256, signedPath := files.signedPath, signed,
      decodedPath := files.decodedPath, decoded := ⟨files.decodedBytes, files.decodedSha256⟩ }

def parseSelectedPayloadRecord (input : Bytes) : Result SelectedPayloadRecord := do
  let lines ← recordLines maxSelectedPayloadRecordBytes "nextcore-selected-iboot-payload-v1" input
  let (signedSha256, lines) ← digestField "signed-sha256=" lines
  let (decodedPath, lines) ← field "decoded-path=" lines
  rejectIf (¬ validEfiPath decodedPath) .invalidRecord
  let (byteLen, lines) ← sizeField "decoded-bytes=" lines
  let (sha256, lines) ← digestField "decoded-sha256=" lines
  noMore lines
  let expected ← ExpectedBootImage.new byteLen sha256
  pure ⟨signedSha256, decodedPath, expected⟩

def parseSelectedBootRecord (input : Bytes) : Result SelectedBootRecord := do
  let lines ← recordLines maxSelectedRecordBytes "nextcore-selected-iboot-v1" input
  let (id, lines) ← identity lines
  let (imagePath, lines) ← field "image-path=" lines
  rejectIf (¬ validEfiPath imagePath) .invalidRecord
  let (byteLen, lines) ← sizeField "image-bytes=" lines
  let (sha256, lines) ← digestField "image-sha256=" lines
  noMore lines
  let expected ← ExpectedBootImage.new byteLen sha256
  pure ⟨id.deviceClass, id.sourceSha256, id.manifestSha256, imagePath, expected⟩

/-! ### Verification -/

section Verification

variable [Sha256]

structure VerifiedBootImage where
  bytes : Bytes
  sha256 : Bytes
  deriving DecidableEq

def verifySelectedImage (selection : Option ExpectedBootImage) (source : Bytes) :
    Result VerifiedBootImage := do
  let selection ← ofOption .missingSelection selection
  rejectIf (source.length ≠ selection.byteLen) .sizeMismatch
  let measured := Sha256.digest source
  rejectIf (measured ≠ selection.sha256) .digestMismatch
  pure ⟨source, measured⟩

/-- The record is the one whose digest is sealed. -/
def verifySelectedRecordDigest (expected : Option Bytes) (record : Bytes) : Result Unit := do
  let expected ← ofOption .missingSelection expected
  rejectIf (record = [] ∨ record.length > maxSelectedRecordBytes) .invalidRecord
  let measured := Sha256.digest record
  rejectIf (measured ≠ expected) .digestMismatch

/-- The receiver is the destination. -/
def copySelectedPayload (selected : SelectedBootRecord) (signed : Bytes)
    (companion : SelectedPayloadRecord) (decoded : Bytes) : Exec Bytes VerifyError Nat := do
  let _ ← Exec.lift (verifySelectedImage (some selected.expected) signed)
  Exec.lift (rejectIf (companion.signedSha256 ≠ selected.expected.sha256 ∨
    companion.decodedPath = selected.imagePath) .bindingMismatch)
  let verified ← Exec.lift (verifySelectedImage (some companion.expected) decoded)
  Exec.look fun destination =>
    rejectIf (destination.length < verified.bytes.length) .destinationCapacity
  Exec.update fun destination => copyFrom destination 0 verified.bytes.length verified.bytes
  pure verified.bytes.length

end Verification

end Nextcore.SelectedBoot
