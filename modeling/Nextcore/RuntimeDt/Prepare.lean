import Nextcore.FirmwareDt.Parse

/-!
Materialization of provider values into a runtime device tree (`src/runtime_dt.rs`).

`prepare` parses the firmware tree, checks the bindings against its templates, measures the
output, writes it and has it validated. A binding names a template by the digest of the source and
the offset of the property, so SHA-256 is a parameter: any function of the bytes. Allocations
succeed.
-/

namespace Nextcore.RuntimeDt

open Checked Checked.Outcome
open FirmwareDt (FirmwareProperty FirmwareNode FirmwareDeviceTree FirmwareDtError templateFlag)
open FlatDt (FlatDtError)

/-- `Sha256::digest`. -/
class Sha256 where
  digest : Bytes → Bytes

def maxOutputBytes : Nat := FlatDt.maxSerializedSize
def maxBindings : Nat := FlatDt.maxProperties

structure PropertyId where
  sourceSha256 : Bytes
  propertyOffset : Nat
  deriving DecidableEq

/-- Bytes from the caller, with a label of where they come from. -/
structure ProvidedValue where
  property : PropertyId
  provider : String
  value : Bytes
  deriving DecidableEq

inductive Error where
  | firmware (error : FirmwareDtError)
  | runtime (error : FlatDtError)
  | limits
  | allocation
  | sourceIdentity
  | structuralTemplate
  | invalidProvider
  | duplicateBinding
  | unknownBinding
  | missingProviders (ids : List PropertyId)
  | arithmeticOverflow
  | invalidRam
  | invalidReservation
  | destinationCapacity
  deriving DecidableEq

abbrev Result (α : Type) := Outcome Error α

section Identity

variable [Sha256]

def sourceIdentity (source : Bytes) : Bytes := Sha256.digest source

end Identity

/-! ### Templates -/

/-- The loop over the properties in `collect_templates`. -/
def collectProperties (digest : Bytes) : List FirmwareProperty → (ids : List PropertyId) →
    Result (List PropertyId)
  | [], ids => pure ids
  | property :: rest, ids =>
    if property.kind = .template then do
      rejectIf (property.name = "name") .structuralTemplate
      rejectIf (ids.length = maxBindings) .limits
      collectProperties digest rest (ids ++ [⟨digest, property.offset⟩])
    else collectProperties digest rest ids

mutual

def collectTemplates : FirmwareNode → (digest : Bytes) → (ids : List PropertyId) →
    Result (List PropertyId)
  | ⟨_, properties, children⟩, digest, ids => do
    let ids ← collectProperties digest properties ids
    collectChildren children digest ids

/-- The loop over the children in `collect_templates`. -/
def collectChildren : List FirmwareNode → (digest : Bytes) → (ids : List PropertyId) →
    Result (List PropertyId)
  | [], _, ids => pure ids
  | child :: rest, digest, ids => do
    let ids ← collectTemplates child digest ids
    collectChildren rest digest ids

end

/-- The templates of a source, in document order. -/
def templateIds [Sha256] (source : Bytes) : Result (List PropertyId) := do
  let tree ← (FirmwareDeviceTree.parse source).mapErr .firmware
  collectTemplates tree.root (sourceIdentity source) []

/-! ### Measuring and writing -/

/-- The bytes that a property takes, from the length of its value. -/
def propertyWireBytes (valueLength : Nat) : Result Nat := do
  let padded ← ofOption .arithmeticOverflow (checkedAdd valueLength 3)
  let total ← ofOption .arithmeticOverflow (checkedAdd (andNot padded 3) 36)
  rejectIf (valueLength ≥ templateFlag) .limits
  pure total

def replacement (offset : Nat) (provided : List ProvidedValue) : Option ProvidedValue :=
  provided.find? fun binding => binding.property.propertyOffset = offset

/-- The length of the value that a property gets. -/
def measuredLength (property : FirmwareProperty) (provided : List ProvidedValue) : Result Nat :=
  match property.kind with
  | .literal => pure property.value.length
  | .template => do
    let binding ← ofOption .unknownBinding (replacement property.offset provided)
    pure binding.value.length

/-- The loop over the properties in `measure`. -/
def measureProperties (provided : List ProvidedValue) : List FirmwareProperty → (total : Nat) →
    Result Nat
  | [], total => pure total
  | property :: rest, total => do
    let length ← measuredLength property provided
    let size ← propertyWireBytes length
    let total ← ofOption .arithmeticOverflow (checkedAdd total size)
    measureProperties provided rest total

mutual

def measure : FirmwareNode → (provided : List ProvidedValue) → (total : Nat) → Result Nat
  | ⟨_, properties, children⟩, provided, total => do
    let total ← ofOption .arithmeticOverflow (checkedAdd total 8)
    let total ← measureProperties provided properties total
    measureChildren children provided total

/-- The loop over the children in `measure`. -/
def measureChildren : List FirmwareNode → (provided : List ProvidedValue) → (total : Nat) →
    Result Nat
  | [], _, total => pure total
  | child :: rest, provided, total => do
    let total ← measure child provided total
    measureChildren rest provided total

end

/-- One property. The binding of a template was found before anything is written. -/
def writeProperty (property : FirmwareProperty) (provided : List ProvidedValue) (output : Bytes) :
    Result Bytes :=
  let output := output ++ property.rawName
  if property.kind = .literal then
    pure (output ++ toLeBytes 4 property.rawLength ++ property.value ++ property.padding)
  else do
    let binding ← expect (replacement property.offset provided)
    let value := binding.value
    let output := output ++ toLeBytes 4 (value.length % 2 ^ 32) ++ value
    let size ← add output.length ((4 - value.length % 4) % 4)
    pure (resize output size)

/-- The loop over the properties in `write`. -/
def writeProperties (provided : List ProvidedValue) : List FirmwareProperty → (output : Bytes) →
    Result Bytes
  | [], output => pure output
  | property :: rest, output => do
    let output ← writeProperty property provided output
    writeProperties provided rest output

mutual

def write : FirmwareNode → (provided : List ProvidedValue) → (output : Bytes) → Result Bytes
  | ⟨_, properties, children⟩, provided, output => do
    let output := output ++ toLeBytes 4 (properties.length % 2 ^ 32) ++
      toLeBytes 4 (children.length % 2 ^ 32)
    let output ← writeProperties provided properties output
    writeChildren children provided output

/-- The loop over the children in `write`. -/
def writeChildren : List FirmwareNode → (provided : List ProvidedValue) → (output : Bytes) →
    Result Bytes
  | [], _, output => pure output
  | child :: rest, provided, output => do
    let output ← write child provided output
    writeChildren rest provided output

end

/-! ### Preparation -/

structure AppliedBinding where
  property : PropertyId
  provider : String
  valueSha256 : Bytes
  valueBytes : Nat
  deriving DecidableEq

structure MaterializedTree where
  source : Bytes
  bytes : Bytes
  sourceSha256 : Bytes
  replacementCount : Nat
  bindings : List AppliedBinding
  deriving DecidableEq

/-- `is_ascii_alphanumeric`. -/
def asciiAlphanumeric (b : UInt8) : Bool :=
  (48 ≤ b ∧ b ≤ 57) ∨ (65 ≤ b ∧ b ≤ 90) ∨ (97 ≤ b ∧ b ≤ 122)

/-- The checks of one binding, behind those of `earlier`. -/
def checkBinding (digest : Bytes) (templates : List PropertyId) (earlier : List ProvidedValue)
    (binding : ProvidedValue) : Result Unit := do
  rejectIf (binding.property.sourceSha256 ≠ digest) .sourceIdentity
  rejectIf (asBytes binding.provider = [] ∨ (asBytes binding.provider).length > 64 ∨
    ¬ (asBytes binding.provider).all fun b => asciiAlphanumeric b ∨ b ∈ asBytes "-_.:/")
    .invalidProvider
  rejectIf (earlier.any fun p => p.property = binding.property) .duplicateBinding
  rejectIf (binding.property ∉ templates) .unknownBinding

/-- The loop over the bindings in `prepare`. -/
def checkBindings (digest : Bytes) (templates : List PropertyId) (earlier : List ProvidedValue) :
    List ProvidedValue → Result Unit
  | [] => pure ()
  | binding :: rest => do
    checkBinding digest templates earlier binding
    checkBindings digest templates (earlier ++ [binding]) rest

/-- `debug_assert!`. -/
def debugAssert (p : Prop) [Decidable p] : Result Unit := if p then pure () else .panic

def prepare [Sha256] (source : Bytes) (provided : List ProvidedValue) (maximumOutput : Nat) :
    Result MaterializedTree := do
  rejectIf (maximumOutput = 0 ∨ maximumOutput > maxOutputBytes ∨ provided.length > maxBindings)
    .limits
  let tree ← (FirmwareDeviceTree.parse source).mapErr .firmware
  let digest := sourceIdentity source
  let templates ← collectTemplates tree.root digest []
  checkBindings digest templates [] provided
  let missing := templates.filter fun id => (replacement id.propertyOffset provided).isNone
  rejectIf (missing ≠ []) (.missingProviders missing)
  let length ← measure tree.root provided 0
  rejectIf (length > maximumOutput) .limits
  let bytes ← write tree.root provided []
  debugAssert (bytes.length = length)
  (FlatDt.validate bytes).mapErr .runtime
  pure ⟨source, bytes, digest, templates.length, provided.map fun binding =>
    ⟨binding.property, binding.provider, sourceIdentity binding.value, binding.value.length⟩⟩

end Nextcore.RuntimeDt
