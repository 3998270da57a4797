import Nextcore.Lib.Reader
import Nextcore.Lib.Text
import Nextcore.FlatDt.Codec

/-!
The firmware device tree (`src/firmware_dt.rs`): a borrowed view of its properties and templates.

The parser is a position in the source and the statistics so far. It counts the nodes and the
properties of a node before it reads its children, and compares what the counts say with what
the limits leave, by subtraction. Slices that borrow the source are byte strings here, and
allocations succeed.
-/

namespace Nextcore.FirmwareDt

open Checked Checked.Outcome
open FlatDt (FlatDtError)

/-- `1 << 31`. -/
def templateFlag : Nat := 2 ^ 31
def maxInputBytes : Nat := 1024 * 1024
def maxNodes : Nat := 4096
def maxProperties : Nat := 16384
def maxPropertiesPerNode : Nat := 1024
def maxChildrenPerNode : Nat := 1024
def maxDepth : Nat := 32

inductive PropertyKind where
  | literal
  | template
  deriving DecidableEq, Repr

structure FirmwareDtStatistics where
  nodes : Nat
  properties : Nat
  templates : Nat
  maximumDepth : Nat
  deriving DecidableEq

/-- `FirmwareDtStatistics::default()`. -/
def FirmwareDtStatistics.empty : FirmwareDtStatistics := ⟨0, 0, 0, 0⟩

inductive FirmwareDtError where
  | inputTooLarge
  | truncated
  | limitsExceeded
  | invalidPropertyName
  | trailingData
  | allocationFailed
  | unresolvedTemplates (count : Nat)
  | runtime (error : FlatDtError)
  deriving DecidableEq, Repr

abbrev Result (α : Type) := Outcome FirmwareDtError α

structure FirmwareProperty where
  offset : Nat
  rawName : Bytes
  name : String
  rawLength : Nat
  value : Bytes
  padding : Bytes
  deriving DecidableEq

def FirmwareProperty.kind (p : FirmwareProperty) : PropertyKind :=
  if p.rawLength &&& templateFlag ≠ 0 then .template else .literal

structure FirmwareNode where
  offset : Nat
  properties : List FirmwareProperty
  children : List FirmwareNode

structure FirmwareDeviceTree where
  source : Bytes
  root : FirmwareNode
  statistics : FirmwareDtStatistics

structure Parser where
  position : Nat
  statistics : FirmwareDtStatistics
  deriving DecidableEq

section Parser

variable (source : Bytes)

def Parser.take (parser : Parser) (count : Nat) : Result (Bytes × Parser) := do
  let (bytes, position) ← Checked.take .truncated source parser.position count
  pure (bytes, { parser with position })

def Parser.word (parser : Parser) : Result (Nat × Parser) := do
  let (word, position) ← takeWord .truncated 4 source parser.position
  pure (word, { parser with position })

def printable (bytes : Bytes) : Bool := bytes.all fun byte => 0x20 ≤ byte ∧ byte ≤ 0x7e

/-- The name in a field of 32 bytes: a field without a zero is a name to its end. -/
def propertyName (rawName : Bytes) : Result String := do
  let terminator := (rawName.findIdx? (· = 0)).getD 32
  let front ← index rawName 0 terminator
  let back ← indexFrom rawName terminator
  rejectIf (terminator = 0 ∨ printable front = false ∨ back.any (· ≠ 0)) .invalidPropertyName
  ofOption .invalidPropertyName (fromUtf8 front)

/-- The templates counted behind a property. -/
def countTemplate (rawLength templates : Nat) : Result Nat :=
  if rawLength &&& templateFlag ≠ 0 then add templates 1 else pure templates

/-- One property. -/
def Parser.property (parser : Parser) : Result (FirmwareProperty × Parser) := do
  let offset := parser.position
  let (rawName, parser) ← parser.take source 32
  let name ← propertyName rawName
  let (rawLength, parser) ← parser.word source
  let length := andNot rawLength templateFlag
  let (value, parser) ← parser.take source length
  let (padding, parser) ← parser.take source ((4 - length % 4) % 4)
  let templates ← countTemplate rawLength parser.statistics.templates
  pure (⟨offset, rawName, name, rawLength, value, padding⟩,
    { parser with statistics := { parser.statistics with templates } })

/-- `for _ in 0..property_count`. -/
def Parser.properties : (count : Nat) → Parser → Result (List FirmwareProperty × Parser)
  | 0, parser => pure ([], parser)
  | count + 1, parser => do
    let (property, parser) ← parser.property source
    let (rest, parser) ← Parser.properties count parser
    pure (property :: rest, parser)

/-- The two counts of a node, held against the limits and the bytes that are left. -/
def Parser.counts (parser : Parser) (depth : Nat) : Result (Nat × Nat × Parser) := do
  let (propertyCount, parser) ← parser.word source
  let (childCount, parser) ← parser.word source
  let propertiesLeft ← sub maxProperties parser.statistics.properties
  let nodesLeft ← sub maxNodes parser.statistics.nodes
  let childrenLeft ← sub nodesLeft 1
  rejectIf (propertyCount > maxPropertiesPerNode ∨ childCount > maxChildrenPerNode ∨
    propertyCount > propertiesLeft ∨ childCount > childrenLeft) .limitsExceeded
  let childBytes ← mul childCount 8
  let minimum ← ofOption .limitsExceeded
    ((checkedMul propertyCount 36).bind fun n => checkedAdd n childBytes)
  let bytesLeft ← sub source.length parser.position
  rejectIf (minimum > bytesLeft) .truncated
  let nodes ← add parser.statistics.nodes 1
  let properties ← add parser.statistics.properties propertyCount
  let maximumDepth := max parser.statistics.maximumDepth depth
  pure (propertyCount, childCount,
    { parser with statistics := { parser.statistics with nodes, properties, maximumDepth } })

/-- `for _ in 0..child_count`. -/
def Parser.children (child : Parser → Result (FirmwareNode × Parser)) : (count : Nat) → Parser →
    Result (List FirmwareNode × Parser)
  | 0, parser => pure ([], parser)
  | count + 1, parser => do
    let (node, parser) ← child parser
    let (rest, parser) ← Parser.children child count parser
    pure (node :: rest, parser)

def Parser.node (depth : Nat) (parser : Parser) : Result (FirmwareNode × Parser) :=
  if _ : depth > maxDepth ∨ parser.statistics.nodes = maxNodes then .err .limitsExceeded
  else do
    let offset := parser.position
    let (propertyCount, childCount, parser) ← parser.counts source depth
    let (properties, parser) ← Parser.properties source propertyCount parser
    let (children, parser) ← Parser.children (Parser.node (depth + 1)) childCount parser
    pure (⟨offset, properties, children⟩, parser)
termination_by maxDepth + 1 - depth

end Parser

def FirmwareDeviceTree.parse (source : Bytes) : Result FirmwareDeviceTree := do
  rejectIf (source.length > maxInputBytes) .inputTooLarge
  let (root, parser) ← Parser.node source 0 ⟨0, .empty⟩
  rejectIf (parser.position ≠ source.length) .trailingData
  pure ⟨source, root, parser.statistics⟩

/-- Only bytes without a template may be handed on as they are. -/
def FirmwareDeviceTree.validatedRuntimeBytes (tree : FirmwareDeviceTree) : Result Bytes := do
  rejectIf (tree.statistics.templates ≠ 0) (.unresolvedTemplates tree.statistics.templates)
  (FlatDt.validate tree.source).mapErr .runtime
  pure tree.source

end Nextcore.FirmwareDt
