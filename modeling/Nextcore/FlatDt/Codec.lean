import Nextcore.Lib.Reader

/-!
The flattened device-tree codec (`src/flat_dt.rs`): a bounded encoder of a model, and a
validator of bytes.

The encoder measures the model first and then writes it; the validator reads the bytes once.
Both spend one `Budget`. A read that fails leaves nothing behind, so the cursor and the budget
are passed along and not held mutably; the buffers of names that `read_node` fills are the lists
of the names so far. Allocations succeed.
-/

namespace Nextcore.FlatDt

open Checked Checked.Outcome

def maxSerializedSize : Nat := 1024 * 1024
/-- The root has depth 0. A node at this depth cannot have children. -/
def maxDepth : Nat := 32
def maxNodes : Nat := 1024
def maxProperties : Nat := 4096
/-- Includes the `name` property. -/
def maxPropertiesPerNode : Nat := 64
def maxChildrenPerNode : Nat := 64
def maxNodeName : Nat := 63
def maxPropertyName : Nat := 31

structure FlatProperty where
  name : String
  value : Bytes
  deriving DecidableEq

/-- A node of the model. Its name is written as a property in front of the others. -/
structure FlatNode where
  name : String
  properties : List FlatProperty
  children : List FlatNode

inductive FlatDtError where
  | invalidNodeName
  | invalidPropertyName
  | duplicateProperty
  | duplicateChild
  | invalidNameProperty
  | limitsExceeded
  | truncated
  | invalidPadding
  | trailingData
  | allocationFailed
  deriving DecidableEq, Repr

abbrev Result (α : Type) := Outcome FlatDtError α

/-! ### The budget -/

@[ext] structure Budget where
  nodes : Nat
  properties : Nat
  bytes : Nat
  deriving DecidableEq

/-- `Budget::default()`. -/
def Budget.empty : Budget := ⟨0, 0, 0⟩

def Budget.addBytes (budget : Budget) (bytes : Nat) : Result Budget := do
  let bytes ← ofOption .limitsExceeded (checkedAdd budget.bytes bytes)
  rejectIf (bytes > maxSerializedSize) .limitsExceeded
  pure { budget with bytes }

def Budget.node (budget : Budget) (depth properties children : Nat) : Result Budget := do
  rejectIf (depth > maxDepth ∨ properties = 0 ∨ properties > maxPropertiesPerNode ∨
    children > maxChildrenPerNode) .limitsExceeded
  let nodes ← ofOption .limitsExceeded (checkedAdd budget.nodes 1)
  let properties ← ofOption .limitsExceeded (checkedAdd budget.properties properties)
  rejectIf (nodes > maxNodes ∨ properties > maxProperties) .limitsExceeded
  { budget with nodes, properties }.addBytes 8

/-! ### Checks of names and sizes -/

/-- The bytes that a property takes, from the size of its value. -/
def propertySize (valueSize : Nat) : Result Nat := do
  rejectIf (valueSize > maxSerializedSize) .limitsExceeded
  let padded ← add valueSize 3
  add 36 (andNot padded 3)

def printable (bytes : Bytes) : Bool := bytes.all fun b => 0x20 ≤ b ∧ b ≤ 0x7e

def checkNodeName (name : Bytes) (depth : Nat) : Result Unit :=
  rejectIf (name.length > maxNodeName ∨ (name = [] ∧ depth ≠ 0) ∨ printable name = false)
    .invalidNodeName

def checkPropertyName (name : Bytes) : Result Unit :=
  rejectIf (name = [] ∨ name.length > maxPropertyName ∨ printable name = false)
    .invalidPropertyName

/-! ### Encoding -/

/-- The loop over the properties in `measure_node`, behind those of `earlier`. -/
def measureProperties (earlier : List FlatProperty) : List FlatProperty → Budget → Result Budget
  | [], budget => pure budget
  | property :: rest, budget => do
    checkPropertyName (asBytes property.name)
    rejectIf (property.name = "name" ∨ earlier.any fun p => p.name = property.name)
      .duplicateProperty
    let size ← propertySize property.value.length
    let budget ← budget.addBytes size
    measureProperties (earlier ++ [property]) rest budget

mutual

def measureNode : FlatNode → (depth : Nat) → Budget → Result Budget
  | ⟨name, properties, children⟩, depth, budget => do
    let propertyCount ← ofOption .limitsExceeded (checkedAdd properties.length 1)
    let budget ← budget.node depth propertyCount children.length
    checkNodeName (asBytes name) depth
    let nameSize ← add (asBytes name).length 1
    let size ← propertySize nameSize
    let budget ← budget.addBytes size
    let budget ← measureProperties [] properties budget
    measureChildren [] children depth budget

/-- The loop over the children in `measure_node`, behind those of `earlier`. -/
def measureChildren (earlier : List FlatNode) : List FlatNode → (depth : Nat) → Budget →
    Result Budget
  | [], _, budget => pure budget
  | child :: rest, depth, budget => do
    rejectIf (earlier.any fun c => c.name = child.name) .duplicateChild
    let budget ← measureNode child (depth + 1) budget
    measureChildren (earlier ++ [child]) rest depth budget

end

def writeProperty (name value bytes : Bytes) : Result Bytes := do
  let length ← tryU32 value.length .limitsExceeded
  let wireName ← copyFrom (List.replicate 32 0) 0 name.length name
  let bytes := bytes ++ wireName ++ toLeBytes 4 length ++ value
  let padded ← add bytes.length 3
  pure (resize bytes (andNot padded 3))

/-- The loop over the properties in `write_node`. -/
def writeProperties : List FlatProperty → Bytes → Result Bytes
  | [], bytes => pure bytes
  | property :: rest, bytes => do
    let bytes ← writeProperty (asBytes property.name) property.value bytes
    writeProperties rest bytes

mutual

def writeNode : FlatNode → (bytes : Bytes) → Result Bytes
  | ⟨name, properties, children⟩, bytes => do
    let propertyCount ← add properties.length 1
    let propertyCount ← tryU32 propertyCount .limitsExceeded
    let childCount ← tryU32 children.length .limitsExceeded
    let bytes := bytes ++ toLeBytes 4 propertyCount ++ toLeBytes 4 childCount
    let nameValue ← copyFrom (List.replicate (maxNodeName + 1) 0) 0 (asBytes name).length
      (asBytes name)
    let nameValue ← index nameValue 0 ((asBytes name).length + 1)
    let bytes ← writeProperty (asBytes "name") nameValue bytes
    let bytes ← writeProperties properties bytes
    writeChildren children bytes

/-- The loop over the children in `write_node`. -/
def writeChildren : List FlatNode → (bytes : Bytes) → Result Bytes
  | [], bytes => pure bytes
  | child :: rest, bytes => do
    let bytes ← writeNode child bytes
    writeChildren rest bytes

end

/-- Measures the whole model before anything is written. -/
def encode (root : FlatNode) : Result Bytes := do
  let _ ← measureNode root 0 .empty
  writeNode root []

/-! ### Validation -/

/-- `take`. -/
def takeBytes (bytes : Bytes) (cursor size : Nat) : Result (Bytes × Nat) :=
  take .truncated bytes cursor size

def readU32 (bytes : Bytes) (cursor : Nat) : Result (Nat × Nat) :=
  takeWord .truncated 4 bytes cursor

/-- The cursor and the budget of a read. -/
@[ext] structure Reading where
  cursor : Nat
  budget : Budget
  deriving DecidableEq

/-- What the loop over the properties of a node carries: the names so far, and the name of the
node once its property was read. -/
structure PropertyScan where
  names : List Bytes
  nodeName : Option Bytes
  reading : Reading

/-- The name in a field of 32 bytes. -/
def readName (bytes : Bytes) (cursor : Nat) : Result (Bytes × Nat) := do
  let (wireName, cursor) ← takeBytes bytes cursor 32
  let terminator ← ofOption .invalidPropertyName (wireName.findIdx? (· = 0))
  let name ← index wireName 0 terminator
  checkPropertyName name
  let padding ← indexFrom wireName terminator
  rejectIf (padding.any (· ≠ 0)) .invalidPropertyName
  pure (name, cursor)

/-- The name of the node, from the value of its `name` property. -/
def nameOfValue (value : Bytes) (depth : Nat) : Result Bytes := do
  rejectIf (value.getLast? ≠ some 0) .invalidNameProperty
  let size ← sub value.length 1
  let name ← index value 0 size
  checkNodeName name depth
  pure name

/-- `node_name` behind a property: what it was, unless the property is called `name`. -/
def nextNodeName (depth : Nat) (name value : Bytes) (nodeName : Option Bytes) :
    Result (Option Bytes) :=
  if name = asBytes "name" then do
    let valueName ← nameOfValue value depth
    pure (some valueName)
  else pure nodeName

/-- One property. -/
def readProperty (bytes : Bytes) (depth : Nat) (scan : PropertyScan) : Result PropertyScan := do
  let (name, cursor) ← readName bytes scan.reading.cursor
  rejectIf (name ∈ scan.names) .duplicateProperty
  let (size, cursor) ← readU32 bytes cursor
  let wireSize ← propertySize size
  let budget ← scan.reading.budget.addBytes wireSize
  let (value, cursor) ← takeBytes bytes cursor size
  let nodeName ← nextNodeName depth name value scan.nodeName
  let (padding, cursor) ← takeBytes bytes cursor ((4 - size % 4) % 4)
  rejectIf (padding.any (· ≠ 0)) .invalidPadding
  pure ⟨scan.names ++ [name], nodeName, cursor, budget⟩

/-- `for index in 0..properties`. -/
def readProperties (bytes : Bytes) (depth : Nat) : (count : Nat) → PropertyScan →
    Result PropertyScan
  | 0, scan => pure scan
  | count + 1, scan => do
    let scan ← readProperty bytes depth scan
    readProperties bytes depth count scan

/-- What `read_node` reads in front of the children: their number, and the node's name. -/
def readHeader (bytes : Bytes) (depth : Nat) (reading : Reading) :
    Result (Nat × Bytes × Reading) := do
  let (properties, cursor) ← readU32 bytes reading.cursor
  let (children, cursor) ← readU32 bytes cursor
  let budget ← reading.budget.node depth properties children
  let scan ← readProperties bytes depth properties ⟨[], none, cursor, budget⟩
  let nodeName ← ofOption .invalidNameProperty scan.nodeName
  pure (children, nodeName, scan.reading)

/-- `for index in 0..children`, with the names so far. -/
def readChildren (child : Reading → Result (Bytes × Reading)) : (count : Nat) →
    (names : List Bytes) → Reading → Result Reading
  | 0, _, reading => pure reading
  | count + 1, names, reading => do
    let (name, reading) ← child reading
    rejectIf (name ∈ names) .duplicateChild
    readChildren child count (names ++ [name]) reading

theorem depth_le_of_node {budget budget' : Budget} {depth properties children : Nat}
    (spent : budget.node depth properties children = .ok budget') : depth ≤ maxDepth := by
  obtain ⟨_, within, _⟩ := bind_eq_ok.mp spent
  rw [rejectIf_eq_ok, not_or, Nat.not_lt] at within
  exact within.1

theorem depth_le_of_readHeader {bytes : Bytes} {depth : Nat} {reading : Reading}
    {header : Nat × Bytes × Reading} (read : readHeader bytes depth reading = .ok header) :
    depth ≤ maxDepth := by
  simp only [readHeader, bind_eq_ok] at read
  obtain ⟨_, _, _, _, budget, spent, _⟩ := read
  exact depth_le_of_node spent

/-- `read_node`: the name of the node. It ends because the budget admits no node below the
greatest depth. -/
def readNode (bytes : Bytes) (depth : Nat) (reading : Reading) : Result (Bytes × Reading) :=
  match _ : readHeader bytes depth reading with
  | .ok (children, name, reading) => do
    let reading ← readChildren (readNode bytes (depth + 1)) children [] reading
    pure (name, reading)
  | .err e => .err e
  | .panic => .panic
termination_by maxDepth + 1 - depth
decreasing_by
  have := depth_le_of_readHeader ‹readHeader bytes depth _ = .ok _›
  omega

def validate (bytes : Bytes) : Result Unit := do
  rejectIf (bytes.length > maxSerializedSize) .limitsExceeded
  let (_, reading) ← readNode bytes 0 ⟨0, .empty⟩
  rejectIf (reading.cursor ≠ bytes.length) .trailingData

/-- The smallest tree, and the bytes of a root that is called `/`. -/
example : encode ⟨"/", [], []⟩ = .ok (toLeBytes 4 1 ++ toLeBytes 4 0 ++ asBytes "name" ++
    List.replicate 28 0 ++ toLeBytes 4 2 ++ [47, 0, 0, 0]) := by decide +kernel

end Nextcore.FlatDt
