import Nextcore.Lib.Outcome

/-!
XML property lists as the boot configuration reads them (`src/boot_config.rs`).

A `Document` is the tree that the XML parser yields. `validateStructure` is the check that every
configuration passes first, and `dictionaryValue`, `requireTag` and `scalarText` are how its
values are read.
-/

namespace Nextcore.BootConfig

open Checked Checked.Outcome

def maxXmlDepth : Nat := 64

inductive BootConfigError where
  | inputTooLarge
  | unsupportedFormat
  | invalidUtf8
  | invalidXml
  | invalidPlist
  | duplicateKey
  | invalidType
  | depthLimit
  | nodeLimit
  | entryLimit
  | ambiguousTarget
  | missingPath
  | invalidPath
  | pathTooLong
  | invalidArguments
  | argumentsTooLong
  | missingKernelTarget
  | unsupportedKernelProfile
  | invalidDisplayName
  | invalidApfsVolume
  | invalidTraceConfiguration
  | invalidPlatformConfiguration
  deriving DecidableEq, Repr

abbrev Result (α : Type) := Outcome BootConfigError α

/-! ### Trees -/

structure Attribute where
  name : String
  namespaceUri : Option String
  value : String

/-- A node below the document. -/
inductive Node where
  | element (name : String) (namespaceUri : Option String) (attributes : List Attribute)
      (children : List Node)
  | text (value : String)
  | comment
  | pi

namespace Node

def isElement : Node → Bool
  | .element .. => true
  | _ => false

def children : Node → List Node
  | .element _ _ _ children => children
  | _ => []

def attributes : Node → List Attribute
  | .element _ _ attributes _ => attributes
  | _ => []

/-- `node.attribute(name)`, for a name without a namespace. -/
def attributeValue (node : Node) (name : String) : Option String :=
  (node.attributes.find? fun a => a.namespaceUri = none ∧ a.name = name).map Attribute.value

/-- `node.has_tag_name(tag)`, for a tag without a namespace. -/
def hasTagName (node : Node) (tag : String) : Bool :=
  match node with
  | .element name _ _ _ => name = tag
  | _ => false

/-- `node.children().filter(Node::is_element)`. -/
def elements (node : Node) : List Node := node.children.filter isElement

end Node

/-- A document: one element, and what is before and behind it. -/
structure Document where
  before : List Node
  root : Node
  behind : List Node
  root_element : root.isElement = true
  others : ∀ node ∈ before ++ behind, node.isElement = false

/-! ### Values -/

def requireTag (node : Node) (tag : String) : Result Unit :=
  rejectIf (¬ node.hasTagName tag) .invalidType

/-- The text of one child, behind that of the children before it. -/
def appendText (value : String) : Node → Result String
  | .text more => pure (value ++ more)
  | .comment => pure value
  | _ => .err .invalidPlist

def scalarText (node : Node) : Result String := node.children.foldlM appendText ""

/-- The pairs of a dictionary, up to the one with the key that is wanted. -/
def valueAt (wanted : String) : List Node → Result (Option Node)
  | [] => pure none
  | [_] => .err .invalidPlist
  | key :: value :: rest => do
    let text ← scalarText key
    if text = wanted then pure (some value) else valueAt wanted rest

def dictionaryValue (dict : Node) (wanted : String) : Result (Option Node) :=
  valueAt wanted dict.elements

/-! ### The check of the structure -/

def isBlank (c : Char) : Bool := c = ' ' ∨ c = '\t' ∨ c = '\r' ∨ c = '\n'

/-- A text that is not blank. -/
def isMixed : Node → Bool
  | .text value => ! value.toList.all isBlank
  | _ => false

def noMixedText (children : List Node) : Result Unit :=
  rejectIf (children.any isMixed) .invalidPlist

/-- The pairs of a dictionary, with the keys before them. -/
def validateDict : List String → List Node → Result Unit
  | _, [] => pure ()
  | keys, [key] => do
    requireTag key "key"
    let text ← scalarText key
    rejectIf (text ∈ keys) .duplicateKey
    .err .invalidPlist
  | keys, key :: value :: rest => do
    requireTag key "key"
    let text ← scalarText key
    rejectIf (text ∈ keys) .duplicateKey
    rejectIf (value.hasTagName "key") .invalidPlist
    validateDict (text :: keys) rest

/-- The root has one element, a dictionary. -/
def validatePlist (isRoot : Bool) (elements : List Node) : Result Unit :=
  match elements with
  | [child] => rejectIf (isRoot = false ∨ ¬ child.hasTagName "dict") .invalidPlist
  | _ => .err .invalidPlist

/-- The `match` on the name of an element. -/
def validateElement (isRoot : Bool) (name : String) (node : Node) : Result Unit :=
  if name = "plist" then do
    noMixedText node.children
    validatePlist isRoot node.elements
  else if name = "dict" then do
    noMixedText node.children
    validateDict [] node.elements
  else if name = "array" then do
    noMixedText node.children
    rejectIf (node.children.any fun child => child.hasTagName "key") .invalidPlist
  else if name ∈ ["key", "string", "integer", "real", "date", "data"] then do
    let _ ← scalarText node
  else if name = "true" ∨ name = "false" then do
    let text ← scalarText node
    rejectIf (text ≠ "") .invalidPlist
  else .err .invalidType

mutual

/-- A node and what is below it, in document order. The depth counts the elements around a node,
with the node itself. -/
def validateNode (isRoot : Bool) (depth : Nat) : Node → Result Unit
  | .pi => .err .invalidPlist
  | .text _ => pure ()
  | .comment => pure ()
  | .element name namespaceUri attributes children => do
    rejectIf (depth > maxXmlDepth) .depthLimit
    rejectIf (namespaceUri.isSome ∨ isRoot = false ∧ attributes.length ≠ 0) .invalidPlist
    validateElement isRoot name (.element name namespaceUri attributes children)
    validateNodes (depth + 1) children

def validateNodes (depth : Nat) : List Node → Result Unit
  | [] => pure ()
  | node :: rest => do
    validateNode false depth node
    validateNodes depth rest

end

def validateStructure (document : Document) : Result Unit := do
  rejectIf (¬ document.root.hasTagName "plist" ∨
    document.root.attributeValue "version" ≠ some "1.0" ∨
    document.root.attributes.length ≠ 1) .invalidPlist
  validateNodes 1 document.before
  validateNode true 1 document.root
  validateNodes 1 document.behind

end Nextcore.BootConfig
