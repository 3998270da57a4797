import Nextcore.BootConfig.Document

/-!
The boot menu and the single boot target (`src/boot_config.rs`).

Both parsers start from the tree that the XML parser yields, and go over `Misc.Entries` in loops
of their own: `menuEntry` and `selectEntry` are the bodies of the two loops.
-/

namespace Nextcore.BootConfig

open Checked Checked.Outcome

def maxEntries : Nat := 64
def maxPathUtf16Units : Nat := 1024
def maxArgumentsUtf16Units : Nat := 4096
def maxApfsVolumeUtf16Units : Nat := 255

structure BootTarget where
  path : String
  arguments : String
  apfsVolume : Option String
  deriving DecidableEq, Repr

structure BootMenuEntry where
  name : String
  target : BootTarget
  deriving DecidableEq, Repr

structure BootMenu where
  showPicker : Bool
  entries : List BootMenuEntry
  deriving DecidableEq, Repr

/-! ### Texts -/

/-- `char::is_control`. -/
def isControl (c : Char) : Bool := c.toNat < 0x20 ∨ 0x7f ≤ c.toNat ∧ c.toNat < 0xa0

/-- `char::is_whitespace`: the property `White_Space`. -/
def isWhitespace (c : Char) : Bool :=
  (0x9 ≤ c.toNat ∧ c.toNat ≤ 0xd) ∨ (0x2000 ≤ c.toNat ∧ c.toNat ≤ 0x200a) ∨
    c.toNat ∈ [0x20, 0x85, 0xa0, 0x1680, 0x2028, 0x2029, 0x202f, 0x205f, 0x3000]

/-- `text.trim()`. -/
def trim (text : String) : String :=
  String.ofList ((text.toList.dropWhile isWhitespace).reverse.dropWhile isWhitespace).reverse

/-- `text.encode_utf16().count()`: a character above the first plane takes two units. -/
def utf16Units (text : String) : Nat :=
  text.length + text.toList.countP fun c => 0x10000 ≤ c.toNat

/-! ### Paths -/

/-- The characters that a path may not have. -/
def isReserved (c : Char) : Bool :=
  c.toNat > 0xffff ∨ isControl c ∨ c ∈ [':', '*', '?', '\x22', '<', '>', '|']

/-- A component that a path may not have. -/
def isBadComponent (component : List Char) : Bool :=
  component = [] ∨ component = ['.'] ∨ component = ['.', '.'] ∨
    component.getLast? = some '.' ∨ component.getLast? = some ' '

def normalizeAbsolutePath (path : String) : Result String := do
  rejectIf (utf16Units path > maxPathUtf16Units) .pathTooLong
  rejectIf (path.toList.any isReserved) .invalidPath
  let normalized := path.toList.map fun c => if c = '/' then '\\' else c
  rejectIf (normalized.head? ≠ some '\\' ∨ normalized.take 2 = ['\\', '\\']) .invalidPath
  rejectIf ((normalized.tail.splitOn '\\').any isBadComponent) .invalidPath
  pure (String.ofList normalized)

/-- The extension behind the last dot, if there is one, is `efi` in either case. -/
def hasEfiExtension (path : String) : Bool :=
  path.toList.contains '.' &&
    (path.toList.reverse.takeWhile (· ≠ '.')).reverse.map Char.toLower = ['e', 'f', 'i']

def normalizePath (path : String) : Result String := do
  let normalized ← normalizeAbsolutePath path
  rejectIf (¬ hasEfiExtension normalized) .invalidPath
  pure normalized

/-! ### Fields of an entry -/

/-- The `match` on an optional flag. -/
def flagValue : Option Node → Result Bool
  | none => pure false
  | some value =>
    if value.hasTagName "true" then pure true
    else if value.hasTagName "false" then pure false
    else .err .invalidType

/-- The `match` on the optional path of an entry. -/
def pathValue : Option Node → Result (Option String)
  | none => pure none
  | some value => do
    requireTag value "string"
    let text ← scalarText value
    let path ← normalizePath text
    pure (some path)

/-- The `match` on the optional arguments of an entry. -/
def argumentsValue : Option Node → Result String
  | none => pure ""
  | some value => do
    requireTag value "string"
    let text ← scalarText value
    rejectIf (text.toList.any isControl) .invalidArguments
    rejectIf (utf16Units text > maxArgumentsUtf16Units) .argumentsTooLong
    pure text

/-- The rest of `parse_apfs_volume`, behind the look-up. -/
def apfsVolumeValue : Option Node → Result (Option String)
  | none => pure none
  | some value => do
    requireTag value "string"
    let text ← scalarText value
    rejectIf (text = "" ∨ trim text ≠ text ∨
      text.toList.any (fun c => isControl c ∨ c = '/' ∨ c = '\\') ∨
        utf16Units text > maxApfsVolumeUtf16Units) .invalidApfsVolume
    pure (some text)

def parseApfsVolume (entry : Node) : Result (Option String) := do
  let value ← dictionaryValue entry "ApfsVolume"
  apfsVolumeValue value

/-- The name of an entry that has none of its own. -/
def defaultName (index : Nat) : String := "EFI entry " ++ toString (index + 1)

/-- The `match` on the optional name of an entry. -/
def nameValue (index : Nat) : Option Node → Result String
  | none => pure (defaultName index)
  | some value => do
    requireTag value "string"
    let text ← scalarText value
    rejectIf (trim text = "" ∨ text.toList.any isControl ∨ utf16Units text > 64)
      .invalidDisplayName
    pure text

/-! ### The boot menu -/

/-- The display name: automatic boot does not look at the one of the entry. -/
def entryName (showPicker : Bool) (index : Nat) (entry : Node) : Result String :=
  if showPicker = false then pure (defaultName index)
  else do
    let value ← dictionaryValue entry "Name"
    nameValue index value

/-- An enabled entry is added to the menu. -/
def pushEntry (showPicker : Bool) (entries : List BootMenuEntry) (name : String) (enabled : Bool)
    (path : Option String) (arguments : String) (apfsVolume : Option String) :
    Result (List BootMenuEntry) :=
  if enabled then do
    rejectIf (showPicker = false ∧ ¬ entries.isEmpty) .ambiguousTarget
    let path ← ofOption .missingPath path
    pure (entries ++ [⟨name, ⟨path, arguments, apfsVolume⟩⟩])
  else pure entries

/-- One entry of the menu, with its index. -/
def menuEntry (showPicker : Bool) (entries : List BootMenuEntry) (entry : Node × Nat) :
    Result (List BootMenuEntry) := do
  rejectIf (entry.2 ≥ maxEntries) .entryLimit
  requireTag entry.1 "dict"
  let enabled ← dictionaryValue entry.1 "Enabled"
  let enabled ← flagValue enabled
  let path ← dictionaryValue entry.1 "Path"
  let path ← pathValue path
  let arguments ← dictionaryValue entry.1 "Arguments"
  let arguments ← argumentsValue arguments
  let apfsVolume ← parseApfsVolume entry.1
  let name ← entryName showPicker entry.2 entry.1
  pushEntry showPicker entries name enabled path arguments apfsVolume

/-- `Misc.Boot.ShowPicker`. -/
def showPickerValue (misc : Node) : Result Bool := do
  let boot ← dictionaryValue misc "Boot"
  match boot with
  | none => pure false
  | some boot => do
    requireTag boot "dict"
    let value ← dictionaryValue boot "ShowPicker"
    flagValue value

/-- The entries of the menu, if there are any. -/
def menuEntries (showPicker : Bool) : Option Node → Result (List BootMenuEntry)
  | none => pure []
  | some entries => do
    requireTag entries "array"
    entries.elements.zipIdx.foldlM (menuEntry showPicker) []

/-- The menu of `Misc`, if there is one. -/
def menuOf : Option Node → Result BootMenu
  | none => pure ⟨false, []⟩
  | some misc => do
    requireTag misc "dict"
    let showPicker ← showPickerValue misc
    let entries ← dictionaryValue misc "Entries"
    let entries ← menuEntries showPicker entries
    pure ⟨showPicker, entries⟩

/-- The dictionary of the document. -/
def topDictionary (document : Document) : Result Node :=
  ofOption .invalidPlist (document.root.children.find? Node.isElement)

/-- `parse_boot_menu`, from the tree that the XML parser yields. -/
def parseBootMenu (document : Document) : Result BootMenu := do
  validateStructure document
  let dictionary ← topDictionary document
  let misc ← dictionaryValue dictionary "Misc"
  menuOf misc

/-! ### The boot target -/

/-- An enabled entry is selected, unless one has been. -/
def selectTarget (selected : Option BootTarget) (enabled : Bool) (path : Option String)
    (arguments : String) (apfsVolume : Option String) : Result (Option BootTarget) :=
  if enabled then do
    rejectIf selected.isSome .ambiguousTarget
    let path ← ofOption .missingPath path
    pure (some ⟨path, arguments, apfsVolume⟩)
  else pure selected

/-- One entry, with its index. -/
def selectEntry (selected : Option BootTarget) (entry : Node × Nat) :
    Result (Option BootTarget) := do
  rejectIf (entry.2 ≥ maxEntries) .entryLimit
  requireTag entry.1 "dict"
  let enabled ← dictionaryValue entry.1 "Enabled"
  let enabled ← flagValue enabled
  let path ← dictionaryValue entry.1 "Path"
  let path ← pathValue path
  let arguments ← dictionaryValue entry.1 "Arguments"
  let arguments ← argumentsValue arguments
  let apfsVolume ← parseApfsVolume entry.1
  selectTarget selected enabled path arguments apfsVolume

/-- The target of the entries, if there are any. -/
def targetEntries : Option Node → Result (Option BootTarget)
  | none => pure none
  | some entries => do
    requireTag entries "array"
    entries.elements.zipIdx.foldlM selectEntry none

/-- The target of `Misc`, if there is one. -/
def targetOf : Option Node → Result (Option BootTarget)
  | none => pure none
  | some misc => do
    requireTag misc "dict"
    let entries ← dictionaryValue misc "Entries"
    targetEntries entries

def selectBootTarget (document : Document) : Result (Option BootTarget) := do
  let dictionary ← topDictionary document
  let misc ← dictionaryValue dictionary "Misc"
  targetOf misc

/-- `parse_boot_target`, from the tree that the XML parser yields. -/
def parseBootTarget (document : Document) : Result (Option BootTarget) := do
  validateStructure document
  selectBootTarget document

end Nextcore.BootConfig
