import Nextcore.Lib.Text
import Nextcore.BootConfig.Targets

/-!
From the bytes of a configuration to its tree (`parse_document` in `src/boot_config.rs`).

The XML parser is any implementation of `XmlParser`. `scanXmlBounds` goes over the text before
it. The source compares bytes there; all of them are ASCII, so that the characters of the text
decide the same, and they are what the model goes over. An offset is the text behind it.
-/

namespace Nextcore.BootConfig

open Checked Checked.Outcome

def maxInputBytes : Nat := 1024 * 1024
def maxXmlNodes : Nat := 16384

/-- `roxmltree::Error`, as far as it is told apart. -/
inductive XmlError where
  | nodesLimitReached
  | other
  deriving DecidableEq, Repr

/-- `Document::parse_with_options`, without an entity resolver. -/
class XmlParser where
  parseWithOptions (allowDtd : Bool) (nodesLimit : Nat) (text : String) : Except XmlError Document

/-! ### The scan of the tags -/

/-- What follows the first place of `ending`. -/
def behindFirst (ending : List Char) : List Char → Option (List Char)
  | [] => none
  | c :: rest =>
    if ending.isPrefixOf (c :: rest) then some ((c :: rest).drop ending.length)
    else behindFirst ending rest

/-- Comments, character data and processing instructions: the length of the opening, and the
ending. -/
def skipOf (tail : List Char) : Option (Nat × List Char) :=
  if "<!--".toList.isPrefixOf tail then some (4, "-->".toList)
  else if "<![CDATA[".toList.isPrefixOf tail then some (9, "]]>".toList)
  else if "<?".toList.isPrefixOf tail then some (2, "?>".toList)
  else none

/-- `char::is_ascii_whitespace`. -/
def isAsciiWhitespace (c : Char) : Bool := c.toNat ∈ [0x20, 0x9, 0xa, 0xc, 0xd]

/-- The name behind `<!DOCTYPE`. -/
def doctypeName (behind : List Char) : List Char :=
  (behind.dropWhile isWhitespace).takeWhile fun c =>
    ! (isAsciiWhitespace c || c = '>' || c = '[')

/-- The inner loop, up to the `>` of the tag: the character before it, and what follows it. -/
def tagEnd (doctype : Bool) : Option Char → Char → List Char → Result (Char × List Char)
  | _, _, [] => .err .invalidXml
  | some delimiter, _, c :: rest =>
    tagEnd doctype (if delimiter = c then none else some delimiter) c rest
  | none, last, c :: rest =>
    if c = '\'' ∨ c = '\x22' then tagEnd doctype (some c) c rest
    else if c = '[' ∧ doctype then .err .unsupportedFormat
    else if c = '>' then pure (last, rest)
    else if c = '<' then .err .invalidXml
    else tagEnd doctype none c rest

/-- The depth behind a tag; `last` is the character before its `>`. -/
def depthBehind (depth : Nat) (closing : Bool) (last : Char) : Result Nat :=
  if closing then ofOption .invalidXml (checkedSub depth 1)
  else do
    rejectIf (depth ≥ maxXmlDepth) .depthLimit
    pure (if last = '/' then depth else depth + 1)

/-- One round of the loop at a `<`: the depth behind it, and the rest of the text. -/
def scanMarkup (depth : Nat) (tail : List Char) : Result (Nat × List Char) :=
  match skipOf tail with
  | some skip => do
    let rest ← ofOption .invalidXml (behindFirst skip.2 (tail.drop skip.1))
    pure (depth, rest)
  | none => do
    let doctype := "<!DOCTYPE".toList.isPrefixOf tail
    rejectIf ("<!".toList.isPrefixOf tail ∧ ¬ doctype) .invalidXml
    rejectIf (doctype ∧ doctypeName (tail.drop 9) ≠ "plist".toList) .invalidPlist
    let stop ← tagEnd doctype none '<' (tail.drop 1)
    if doctype then pure (depth, stop.2)
    else do
      let depth ← depthBehind depth ("</".toList.isPrefixOf tail) stop.1
      pure (depth, stop.2)

section Progress

variable {doctype : Bool} {depth : Nat}

theorem length_behindFirst {ending tail rest : List Char}
    (found : behindFirst ending tail = some rest) : rest.length ≤ tail.length := by
  induction tail with
  | nil => cases found
  | cons c tail ih =>
      rw [behindFirst] at found
      split at found
      · cases found
        rw [List.length_drop]
        exact Nat.sub_le _ _
      · exact Nat.le_succ_of_le (ih found)

theorem length_tagEnd {quote : Option Char} {last : Char} {tail : List Char}
    {stop : Char × List Char} (done : tagEnd doctype quote last tail = .ok stop) :
    stop.2.length < tail.length := by
  induction tail generalizing quote last with
  | nil => cases quote <;> cases done
  | cons c rest ih =>
      rw [List.length_cons]
      cases quote with
      | some delimiter => exact Nat.lt_succ_of_lt (ih done)
      | none =>
          rw [tagEnd] at done
          split at done
          · exact Nat.lt_succ_of_lt (ih done)
          split at done
          · cases done
          split at done
          · cases done
            exact Nat.lt_succ_self _
          split at done
          · cases done
          · exact Nat.lt_succ_of_lt (ih done)

theorem skipOf_pos {tail : List Char} {skip : Nat × List Char} (found : skipOf tail = some skip) :
    0 < skip.1 := by
  rw [skipOf] at found
  split at found
  · cases found
    decide
  split at found
  · cases found
    decide
  split at found
  · cases found
    decide
  · cases found

/-- Each round moves on. -/
theorem length_scanMarkup {c : Char} {tail : List Char} {next : Nat × List Char}
    (done : scanMarkup depth (c :: tail) = .ok next) : next.2.length < (c :: tail).length := by
  rw [scanMarkup] at done
  split at done
  · next skip found =>
      obtain ⟨rest, behind, done⟩ := bind_eq_ok.mp done
      cases done
      have positive := skipOf_pos found
      have short := length_behindFirst (ofOption_eq_ok.mp behind)
      rw [List.length_drop] at short
      rw [List.length_cons] at short ⊢
      dsimp only
      omega
  · obtain ⟨_, done⟩ := seq_eq_ok.mp done
    obtain ⟨_, done⟩ := seq_eq_ok.mp done
    obtain ⟨stop, ended, done⟩ := bind_eq_ok.mp done
    have short := length_tagEnd ended
    rw [List.drop_succ_cons, List.drop_zero] at short
    split at done
    · cases done
      exact Nat.lt_succ_of_lt short
    · obtain ⟨depth', _, done⟩ := bind_eq_ok.mp done
      cases done
      exact Nat.lt_succ_of_lt short

end Progress

/-- The loop over the text. -/
def scanFrom (depth : Nat) (tail : List Char) : Result Unit :=
  match tail with
  | [] => pure ()
  | c :: rest =>
    if c ≠ '<' then scanFrom depth rest
    else
      match _ : scanMarkup depth (c :: rest) with
      | .ok next => scanFrom next.1 next.2
      | .err e => .err e
      | .panic => .panic
termination_by tail.length
decreasing_by
  · exact Nat.lt_succ_self _
  · exact length_scanMarkup ‹_›

def scanXmlBounds (text : String) : Result Unit := scanFrom 0 text.toList

/-! ### The document -/

section Document

variable [XmlParser]

/-- The call of the parser, with its errors mapped. -/
def xmlDocument (text : String) : Result Document :=
  match XmlParser.parseWithOptions true maxXmlNodes text with
  | .ok document => pure document
  | .error .nodesLimitReached => .err .nodeLimit
  | .error .other => .err .invalidXml

theorem xmlDocument_of_ok {text : String} {document : Document}
    (parsed : XmlParser.parseWithOptions true maxXmlNodes text = .ok document) :
    xmlDocument text = .ok document := by
  rw [xmlDocument, parsed]
  rfl

def parseDocument (input : Bytes) : Result Document := do
  rejectIf (input.length > maxInputBytes) .inputTooLarge
  rejectIf ((asBytes "bplist").isPrefixOf input ∨ [0xff, 0xfe].isPrefixOf input ∨
    [0xfe, 0xff].isPrefixOf input) .unsupportedFormat
  let text ← ofOption .invalidUtf8 (fromUtf8 input)
  rejectIf ((asBytes text).count 0x3c > maxXmlNodes * 2 ∨ (asBytes text).count 0x3d > maxXmlNodes)
    .nodeLimit
  scanXmlBounds text
  let document ← xmlDocument text
  validateStructure document
  pure document

end Document

/-! ### No step panics -/

section Calm

variable {doctype : Bool} {depth : Nat}

theorem tagEnd_ne_panic {quote : Option Char} {last : Char} {tail : List Char} :
    tagEnd doctype quote last tail ≠ .panic := by
  induction tail generalizing quote last with
  | nil => cases quote <;> simp [tagEnd]
  | cons c rest ih =>
      cases quote with
      | some delimiter => exact ih
      | none =>
          rw [tagEnd]
          apply ite_ne_panic ih
          apply ite_ne_panic (by simp)
          apply ite_ne_panic (ok_ne_panic _)
          exact ite_ne_panic (by simp) ih

theorem depthBehind_ne_panic {closing : Bool} {last : Char} :
    depthBehind depth closing last ≠ .panic :=
  ite_ne_panic ofOption_ne_panic (bind_ne_panic rejectIf_ne_panic fun _ _ => ok_ne_panic _)

theorem scanMarkup_ne_panic {tail : List Char} : scanMarkup depth tail ≠ .panic := by
  rw [scanMarkup]
  cases skipOf tail with
  | some skip => exact bind_ne_panic ofOption_ne_panic fun _ _ => ok_ne_panic _
  | none =>
      apply bind_ne_panic rejectIf_ne_panic
      intro _ _
      apply bind_ne_panic rejectIf_ne_panic
      intro _ _
      apply bind_ne_panic tagEnd_ne_panic
      intro stop _
      exact ite_ne_panic (ok_ne_panic _)
        (bind_ne_panic depthBehind_ne_panic fun _ _ => ok_ne_panic _)

theorem scanFrom_ne_panic (depth : Nat) (tail : List Char) : scanFrom depth tail ≠ .panic := by
  fun_induction scanFrom depth tail with
  | case1 => exact ok_ne_panic _
  | case2 depth c rest plain ih => exact ih
  | case3 depth c rest markup next scanned ih => exact ih
  | case4 depth c rest markup e scanned => simp
  | case5 depth c rest markup scanned => exact absurd scanned scanMarkup_ne_panic

theorem scalarText_ne_panic {node : Node} : scalarText node ≠ .panic := by
  apply foldlM_ne_panic
  intro value child _
  cases child with
  | text more => exact ok_ne_panic _
  | comment => exact ok_ne_panic _
  | element => simp [appendText]
  | pi => simp [appendText]

theorem valueAt_ne_panic {wanted : String} {list : List Node} : valueAt wanted list ≠ .panic := by
  fun_induction valueAt wanted list with
  | case1 => exact ok_ne_panic _
  | case2 => simp
  | case3 key value rest ih =>
      apply bind_ne_panic scalarText_ne_panic
      intro text _
      exact ite_ne_panic (ok_ne_panic _) ih

theorem dictionaryValue_ne_panic {dict : Node} {wanted : String} :
    dictionaryValue dict wanted ≠ .panic := valueAt_ne_panic

theorem validateDict_ne_panic {keys : List String} {list : List Node} :
    validateDict keys list ≠ .panic := by
  fun_induction validateDict keys list with
  | case1 => exact ok_ne_panic _
  | case2 keys key =>
      apply bind_ne_panic rejectIf_ne_panic
      intro _ _
      apply bind_ne_panic scalarText_ne_panic
      intro text _
      exact bind_ne_panic rejectIf_ne_panic fun _ _ => by simp
  | case3 keys key value rest ih =>
      apply bind_ne_panic rejectIf_ne_panic
      intro _ _
      apply bind_ne_panic scalarText_ne_panic
      intro text _
      apply bind_ne_panic rejectIf_ne_panic
      intro _ _
      exact bind_ne_panic rejectIf_ne_panic fun _ _ => ih text

theorem validatePlist_ne_panic {isRoot : Bool} {elements : List Node} :
    validatePlist isRoot elements ≠ .panic := by
  unfold validatePlist
  split
  · exact rejectIf_ne_panic
  · simp

theorem validateElement_ne_panic {isRoot : Bool} {name : String} {node : Node} :
    validateElement isRoot name node ≠ .panic := by
  rw [validateElement]
  apply ite_ne_panic
  · exact bind_ne_panic rejectIf_ne_panic fun _ _ => validatePlist_ne_panic
  apply ite_ne_panic
  · exact bind_ne_panic rejectIf_ne_panic fun _ _ => validateDict_ne_panic
  apply ite_ne_panic
  · exact bind_ne_panic rejectIf_ne_panic fun _ _ => rejectIf_ne_panic
  apply ite_ne_panic
  · exact bind_ne_panic scalarText_ne_panic fun _ _ => ok_ne_panic _
  apply ite_ne_panic
  · exact bind_ne_panic scalarText_ne_panic fun _ _ => rejectIf_ne_panic
  · simp

mutual

theorem validateNode_ne_panic (isRoot : Bool) (depth : Nat) (node : Node) :
    validateNode isRoot depth node ≠ .panic := by
  cases node with
  | pi => simp [validateNode]
  | text value => exact ok_ne_panic _
  | comment => exact ok_ne_panic _
  | element name namespaceUri attributes children =>
      rw [validateNode]
      apply bind_ne_panic rejectIf_ne_panic
      intro _ _
      apply bind_ne_panic rejectIf_ne_panic
      intro _ _
      exact bind_ne_panic validateElement_ne_panic fun _ _ =>
        validateNodes_ne_panic (depth + 1) children

theorem validateNodes_ne_panic (depth : Nat) (nodes : List Node) :
    validateNodes depth nodes ≠ .panic := by
  cases nodes with
  | nil => exact ok_ne_panic _
  | cons node rest =>
      rw [validateNodes]
      exact bind_ne_panic (validateNode_ne_panic false depth node) fun _ _ =>
        validateNodes_ne_panic depth rest

end

variable [XmlParser]

theorem xmlDocument_ne_panic {text : String} : xmlDocument text ≠ .panic := by
  rw [xmlDocument]
  split <;> simp

theorem parseDocument_ne_panic {input : Bytes} : parseDocument input ≠ .panic := by
  apply bind_ne_panic rejectIf_ne_panic
  intro _ _
  apply bind_ne_panic rejectIf_ne_panic
  intro _ _
  apply bind_ne_panic ofOption_ne_panic
  intro text _
  apply bind_ne_panic rejectIf_ne_panic
  intro _ _
  apply bind_ne_panic (scanFrom_ne_panic 0 text.toList)
  intro _ _
  apply bind_ne_panic xmlDocument_ne_panic
  intro document _
  apply bind_ne_panic
  · apply bind_ne_panic rejectIf_ne_panic
    intro _ _
    apply bind_ne_panic (validateNodes_ne_panic _ _)
    intro _ _
    exact bind_ne_panic (validateNode_ne_panic _ _ _) fun _ _ => validateNodes_ne_panic _ _
  · intro _ _
    exact ok_ne_panic _

end Calm

end Nextcore.BootConfig
