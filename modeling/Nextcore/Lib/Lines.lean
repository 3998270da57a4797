import Nextcore.Lib.Bytes

/-!
Text in lines, and names compared without regard to the case of letters.

`lines` and `stripPrefix` are those of a string slice. `CaseVariants` is what a comparison letter by
letter lets through and `eqIgnoreAsciiCase` does not.
-/

namespace Checked

/-- The line that ends in front of a line feed. The characters are those read so far, the last one
first; a carriage return at the end belongs to the line feed. -/
def endedLine : List Char → String
  | '\r' :: line => String.ofList line.reverse
  | line => String.ofList line.reverse

/-- The lines of a text whose first line starts with `line`, the last character first. -/
def linesFrom (line : List Char) : List Char → List String
  | [] => if line = [] then [] else [String.ofList line.reverse]
  | c :: rest =>
    if c = '\n' then endedLine line :: linesFrom [] rest else linesFrom (c :: line) rest

/-- `text.lines()`. -/
def lines (text : String) : List String := linesFrom [] text.toList

/-- A line is what a line feed ends: it has none in it, and no carriage return in front of it. -/
structure IsLine (line : String) : Prop where
  one : '\n' ∉ line.toList
  ended : line.toList.getLast? ≠ some '\r'

theorem linesFrom_append {line rest : List Char} {read : List Char} (one : '\n' ∉ line) :
    linesFrom read (line ++ '\n' :: rest) =
      endedLine (line.reverse ++ read) :: linesFrom [] rest := by
  induction line generalizing read with
  | nil => rw [List.nil_append, linesFrom, if_pos rfl, List.reverse_nil, List.nil_append]
  | cons c line ih =>
      obtain ⟨other, one⟩ := List.ne_and_not_mem_of_not_mem_cons one
      rw [List.cons_append, linesFrom, if_neg (Ne.symm other), ih one, List.reverse_cons,
        List.append_assoc, List.singleton_append]

theorem endedLine_reverse {line : String} (ended : line.toList.getLast? ≠ some '\r') :
    endedLine line.toList.reverse = line := by
  rw [← List.head?_reverse] at ended
  unfold endedLine
  split
  · next same =>
    rw [same] at ended
    exact absurd rfl ended
  · rw [List.reverse_reverse, String.ofList_toList]

/-- Lines come back from the text that they make up. -/
theorem lines_join {list : List String} (each : ∀ line ∈ list, IsLine line) :
    lines (String.join (list.map (· ++ "\n"))) = list := by
  induction list with
  | nil => rfl
  | cons line rest ih =>
      obtain ⟨⟨one, ended⟩, others⟩ := List.forall_mem_cons.mp each
      have text : (String.join ((line :: rest).map (· ++ "\n"))).toList =
          line.toList ++ '\n' :: (String.join (rest.map (· ++ "\n"))).toList := by
        simp [String.join_cons]
      rw [lines, text, linesFrom_append one, List.append_nil, endedLine_reverse ended, ← lines,
        ih others]

/-- `line.strip_prefix(key)`. -/
def stripPrefix (key line : String) : Option String :=
  if key.toList.isPrefixOf line.toList then
    some (String.ofList (line.toList.drop key.toList.length))
  else none

theorem stripPrefix_eq_some {key line rest : String} :
    stripPrefix key line = some rest ↔ line = key ++ rest := by
  rw [← String.toList_inj, String.toList_append, stripPrefix]
  constructor
  · intro found
    split at found
    · next front =>
      obtain ⟨behind, split⟩ := List.isPrefixOf_iff_prefix.mp front
      rw [← Option.some.inj found, String.toList_ofList, ← split, List.drop_left]
    · cases found
  · intro split
    rw [if_pos (List.isPrefixOf_iff_prefix.mpr ⟨_, split.symm⟩), split, List.drop_left,
      String.ofList_toList]

/-! ### The case of letters -/

/-- `u8::to_ascii_lowercase`. -/
def toAsciiLowercase (b : UInt8) : UInt8 := if 65 ≤ b ∧ b ≤ 90 then b + 32 else b

/-- `a.eq_ignore_ascii_case(b)`. -/
def eqIgnoreAsciiCase (a b : String) : Bool :=
  (asBytes a).map toAsciiLowercase = (asBytes b).map toAsciiLowercase

/-- Two spellings of one name: they differ in the case of letters, and in nothing else. -/
structure CaseVariants (a b : String) : Prop where
  differ : a ≠ b
  same : eqIgnoreAsciiCase a b = true

/-- Different names are apart unless they are spellings of one. -/
theorem not_eqIgnoreAsciiCase_iff {a b : String} (differ : a ≠ b) :
    eqIgnoreAsciiCase a b = false ↔ ¬ CaseVariants a b := by
  rw [← Bool.not_eq_true]
  exact not_congr ⟨fun same => ⟨differ, same⟩, CaseVariants.same⟩

example : eqIgnoreAsciiCase "\\EFI\\Kc.raw" "\\efi\\kC.RAW" = true := by decide +kernel

end Checked
