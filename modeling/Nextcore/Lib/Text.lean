import Nextcore.Lib.Bytes

/-!
Byte strings as UTF-8 text.

`fromUtf8` is the inverse of `asBytes` where there is one (`fromUtf8_eq_some`), and there is
one for ASCII (`exists_fromUtf8`). `fromUtf8Lossy` reads anything, and a text as what it is
(`fromUtf8Lossy_asBytes`).
-/

namespace Checked

/-- `core::str::from_utf8`. -/
def fromUtf8 (bytes : Bytes) : Option String := String.fromUTF8? bytes.toByteArray

theorem fromUtf8_eq_some {bytes : Bytes} {s : String} :
    fromUtf8 bytes = some s ↔ asBytes s = bytes := by
  have same : asBytes s = bytes ↔ s.toByteArray = bytes.toByteArray := by
    rw [asBytes, ByteArray.ext_iff, List.data_toByteArray, ← Array.toList_inj, List.toList_toArray]
  rw [same, fromUtf8, String.fromUTF8?]
  constructor
  · intro read
    split at read
    · rw [← Option.some.inj read]
      rfl
    · cases read
  · intro eq
    rw [dif_pos (eq ▸ s.isValidUTF8), Option.some.injEq, ← String.toByteArray_inj]
    exact eq.symm

theorem asBytes_ofList (chars : List Char) :
    asBytes (String.ofList chars) = chars.flatMap String.utf8EncodeChar := by
  rw [asBytes, String.toByteArray_ofList, List.utf8Encode, List.data_toByteArray,
    List.toList_toArray]

/-- Bytes below 128 are the characters of a text. -/
theorem exists_fromUtf8 {bytes : Bytes} (ascii : ∀ b ∈ bytes, b < 0x80) :
    ∃ s, fromUtf8 bytes = some s := by
  have one : ∀ n < 0x80, String.utf8EncodeChar (Char.ofNat n) = [UInt8.ofNat n] := by decide
  have encoded : bytes = (bytes.map fun b => Char.ofNat b.toNat).flatMap String.utf8EncodeChar := by
    induction bytes with
    | nil => rfl
    | cons b rest ih =>
        obtain ⟨low, ascii⟩ := List.forall_mem_cons.mp ascii
        rw [List.map_cons, List.flatMap_cons, ← ih ascii, one b.toNat low, UInt8.ofNat_toNat]
        rfl
  have valid : bytes.toByteArray.IsValidUTF8 :=
    .intro (bytes.map fun b => Char.ofNat b.toNat) (congrArg List.toByteArray encoded)
  exact ⟨_, dif_pos valid⟩

/-! ### Lossy reading -/

/-- Whether `second` may follow `first` in a sequence of three or four bytes. -/
def isSecond (first second : UInt8) : Bool :=
  (first == 0xE0 && 0xA0 ≤ second && second ≤ 0xBF) ||
  (0xE1 ≤ first && first ≤ 0xEC && 0x80 ≤ second && second ≤ 0xBF) ||
  (first == 0xED && 0x80 ≤ second && second ≤ 0x9F) ||
  (0xEE ≤ first && first ≤ 0xEF && 0x80 ≤ second && second ≤ 0xBF) ||
  (first == 0xF0 && 0x90 ≤ second && second ≤ 0xBF) ||
  (0xF1 ≤ first && first ≤ 0xF3 && 0x80 ≤ second && second ≤ 0xBF) ||
  (first == 0xF4 && 0x80 ≤ second && second ≤ 0x8F)

/-- How many bytes are replaced where no character starts: the longest part that could begin
one, and a single byte where none could. -/
def illFormed : Bytes → Nat
  | first :: second :: third :: _ =>
      if ¬ isSecond first second then 1
      else if 0x80 ≤ third ∧ third ≤ 0xBF then 3
      else 2
  | [first, second] => if isSecond first second then 2 else 1
  | _ => 1

/-- The characters of `String::from_utf8_lossy`. -/
def lossyChars : Bytes → List Char
  | [] => []
  | b :: rest =>
      match (b :: rest).toByteArray.utf8DecodeChar? 0 with
      | some c => c :: lossyChars (rest.drop (c.utf8Size - 1))
      | none => '\uFFFD' :: lossyChars (rest.drop (illFormed (b :: rest) - 1))
termination_by bytes => bytes.length
decreasing_by all_goals simp only [List.length_drop, List.length_cons]; omega

/-- `String::from_utf8_lossy(bytes).into_owned()`. -/
def fromUtf8Lossy (bytes : Bytes) : String := String.ofList (lossyChars bytes)

theorem lossyChars_utf8 (chars : List Char) :
    lossyChars (chars.flatMap String.utf8EncodeChar) = chars := by
  induction chars with
  | nil => rw [List.flatMap_nil, lossyChars]
  | cons c rest ih =>
      obtain ⟨b, more, split⟩ : ∃ b more, String.utf8EncodeChar c = b :: more :=
        List.exists_cons_of_ne_nil (by simp)
      have size : more.length = c.utf8Size - 1 := by
        rw [← String.length_utf8EncodeChar, split, List.length_cons, Nat.add_sub_cancel]
      have read :
        (b :: (more ++ rest.flatMap String.utf8EncodeChar)).toByteArray.utf8DecodeChar? 0 =
          some c := by
        rw [← List.cons_append, ← split, ← List.flatMap_cons]
        exact List.utf8DecodeChar?_utf8Encode_cons
      rw [List.flatMap_cons, split, List.cons_append, lossyChars, read]
      dsimp only
      rw [← size, List.drop_left, ih]

/-- A text is read back as it was written. -/
theorem fromUtf8Lossy_asBytes (s : String) : fromUtf8Lossy (asBytes s) = s := by
  have bytes : asBytes s = s.toList.flatMap String.utf8EncodeChar := by
    rw [asBytes, ← String.utf8Encode_toList, List.utf8Encode, List.data_toByteArray,
      List.toList_toArray]
  rw [fromUtf8Lossy, bytes, lossyChars_utf8, String.ofList_toList]

example : fromUtf8Lossy [0x61, 0xE2, 0x82, 0x62, 0xFF, 0xC3, 0xA9] = "a\uFFFDb\uFFFDé" := by
  decide +kernel

end Checked
