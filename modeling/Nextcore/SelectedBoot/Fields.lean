import Mathlib.Data.List.Basic
import Nextcore.SelectedBoot.Record

/-!
How the fields of a record are read, and how their values are written.

A record is a header and the lines behind it (`recordLines_eq_ok`), and a field is the rest of a
line behind its key. There is one text for a digest (`hexDigest_eq_ok`). A number has more than
one, since a plus sign and zeros may stand in front of it, and the plain one is read
(`fromStrRadix_toDigits`).
-/

namespace Nextcore.SelectedBoot

open Checked Checked.Outcome
open BootConfig (fromStrRadix pushDigit toDigit)

/-! ### Fields -/

section Fields

variable {key value : String} {lines rest : List String}

theorem field_eq_ok : field key lines = .ok (value, rest) ↔ lines = (key ++ value) :: rest := by
  cases lines with
  | nil => simp [field]
  | cons line others =>
      simp only [field, bind_eq_ok, ofOption_eq_ok, stripPrefix_eq_some, pure_eq, ok.injEq,
        Prod.mk.injEq, List.cons.injEq]
      constructor
      · rintro ⟨_, rfl, rfl, rfl⟩
        exact ⟨rfl, rfl⟩
      · rintro ⟨rfl, rfl⟩
        exact ⟨_, rfl, rfl, rfl⟩

theorem digestField_eq_ok {digest : Bytes} :
    digestField key lines = .ok (digest, rest) ↔
      ∃ text, lines = (key ++ text) :: rest ∧ hexDigest text = .ok digest := by
  simp only [digestField, bind_eq_ok, Prod.exists, field_eq_ok, pure_eq, ok.injEq, Prod.mk.injEq]
  constructor
  · rintro ⟨text, _, rfl, _, read, rfl, rfl⟩
    exact ⟨text, rfl, read⟩
  · rintro ⟨text, rfl, read⟩
    exact ⟨text, _, rfl, _, read, rfl, rfl⟩

theorem sizeField_eq_ok {size : Nat} :
    sizeField key lines = .ok (size, rest) ↔
      ∃ text, lines = (key ++ text) :: rest ∧ fromStrRadix 10 text.toList = some size := by
  simp only [sizeField, bind_eq_ok, Prod.exists, field_eq_ok, ofOption_eq_ok, pure_eq, ok.injEq,
    Prod.mk.injEq]
  constructor
  · rintro ⟨text, _, rfl, _, read, rfl, rfl⟩
    exact ⟨text, rfl, read⟩
  · rintro ⟨text, rfl, read⟩
    exact ⟨text, _, rfl, _, read, rfl, rfl⟩

/-- The lines of a record behind its header. -/
structure IsRecord (maximum : Nat) (header : String) (input : Bytes) (rest : List String) :
    Prop where
  nonempty : input ≠ []
  short : input.length ≤ maximum
  ended : asBytes "\n" <:+ input
  text : ∃ text, asBytes text = input ∧ Checked.lines text = header :: rest

theorem recordLines_eq_ok {maximum : Nat} {header : String} {input : Bytes} :
    recordLines maximum header input = .ok rest ↔ IsRecord maximum header input rest := by
  simp only [recordLines, bind_eq_ok, rejectIf_eq_ok, ofOption_eq_ok, fromUtf8_eq_some, pure_eq,
    ok.injEq, not_or, not_not, Nat.not_lt]
  constructor
  · rintro ⟨_, ⟨nonempty, short, ended⟩, text, read, _, first, rfl⟩
    exact ⟨nonempty, short, ended, text, read, (List.cons_head?_tail first).symm⟩
  · rintro ⟨nonempty, short, ended, text, read, split⟩
    exact ⟨(), ⟨nonempty, short, ended⟩, text, read, (), by rw [split]; rfl, by rw [split]; rfl⟩

theorem new_eq_ok {byteLen : Nat} {sha256 : Bytes} {expected : ExpectedBootImage} :
    ExpectedBootImage.new byteLen sha256 = .ok expected ↔
      (byteLen ≠ 0 ∧ byteLen ≤ maxSelectedImageBytes) ∧ expected = ⟨byteLen, sha256⟩ := by
  simp only [ExpectedBootImage.new, bind_eq_ok, rejectIf_eq_ok, not_or, Nat.not_lt, pure_eq,
    ok.injEq, exists_const]
  exact and_congr_right fun _ => eq_comm

/-- The loops compare each path with those behind it. -/
theorem sharesPath_eq_false {paths : List String} :
    sharesPath paths = false ↔ paths.Pairwise fun a b => eqIgnoreAsciiCase a b = false := by
  induction paths with
  | nil => simp [sharesPath]
  | cons path rest ih =>
      rw [sharesPath, Bool.or_eq_false_iff, ih, List.pairwise_cons, List.any_eq_false]
      simp only [Bool.not_eq_true]

end Fields

/-! ### Digests -/

def hexByte (nibble : UInt8) : UInt8 := if nibble < 10 then nibble + 0x30 else nibble + 0x57

/-- The two digits of a byte. -/
def hexPair (b : UInt8) : Bytes := [hexByte (b >>> 4), hexByte (b &&& 0xf)]

/-- The text of a digest. -/
def hexText (digest : Bytes) : String := (fromUtf8 (digest.flatMap hexPair)).getD ""

section Digests

theorem hexNibble_eq_some {byte nibble : UInt8} :
    hexNibble byte = some nibble ↔ nibble < 16 ∧ byte = hexByte nibble := by
  have read : ∀ b < 256, (hexNibble (UInt8.ofNat b)).all
      fun n => n < 16 ∧ UInt8.ofNat b = hexByte n := by decide +kernel
  have written : ∀ n < 16, hexNibble (hexByte (UInt8.ofNat n)) = some (UInt8.ofNat n) := by
    decide +kernel
  constructor
  · intro found
    have whole := read byte.toNat byte.toNat_lt
    rw [UInt8.ofNat_toNat, found, Option.all_some] at whole
    exact of_decide_eq_true whole
  · rintro ⟨small, rfl⟩
    have back := written nibble.toNat small
    rwa [UInt8.ofNat_toNat] at back

theorem byte_of_nibbles {high low : UInt8} (left : high < 16) (right : low < 16) :
    ((high <<< 4) ||| low) >>> 4 = high ∧ ((high <<< 4) ||| low) &&& 0xf = low := by
  have all : ∀ h < 16, ∀ l < 16,
      ((UInt8.ofNat h <<< 4) ||| UInt8.ofNat l) >>> 4 = UInt8.ofNat h ∧
        ((UInt8.ofNat h <<< 4) ||| UInt8.ofNat l) &&& 0xf = UInt8.ofNat l := by decide +kernel
  have both := all high.toNat left low.toNat right
  rwa [UInt8.ofNat_toNat, UInt8.ofNat_toNat] at both

theorem nibbles_of_byte (b : UInt8) :
    (b >>> 4 < 16 ∧ b &&& 0xf < 16) ∧ ((b >>> 4) <<< 4) ||| (b &&& 0xf) = b := by
  have all : ∀ b < 256, (UInt8.ofNat b >>> 4 < 16 ∧ UInt8.ofNat b &&& 0xf < 16) ∧
      ((UInt8.ofNat b >>> 4) <<< 4) ||| (UInt8.ofNat b &&& 0xf) = UInt8.ofNat b := by
    decide +kernel
  have whole := all b.toNat b.toNat_lt
  rwa [UInt8.ofNat_toNat] at whole

/-- A digit is ASCII, and it ends no line. -/
theorem hexByte_plain {n : UInt8} (small : n < 16) :
    hexByte n < 0x80 ∧ hexByte n ≠ 0x0a ∧ hexByte n ≠ 0x0d := by
  have all : ∀ n < 16, hexByte (UInt8.ofNat n) < 0x80 ∧ hexByte (UInt8.ofNat n) ≠ 0x0a ∧
      hexByte (UInt8.ofNat n) ≠ 0x0d := by decide +kernel
  have whole := all n.toNat small
  rwa [UInt8.ofNat_toNat] at whole

theorem hexPair_plain {b c : UInt8} (mem : c ∈ hexPair b) : c < 0x80 ∧ c ≠ 0x0a ∧ c ≠ 0x0d := by
  obtain ⟨⟨left, right⟩, _⟩ := nibbles_of_byte b
  obtain rfl | rfl := List.mem_pair.mp mem
  · exact hexByte_plain left
  · exact hexByte_plain right

theorem hexPair_inj {b b' : UInt8} (same : hexPair b = hexPair b') : b = b' := by
  have digit {n n' : UInt8} (small : n < 16) (small' : n' < 16) (equal : hexByte n = hexByte n') :
      n = n' := by
    have read := hexNibble_eq_some.mpr ⟨small, rfl⟩
    rw [equal, hexNibble_eq_some.mpr ⟨small', rfl⟩] at read
    exact (Option.some.inj read).symm
  obtain ⟨⟨left, right⟩, whole⟩ := nibbles_of_byte b
  obtain ⟨⟨left', right'⟩, whole'⟩ := nibbles_of_byte b'
  rw [hexPair, hexPair, List.cons.injEq, List.cons.injEq] at same
  rw [← whole, ← whole', digit left left' same.1, digit right right' same.2.1]

theorem putPair_eq_ok {out out' pair : Bytes} {index : Nat} (two : pair.length = 2) :
    putPair out index pair = .ok out' ↔
      ∃ b, pair = hexPair b ∧ index < out.length ∧ out' = out.set index b := by
  obtain ⟨first, second, rfl⟩ := List.length_eq_two.mp two
  have front : (byteAt [first, second] 0 : Result UInt8) = .ok first := rfl
  have back : (byteAt [first, second] 1 : Result UInt8) = .ok second := rfl
  simp only [putPair, front, back, bind_ok, bind_eq_ok, ofOption_eq_ok, hexNibble_eq_some]
  constructor
  · rintro ⟨high, ⟨left, rfl⟩, low, ⟨right, rfl⟩, stored⟩
    obtain ⟨upper, lower⟩ := byte_of_nibbles left right
    split at stored
    · next inside =>
      cases stored
      exact ⟨(high <<< 4) ||| low, by rw [hexPair, upper, lower], inside, rfl⟩
    · cases stored
  · rintro ⟨b, digits, inside, rfl⟩
    obtain ⟨⟨left, right⟩, same⟩ := nibbles_of_byte b
    rw [hexPair, List.cons.injEq, List.cons.injEq] at digits
    refine ⟨_, ⟨left, digits.1⟩, _, ⟨right, digits.2.1⟩, ?_⟩
    rw [if_pos inside, same]
    rfl

/-- The loop fills the digest from the front. -/
theorem putPairs_eq_ok {pairs : List Bytes} {done out : Bytes}
    (two : ∀ pair ∈ pairs, pair.length = 2) :
    (pairs.zipIdx done.length).foldlM (fun out pair => putPair out pair.2 pair.1)
        (done ++ List.replicate pairs.length 0) = .ok out ↔
      ∃ digest, pairs = digest.map hexPair ∧ out = done ++ digest := by
  induction pairs generalizing done with
  | nil =>
      simp only [List.zipIdx_nil, List.length_nil, List.replicate_zero, List.append_nil,
        List.foldlM_nil, pure_eq, ok.injEq, List.nil_eq, List.map_eq_nil_iff]
      constructor
      · rintro rfl
        exact ⟨[], rfl, (List.append_nil _).symm⟩
      · rintro ⟨_, rfl, rfl⟩
        rw [List.append_nil]
  | cons pair rest ih =>
      obtain ⟨first, others⟩ := List.forall_mem_cons.mp two
      have room : done.length < (done ++ List.replicate (pair :: rest).length 0).length := by
        simp
      have stored (b : UInt8) : (done ++ List.replicate (pair :: rest).length 0).set done.length b =
          (done ++ [b]) ++ List.replicate rest.length 0 := by
        simp [List.replicate_succ]
      have next (b : UInt8) : done.length + 1 = (done ++ [b]).length := by simp
      simp only [List.zipIdx_cons, List.foldlM_cons, bind_eq_ok, putPair_eq_ok first]
      constructor
      · rintro ⟨_, ⟨b, rfl, _, rfl⟩, others_done⟩
        rw [stored, next b] at others_done
        obtain ⟨digest, rfl, rfl⟩ := (ih others).mp others_done
        exact ⟨b :: digest, rfl, by rw [List.append_assoc, List.singleton_append]⟩
      · rintro ⟨digest, digits, rfl⟩
        obtain ⟨b, digest, rfl, rfl, rfl⟩ := List.map_eq_cons_iff.mp digits.symm
        refine ⟨_, ⟨b, rfl, room, rfl⟩, ?_⟩
        rw [stored, next b]
        exact (ih others).mpr ⟨digest, rfl, by rw [List.append_assoc, List.singleton_append]⟩

theorem asBytes_hexText (digest : Bytes) : asBytes (hexText digest) = digest.flatMap hexPair := by
  have ascii : ∀ c ∈ digest.flatMap hexPair, c < 0x80 := by
    intro c mem
    obtain ⟨b, _, mem⟩ := List.mem_flatMap.mp mem
    exact (hexPair_plain mem).1
  obtain ⟨text, read⟩ := exists_fromUtf8 ascii
  rw [hexText, read]
  exact fromUtf8_eq_some.mp read

/-- A digest has one text. -/
theorem hexDigest_eq_ok {text : String} {digest : Bytes} :
    hexDigest text = .ok digest ↔ digest.length = 32 ∧ text = hexText digest := by
  rw [← asBytes_inj, asBytes_hexText]
  generalize same : asBytes text = bytes
  simp only [hexDigest, same, bind_eq_ok, rejectIf_eq_ok, not_not, exists_const]
  have loop {pairs : List Bytes} (two : ∀ pair ∈ pairs, pair.length = 2)
      (count : pairs.length = 32) :
      pairs.zipIdx.foldlM (fun out pair => putPair out pair.2 pair.1) (List.replicate 32 0) =
        .ok digest ↔ pairs = digest.map hexPair := by
    rw [← count]
    refine (@putPairs_eq_ok pairs [] digest two).trans ?_
    constructor
    · rintro ⟨_, digits, rfl⟩
      exact digits
    · intro digits
      exact ⟨digest, digits, rfl⟩
  have two : ∀ pair ∈ chunksExact bytes 2, pair.length = 2 := fun _ => length_of_mem_chunksExact
  have flat : digest.flatMap hexPair = (digest.map hexPair).flatten := List.flatMap_def ..
  constructor
  · rintro ⟨length, done⟩
    have count : (chunksExact bytes 2).length = 32 := by
      rw [chunksExact, List.length_map, List.length_range, length]
    have digits := (loop two count).mp done
    refine ⟨?_, ?_⟩
    · rw [← count, digits, List.length_map]
    · rw [flat, ← digits, flatten_chunksExact (n := 32) (by decide) length]
  · rintro ⟨length, rfl⟩
    have chunks : chunksExact (digest.flatMap hexPair) 2 = digest.map hexPair :=
      chunksExact_flatMap Nat.two_pos (fun _ => rfl) digest
    have count : (chunksExact (digest.flatMap hexPair) 2).length = 32 := by
      rw [chunks, List.length_map, length]
    refine ⟨?_, (loop two count).mpr chunks⟩
    have each : digest.map (fun b => (hexPair b).length) = digest.map fun _ => 2 := rfl
    rw [List.length_flatMap, each, List.map_const', List.sum_replicate_nat, length]

theorem hexText_inj {digest digest' : Bytes} :
    hexText digest = hexText digest' ↔ digest = digest' := by
  constructor
  · intro same
    rw [← asBytes_inj, asBytes_hexText, asBytes_hexText] at same
    have pairs : digest.map hexPair = digest'.map hexPair := by
      rw [← chunksExact_flatMap Nat.two_pos fun _ => rfl, same,
        chunksExact_flatMap Nat.two_pos fun _ => rfl]
    exact List.map_injective_iff.mpr (fun _ _ => hexPair_inj) pairs
  · rintro rfl
    rfl

end Digests

/-! ### Numbers -/

section Numbers

theorem pushDigit_digitChar {value d : Nat} (small : d < 10) (word : value * 10 + d < 2 ^ 64) :
    pushDigit 10 value d.digitChar = some (value * 10 + d) := by
  have all : ∀ d < 10, toDigit 10 d.digitChar = some d := by decide
  have shifted : checkedMul value 10 = some (value * 10) := checkedMul_eq_some.mpr ⟨by omega, rfl⟩
  rw [pushDigit, all d small, Option.bind_eq_bind, Option.bind_some, shifted, Option.bind_some,
    checkedAdd_of_lt word]

theorem foldlM_toDigits {n : Nat} (word : n < 2 ^ 64) :
    (Nat.toDigits 10 n).foldlM (pushDigit 10) 0 = some n := by
  induction n using Nat.strongRecOn with
  | ind n ih =>
      by_cases small : n < 10
      · have pushed : pushDigit 10 0 n.digitChar = some (0 * 10 + n) :=
          pushDigit_digitChar small (by omega)
        rw [Nat.toDigits_of_lt_base small, List.foldlM_cons, pushed, Nat.zero_mul, Nat.zero_add]
        rfl
      · have whole : n / 10 * 10 + n % 10 = n := Nat.div_add_mod' n 10
        have pushed := pushDigit_digitChar (Nat.mod_lt n (by decide)) (by rwa [whole])
        rw [Nat.toDigits_of_base_le (by decide) (Nat.not_lt.mp small), List.foldlM_append,
          ih (n / 10) (by omega) (by omega), Option.bind_eq_bind, Option.bind_some,
          List.foldlM_cons, pushed, whole]
        rfl

/-- The plain spelling of a number is read. -/
theorem fromStrRadix_toDigits {n : Nat} (word : n < 2 ^ 64) :
    fromStrRadix 10 (Nat.toDigits 10 n) = some n := by
  have plain : (Nat.toDigits 10 n).head? ≠ some '+' := by
    intro plus
    have digit := Nat.isDigit_of_mem_toDigits (by decide) (by decide) (List.mem_of_head? plus)
    exact absurd digit (by decide)
  rw [fromStrRadix, if_neg plain, if_neg Nat.toDigits_ne_nil, foldlM_toDigits word]

end Numbers

end Nextcore.SelectedBoot
