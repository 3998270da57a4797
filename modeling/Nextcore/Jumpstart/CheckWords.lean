import Nextcore.Lib.Fletcher
import Nextcore.Jumpstart.Checks

/-!
The check words of an object are Fletcher check words of its payload.

The payload is what follows the first eight bytes, in words of 32 bits. The code reduces both sums
after each word, which changes neither of them modulo `modulus`, and keeps every operation inside
64 bits (`fletcher64Checksum_eq`). From there on the sums are those of `Fletcher.sums`.
-/

namespace Nextcore.Jumpstart

open Checked Checked.Outcome Fletcher

/-! ### The payload -/

def payloadCount (object : Bytes) : Nat := (object.length - 8) / 4

def payloadWord (object : Bytes) (i : Nat) : Nat := wordAt 4 object (8 + 4 * i)

def payloadWords (object : Bytes) : List Nat :=
  (List.range (payloadCount object)).map (payloadWord object)

section Payload

variable {object other : Bytes} {i : Nat}

theorem length_payloadWords (object : Bytes) :
    (payloadWords object).length = payloadCount object := by
  rw [payloadWords, List.length_map, List.length_range]

theorem getD_payloadWords (inside : i < payloadCount object) :
    (payloadWords object).getD i 0 = payloadWord object i := by
  rw [payloadWords, List.getD_eq_getElem?_getD, List.getElem?_map, List.getElem?_range inside]
  rfl

theorem payloadWord_lt (inside : i < payloadCount object) : payloadWord object i < 2 ^ 32 := by
  rw [payloadCount] at inside
  exact wordAt_lt (by omega)

/-- The sums of the payload, each word weighted by its position. -/
def positional (object : Bytes) : Sums where
  sum := ∑ i ∈ Finset.range (payloadCount object), payloadWord object i
  prefixes := ∑ i ∈ Finset.range (payloadCount object),
    (payloadCount object - i) * payloadWord object i

theorem sums_payloadWords (object : Bytes) : sums (payloadWords object) = positional object := by
  have sum := sum_eq (payloadWords object)
  have prefixes := prefixes_eq (payloadWords object)
  have same : ∀ i ∈ Finset.range (payloadCount object),
      (payloadWords object).getD i 0 = payloadWord object i := by
    intro i mem
    exact getD_payloadWords (Finset.mem_range.mp mem)
  rw [length_payloadWords, Finset.sum_congr rfl same] at sum
  rw [length_payloadWords,
    Finset.sum_congr rfl fun i mem => congrArg (_ * ·) (same i mem)] at prefixes
  rw [positional, ← sum, ← prefixes]

/-- One word has changed. -/
theorem payloadWords_set (length : other.length = object.length)
    (rest : ∀ j < payloadCount object, j ≠ i → payloadWord other j = payloadWord object j) :
    payloadWords other = (payloadWords object).set i (payloadWord other i) := by
  have count : payloadCount other = payloadCount object := by
    rw [payloadCount, payloadCount, length]
  apply List.ext_getElem?
  intro j
  rw [payloadWords, payloadWords, count, List.getElem?_set, List.getElem?_map, List.getElem?_map,
    List.length_map, List.length_range]
  rcases Nat.lt_or_ge j (payloadCount object) with inside | outside
  · rw [List.getElem?_range inside, Option.map_some, Option.map_some]
    split
    · next here => rw [if_pos (here ▸ inside), here]
    · next apart => rw [rest j inside (Ne.symm apart)]
  · rw [List.getElem?_eq_none (by rw [List.length_range]; exact outside), Option.map_none,
      Option.map_none]
    split
    · next here => rw [if_neg (Nat.not_lt.mpr (here ▸ outside))]
    · rfl

theorem payloadWord_append {field : Bytes} (length : field.length = 8) :
    payloadWord (field ++ object.drop 8) i = payloadWord object i := by
  rw [payloadWord, payloadWord, wordAt, wordAt, window_append_of_ge (by omega), window, window,
    List.drop_drop, length, Nat.add_sub_cancel_left]

theorem payloadWords_append {field : Bytes} (length : field.length = 8) (long : 8 ≤ object.length) :
    payloadWords (field ++ object.drop 8) = payloadWords object := by
  have count : payloadCount (field ++ object.drop 8) = payloadCount object := by
    rw [payloadCount, payloadCount, List.length_append, List.length_drop, length,
      Nat.add_sub_cancel' long]
  rw [payloadWords, payloadWords, count]
  exact List.map_congr_left fun i _ => payloadWord_append length

end Payload

/-! ### What the code computes -/

section Checksum

variable {ε : Type} {object : Bytes}

theorem modulus_pos : 0 < modulus := by decide

theorem modulus_lt : modulus < 2 ^ 32 := by decide

/-- The reduced sums are the sums modulo `modulus`, and no addition leaves the word. -/
theorem foldlM_fletcherStep {chunks : List Bytes} (short : ∀ chunk ∈ chunks, chunk.length = 4)
    (sums : Sums) :
    (chunks.foldlM fletcherStep (sums.sum % modulus, sums.prefixes % modulus) :
        Outcome ε (Nat × Nat)) =
      .ok (((chunks.map fromLeBytes).foldl Sums.next sums).sum % modulus,
        ((chunks.map fromLeBytes).foldl Sums.next sums).prefixes % modulus) := by
  induction chunks generalizing sums with
  | nil => rfl
  | cons chunk rest ih =>
      have value := fromLeBytes_lt chunk
      rw [short chunk List.mem_cons_self] at value
      have small := modulus_lt
      have first := Nat.mod_lt sums.sum modulus_pos
      have second := Nat.mod_lt sums.prefixes modulus_pos
      have third := Nat.mod_lt (sums.sum + fromLeBytes chunk) modulus_pos
      have next : (fletcherStep (sums.sum % modulus, sums.prefixes % modulus) chunk :
          Outcome ε (Nat × Nat)) =
            .ok ((sums.next (fromLeBytes chunk)).sum % modulus,
              (sums.next (fromLeBytes chunk)).prefixes % modulus) := by
        rw [fletcherStep, add_of_lt (by omega), bind_ok, Nat.mod_add_mod, add_of_lt (by omega),
          bind_ok, ← Nat.add_mod]
        rfl
      rw [List.foldlM_cons, next, bind_ok, List.map_cons, List.foldl_cons]
      exact ih (fun chunk mem => short chunk (List.mem_cons_of_mem _ mem)) _

theorem map_chunks (long : 8 ≤ object.length) :
    (chunksExact (window object 8 (object.length - 8)) 4).map fromLeBytes =
      payloadWords object := by
  have whole : (window object 8 (object.length - 8)).length = object.length - 8 :=
    length_window (by omega)
  rw [chunksExact, whole, List.map_map, payloadWords, payloadCount]
  apply List.map_congr_left
  intro i mem
  have inside := List.mem_range.mp mem
  rw [Function.comp_apply, window_window _ (by omega), payloadWord, wordAt, Nat.mul_comm]

/-- The high check word above the low one. -/
def combined (sums : Sums) : Nat := sums.high modulus * 2 ^ 32 + sums.low modulus

theorem low_lt (sums : Sums) : sums.low modulus < 2 ^ 32 :=
  Nat.lt_of_le_of_lt (complement_le _ _) modulus_lt

theorem high_lt (sums : Sums) : sums.high modulus < 2 ^ 32 :=
  Nat.lt_of_le_of_lt (complement_le _ _) modulus_lt

theorem combined_lt (sums : Sums) : combined sums < 2 ^ 64 := by
  have low := low_lt sums
  have high := high_lt sums
  rw [combined]
  omega

theorem combined_mod (sums : Sums) : combined sums % 2 ^ 32 = sums.low modulus := by
  rw [combined, Nat.add_comm, Nat.add_mul_mod_self_right, Nat.mod_eq_of_lt (low_lt sums)]

theorem combined_div (sums : Sums) : combined sums / 2 ^ 32 = sums.high modulus := by
  have low := low_lt sums
  rw [combined]
  omega

theorem combined_eq_iff {s t : Sums} :
    combined s = combined t ↔ s.low modulus = t.low modulus ∧ s.high modulus = t.high modulus := by
  constructor
  · intro same
    rw [← combined_mod, ← combined_div, ← combined_mod, ← combined_div, same]
    exact ⟨rfl, rfl⟩
  · rintro ⟨low, high⟩
    rw [combined, combined, low, high]

theorem fletcher64Checksum_eq (long : 8 ≤ object.length) (whole : object.length % 4 = 0) :
    (fletcher64Checksum object : Outcome ε (Option Nat)) =
      .ok (some (combined (sums (payloadWords object)))) := by
  have small := modulus_lt
  have short : ∀ chunk ∈ chunksExact (window object 8 (object.length - 8)) 4, chunk.length = 4 := by
    intro chunk mem
    exact length_of_mem_chunksExact mem
  have summed := foldlM_fletcherStep (ε := ε) short ⟨0, 0⟩
  rw [Nat.zero_mod, map_chunks long] at summed
  rw [fletcher64Checksum, if_neg (by omega), indexFrom, index_of_le long (Nat.le_refl _), bind_ok,
    summed, bind_ok]
  change _ = Outcome.ok (some (combined ((payloadWords object).foldl Sums.next ⟨0, 0⟩)))
  generalize (payloadWords object).foldl Sums.next ⟨0, 0⟩ = s
  have first := Nat.mod_lt s.sum modulus_pos
  have second := Nat.mod_lt s.prefixes modulus_pos
  have low := low_lt s
  have high := high_lt s
  have reduced : modulus - (s.sum % modulus + s.prefixes % modulus) % modulus = s.low modulus := by
    rw [← Nat.add_mod]
    rfl
  have reduced' : modulus - (s.sum % modulus + s.low modulus) % modulus = s.high modulus := by
    rw [Nat.mod_add_mod]
    rfl
  have shifted : s.high modulus * 2 ^ 32 < 2 ^ 64 := by omega
  rw [add_of_lt (by omega), bind_ok, sub_of_le (Nat.le_of_lt (Nat.mod_lt _ modulus_pos)), bind_ok,
    reduced, add_of_lt (by omega), bind_ok, sub_of_le (Nat.le_of_lt (Nat.mod_lt _ modulus_pos)),
    bind_ok, reduced', shl_eq_ok.mpr ⟨by decide, rfl⟩, bind_ok, Nat.shiftLeft_eq,
    Nat.mod_eq_of_lt shifted, or_eq_add (Nat.dvd_mul_left _ _) low]
  rfl

/-! ### The check words of an object -/

/-- `c` holds the check words of `object`. -/
structure CheckWords (ε : Type) (object : Bytes) (c : Nat) : Prop where
  word : c < 2 ^ 64
  closed : Closed modulus (sums (payloadWords object ++ [c % 2 ^ 32, c / 2 ^ 32]))
  formula : c = combined (positional object)
  /-- The stored check words are not read. -/
  excluded : ∀ field : Bytes, field.length = 8 →
    (fletcher64Checksum (field ++ object.drop 8) : Outcome ε (Option Nat)) = .ok (some c)
  /-- One changed word goes unnoticed only between the two zeros. -/
  detects : ∀ other : Bytes, other.length = object.length → ∀ i < payloadCount object,
    (∀ j < payloadCount object, j ≠ i → payloadWord other j = payloadWord object j) →
    payloadWord object i ≠ payloadWord other i →
    ((fletcher64Checksum other : Outcome ε (Option Nat)) = .ok (some c) ↔
      payloadWord object i = 0 ∧ payloadWord other i = 0xffffffff ∨
        payloadWord object i = 0xffffffff ∧ payloadWord other i = 0)

/-- The checksum of an object are the words that close its two sums. It is a function of the words
behind it, and a change of one of them goes unseen only between the two spellings of zero. -/
theorem fletcher64_check_words (long : 8 ≤ object.length) (whole : object.length % 4 = 0) :
    ∃ c, (fletcher64Checksum object : Outcome ε (Option Nat)) = .ok (some c) ∧
      CheckWords ε object c := by
  refine ⟨_, fletcher64Checksum_eq long whole, combined_lt _, ?_, ?_, ?_, ?_⟩
  · rw [combined_mod, combined_div]
    exact closed_checkWords modulus_pos _
  · rw [sums_payloadWords]
  · intro field length
    have sized : (field ++ object.drop 8).length = object.length := by
      rw [List.length_append, List.length_drop, length, Nat.add_sub_cancel' long]
    rw [fletcher64Checksum_eq (sized ▸ long) (sized ▸ whole), payloadWords_append length long]
  · intro other length i inside rest differ
    have count : payloadCount other = payloadCount object := by
      rw [payloadCount, payloadCount, length]
    have small : payloadWord object i ≤ modulus := Nat.le_pred_of_lt (payloadWord_lt inside)
    have small' : payloadWord other i ≤ modulus :=
      Nat.le_pred_of_lt (payloadWord_lt (count ▸ inside))
    have inside' : i < (payloadWords object).length := (length_payloadWords object).symm ▸ inside
    rw [fletcher64Checksum_eq (length ▸ long) (length ▸ whole), ok.injEq, Option.some.injEq,
      combined_eq_iff, payloadWords_set length rest, checkWords_set_iff modulus_pos inside',
      getD_payloadWords inside, modEq_iff_zeros small small' differ]
    rfl

/-- An object of two words, with other check words in front of them. -/
theorem fletcher64_check_words_sample :
    ∃ c, (fletcher64Checksum (List.replicate 8 0x73 ++ [1, 0, 0, 0, 2, 0, 0, 0]) :
        Outcome Unit (Option Nat)) = .ok (some c) ∧
      CheckWords Unit (List.replicate 8 0x73 ++ [1, 0, 0, 0, 2, 0, 0, 0]) c :=
  fletcher64_check_words (by decide) (by decide)

end Checksum

end Nextcore.Jumpstart
