import Nextcore.KcStaging.Stage

/-!
What a readback decides.

`readback` compares a slice with the expected bytes, or with zeros where none are expected
(`readback_eq`). Its answer does not depend on the target: however `align_to` splits the
slice, the three loops cover it once, and words of either byte order are equal exactly when
their bytes are.
-/

namespace Nextcore.KcStaging

open Checked Checked.Outcome

/-- The bytes that a slice of `size` bytes is compared with. -/
def wantedBytes (expected : Option Bytes) (size : Nat) : Bytes :=
  expected.getD (List.replicate size 0)

@[simp] theorem wantedBytes_some (bytes : Bytes) (size : Nat) :
    wantedBytes (some bytes) size = bytes := rfl

@[simp] theorem wantedBytes_none (size : Nat) : wantedBytes none size = List.replicate size 0 := rfl

/-- Whether two byte strings agree on a range. -/
def agrees (a b : Bytes) (start size : Nat) : Bool :=
  decide (window a start size = window b start size)

/-- A range agrees when its front and the rest of it do. -/
theorem agrees_add (a b : Bytes) (start size size' : Nat) :
    agrees a b start (size + size') =
      (agrees a b start size && agrees a b (start + size) size') := by
  rw [agrees, agrees, agrees, ← Bool.decide_and, decide_eq_decide]
  exact window_add_eq_window

theorem agrees_one {a b : Bytes} {i : Nat} (inside : i < a.length) (inside' : i < b.length) :
    agrees a b i 1 = decide (a[i] = b[i]) := by
  rw [agrees, decide_eq_decide, window_eq_window]
  constructor
  · intro agree
    have first := agree 0 Nat.one_pos
    rw [Nat.add_zero, List.getElem?_eq_getElem inside, List.getElem?_eq_getElem inside'] at first
    exact Option.some.inj first
  · intro same k below
    obtain rfl := Nat.lt_one_iff.mp below
    rw [Nat.add_zero, List.getElem?_eq_getElem inside, List.getElem?_eq_getElem inside', same]

/-- A comparison that stops at a front that differs, and else goes on. -/
theorem ite_agrees {a b : Bytes} {start size size' : Nat} {p : Prop} [Decidable p]
    {rest : Result Bool} (front : p ↔ agrees a b start size = false)
    (others : rest = .ok (agrees a b (start + size) size')) :
    (if p then pure false else rest) = .ok (agrees a b start (size + size')) := by
  rw [agrees_add]
  by_cases differ : p
  · rw [if_pos differ, front.mp differ, Bool.false_and, pure_eq]
  · have same : agrees a b start size = true := by
      rwa [front, Bool.not_eq_false] at differ
    rw [if_neg differ, same, Bool.true_and, others]

section Loops

variable {actual : Bytes} {expected : Option Bytes} {count offset size : Nat}

theorem expectedByte_of_lt (length : (wantedBytes expected size).length = size)
    (inside : offset < (wantedBytes expected size).length) :
    expectedByte expected offset = .ok (wantedBytes expected size)[offset] := by
  cases expected with
  | none =>
      rw [expectedByte, pure_eq]
      congr 1
      exact (List.getElem_replicate ..).symm
  | some bytes => exact byteAt_of_lt inside

/-- The loop over bytes, from any offset on. -/
theorem bytesMatch_eq (length : (wantedBytes expected actual.length).length = actual.length)
    (fits : offset + count ≤ actual.length) :
    bytesMatch actual expected count offset =
      .ok (agrees actual (wantedBytes expected actual.length) offset count) := by
  induction count generalizing offset with
  | zero => simp [bytesMatch, agrees, window]
  | succ count ih =>
      have inside : offset < actual.length := by omega
      have inside' : offset < (wantedBytes expected actual.length).length := by omega
      rw [bytesMatch, byteAt_of_lt inside, bind_ok, expectedByte_of_lt length inside', bind_ok,
        Nat.add_comm count 1]
      refine ite_agrees ?_ (ih (by omega))
      rw [agrees_one inside inside', decide_eq_false_iff_not]

variable [Target]

theorem fromNeBytes_inj {a b : Bytes} (length : a.length = b.length) :
    fromNeBytes a = fromNeBytes b ↔ a = b := by
  unfold fromNeBytes
  by_cases big : Target.bigEndian = true
  · rw [if_pos big, if_pos big, fromLeBytes_inj (by simpa using length), List.reverse_inj]
  · rw [if_neg big, if_neg big, fromLeBytes_inj length]

theorem expectedWord_of_le (length : (wantedBytes expected size).length = size)
    (inside : offset + 8 ≤ size) :
    expectedWord expected offset =
      .ok (fromNeBytes (window (wantedBytes expected size) offset 8)) := by
  cases expected with
  | none =>
      have zeros : window (List.replicate size 0) offset 8 = List.replicate 8 0 := by
        rw [window, List.drop_replicate, List.take_replicate, Nat.min_eq_left (by omega)]
      rw [expectedWord, wantedBytes_none, zeros, fromNeBytes, List.reverse_replicate, ite_self]
      rfl
  | some bytes =>
      rw [wantedBytes_some] at length ⊢
      rw [expectedWord, index_of_le (Nat.le_add_right _ _) (by omega), bind_ok, pure_eq,
        Nat.add_sub_cancel_left]

/-- The loop over words, from any offset on. -/
theorem wordsMatch_eq (length : (wantedBytes expected actual.length).length = actual.length)
    (fits : offset + 8 * count ≤ actual.length) :
    wordsMatch actual expected count offset =
      .ok (agrees actual (wantedBytes expected actual.length) offset (8 * count)) := by
  induction count generalizing offset with
  | zero => simp [wordsMatch, agrees, window]
  | succ count ih =>
      have inside : offset + 8 ≤ actual.length := by omega
      have same_length : (window actual offset 8).length =
          (window (wantedBytes expected actual.length) offset 8).length := by
        rw [length_window inside, length_window (by rw [length]; exact inside)]
      rw [wordsMatch, index_of_le (Nat.le_add_right _ _) inside, bind_ok, Nat.add_sub_cancel_left,
        expectedWord_of_le length inside, bind_ok, Nat.mul_succ, Nat.add_comm (8 * count) 8]
      refine ite_agrees ?_ (ih (by omega))
      rw [agrees, decide_eq_false_iff_not]
      exact not_congr (fromNeBytes_inj same_length)

end Loops

/-- The slice holds the expected bytes one by one, or zeros where none are expected. -/
def BytewiseEqual (actual : Bytes) : Option Bytes → Prop
  | none => ∀ b ∈ actual, b = 0
  | some bytes => bytes.length = actual.length ∧ ∀ i < actual.length, actual[i]? = bytes[i]?

theorem eq_wantedBytes_iff {actual : Bytes} {expected : Option Bytes} :
    actual = wantedBytes expected actual.length ↔ BytewiseEqual actual expected := by
  cases expected with
  | none =>
      rw [wantedBytes_none, List.eq_replicate_iff]
      exact and_iff_right rfl
  | some bytes =>
      rw [wantedBytes_some]
      constructor
      · rintro rfl
        exact ⟨rfl, fun _ _ => rfl⟩
      · rintro ⟨length, each⟩
        apply List.ext_getElem?
        intro i
        by_cases inside : i < actual.length
        · exact each i inside
        · rw [List.getElem?_eq_none (by omega), List.getElem?_eq_none (by omega)]

variable [Target]

/-- A readback compares the slice with the wanted bytes, on every target. -/
theorem readback_eq (start : Nat) (actual : Bytes) (expected : Option Bytes) :
    readback start actual expected =
      .ok (decide (actual = wantedBytes expected actual.length)) := by
  by_cases length : (wantedBytes expected actual.length).length = actual.length
  · have sized : ¬ expected.any (fun bytes => bytes.length ≠ actual.length) = true := by
      cases expected with
      | none => simp
      | some bytes => simpa using length
    obtain ⟨before, words, split, fits⟩ : ∃ before words,
        Target.alignTo start actual.length = (before, words) ∧ before + 8 * words ≤ actual.length :=
      ⟨_, _, rfl, Target.fits start actual.length⟩
    have before_eq := @bytesMatch_eq actual expected before 0 length (by omega)
    have words_eq := @wordsMatch_eq actual expected words before _ length fits
    have after_eq := @bytesMatch_eq actual expected (actual.length - (before + 8 * words))
      (before + 8 * words) length (by omega)
    -- The three loops compare the whole slice, one part after another.
    have whole : actual.length =
        before + (8 * words + (actual.length - (before + 8 * words))) := by
      omega
    have all : agrees actual (wantedBytes expected actual.length) 0 actual.length =
        decide (actual = wantedBytes expected actual.length) := by
      rw [agrees, window_all rfl, window_all length]
    rw [readback, if_neg sized, split]
    dsimp only
    rw [before_eq, bind_ok, words_eq, bind_ok, after_eq, ← all]
    conv_rhs =>
      arg 1
      arg 4
      rw [whole]
    refine ite_agrees Iff.rfl ?_
    rw [Nat.zero_add]
    exact ite_agrees Iff.rfl rfl
  · have sized : expected.any (fun bytes => bytes.length ≠ actual.length) = true := by
      cases expected with
      | none => simp at length
      | some bytes => simpa using length
    have differ : actual ≠ wantedBytes expected actual.length :=
      fun same => length (congrArg List.length same).symm
    rw [readback, if_pos sized, decide_eq_false differ, pure_eq]

/-- A readback that has to succeed tests the bytes of its range. -/
theorem mustRead_decides {destination : Bytes} {start stop : Nat} {expected : Option Bytes}
    (ordered : start ≤ stop) (fits : stop ≤ destination.length)
    (sized : (wantedBytes expected (stop - start)).length = stop - start) :
    Decides (∀ i, start ≤ i → i < stop →
        destination[i]? = (wantedBytes expected (stop - start))[i - start]?)
      .readbackMismatch (fun _ => True) (mustRead destination start stop expected) := by
  have length : (window destination start (stop - start)).length = stop - start :=
    length_window (by omega)
  refine .after_ok (index_of_le ordered fits) (.after_ok (readback_eq ..) ?_)
  rw [length]
  refine (decides_rejectIf _).congr ?_
  rw [decide_eq_false_iff_not, not_not]
  exact window_eq_iff ordered fits sized

/-- The readback of a range that has to be zero. -/
theorem mustRead_none_decides {destination : Bytes} {start stop : Nat} (ordered : start ≤ stop)
    (fits : stop ≤ destination.length) :
    Decides (∀ i, start ≤ i → i < stop → destination[i]? = some 0) .readbackMismatch
      (fun _ => True) (mustRead destination start stop none) := by
  have sized : (wantedBytes none (stop - start)).length = stop - start := List.length_replicate
  refine (mustRead_decides ordered fits sized).congr ?_
  refine forall_congr' fun i => forall_congr' fun after => forall_congr' fun before => ?_
  rw [wantedBytes_none, List.getElem?_replicate, if_pos (by omega)]

/-- The readback of a range that has to be a file's. -/
theorem mustRead_some_decides {destination file : Bytes} {start stop : Nat} (ordered : start ≤ stop)
    (fits : stop ≤ destination.length) (length : file.length = stop - start) :
    Decides (∀ i, start ≤ i → i < stop → destination[i]? = file[i - start]?) .readbackMismatch
      (fun _ => True) (mustRead destination start stop (some file)) := by
  have sized : (wantedBytes (some file) (stop - start)).length = stop - start := length
  exact mustRead_decides ordered fits sized

end Nextcore.KcStaging
