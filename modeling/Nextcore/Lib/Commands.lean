import Nextcore.Lib.Bytes

/-!
Reading words out of bytes that are not trusted, and records that carry their own sizes.

`sliceOr` and `wordOr` never panic: a range that does not end in the word and one that leaves
the bytes are errors, which the reader is given. `commandAt` is the list of records that such
bytes describe, whether or not they were checked.
-/

namespace Checked

open Outcome

/-- The errors that a reader reports. -/
structure ReadErrors (ε : Type) where
  overflow : ε
  truncated : ε

section Readers

variable {ε : Type} (errors : ReadErrors ε)

def sliceOr (bytes : Bytes) (offset size : Nat) : Outcome ε Bytes := do
  let stop ← ofOption errors.overflow (checkedAdd offset size)
  ofOption errors.truncated (getRange bytes offset stop)

/-- The little-endian word of `width` bytes. -/
def wordOr (width : Nat) (bytes : Bytes) (offset : Nat) : Outcome ε Nat := do
  let word ← sliceOr errors bytes offset width
  pure (fromLeBytes word)

variable {errors} {bytes : Bytes} {offset : Nat}

theorem sliceOr_eq_ok {out : Bytes} {size : Nat} :
    sliceOr errors bytes offset size = .ok out ↔
      (offset + size < 2 ^ 64 ∧ offset + size ≤ bytes.length) ∧ out = window bytes offset size := by
  simp only [sliceOr, bind_eq_ok, ofOption_eq_ok, checkedAdd_eq_some, getRange_eq_some]
  constructor
  · rintro ⟨_, ⟨word, rfl⟩, ⟨_, inside⟩, rfl⟩
    exact ⟨⟨word, inside⟩, by rw [Nat.add_sub_cancel_left]⟩
  · rintro ⟨⟨word, inside⟩, rfl⟩
    exact ⟨_, ⟨word, rfl⟩, ⟨Nat.le_add_right _ _, inside⟩, by rw [Nat.add_sub_cancel_left]⟩

theorem wordOr_eq_ok {width n : Nat} :
    wordOr errors width bytes offset = .ok n ↔
      (offset + width < 2 ^ 64 ∧ offset + width ≤ bytes.length) ∧
      n = wordAt width bytes offset := by
  simp only [wordOr, bind_eq_ok, sliceOr_eq_ok, pure_eq, ok.injEq]
  constructor
  · rintro ⟨_, ⟨inside, rfl⟩, rfl⟩
    exact ⟨inside, rfl⟩
  · rintro ⟨inside, rfl⟩
    exact ⟨_, ⟨inside, rfl⟩, rfl⟩

/-- A word that was read is no wider than it says. -/
theorem wordOr_lt {width n : Nat} (read : wordOr errors width bytes offset = .ok n) :
    n < 256 ^ width := by
  obtain ⟨⟨_, inside⟩, rfl⟩ := wordOr_eq_ok.mp read
  exact wordAt_lt inside

@[simp] theorem sliceOr_ne_panic {size : Nat} : sliceOr errors bytes offset size ≠ .panic :=
  bind_ne_panic ofOption_ne_panic fun _ _ => ofOption_ne_panic

@[simp] theorem wordOr_ne_panic {width : Nat} : wordOr errors width bytes offset ≠ .panic :=
  bind_ne_panic sliceOr_ne_panic fun _ _ => ok_ne_panic _

end Readers

/-! ### Records that carry their sizes -/

section Commands

variable (commands : Bytes)

/-- Where the `k`-th record starts: each has its size in its second word. -/
def commandOffset : Nat → Nat
  | 0 => 0
  | k + 1 => commandOffset k + wordAt 4 commands (commandOffset k + 4)

/-- The `k`-th record. -/
def commandAt (k : Nat) : Bytes :=
  window commands (commandOffset commands k) (wordAt 4 commands (commandOffset commands k + 4))

/-- The first word of the `k`-th record. -/
def commandKind (k : Nat) : Nat := wordAt 4 commands (commandOffset commands k)

end Commands

/-! ### Ranges -/

/-- Whether two ranges that are not empty meet, with no guard on their ends. -/
def rangesMeet {ε : Type} (start size other otherSize : Nat) : Outcome ε Bool :=
  if size ≠ 0 ∧ otherSize ≠ 0 then do
    let otherEnd ← add other otherSize
    if start < otherEnd then do
      let stop ← add start size
      pure (decide (other < stop))
    else pure false
  else pure false

section Ranges

variable {ε : Type} {start size other otherSize : Nat}

theorem rangesMeet_of_lt (word : start + size < 2 ^ 64) (otherWord : other + otherSize < 2 ^ 64) :
    (rangesMeet start size other otherSize : Outcome ε Bool) =
      .ok (decide (size ≠ 0 ∧ otherSize ≠ 0 ∧ start < other + otherSize ∧
        other < start + size)) := by
  rw [rangesMeet, add_of_lt otherWord, bind_ok, add_of_lt word, bind_ok]
  by_cases first : size = 0
  · simp [first]
  · by_cases second : otherSize = 0
    · simp [second]
    · by_cases before : start < other + otherSize
      · simp [first, second, before]
      · simp [first, second, before]

end Ranges

end Checked
