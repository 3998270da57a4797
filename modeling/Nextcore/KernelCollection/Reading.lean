import Nextcore.KernelCollection.Metadata

/-!
The readers and range tests of the inspector, each with what its success means.

Sums that the source leaves unguarded and whose operands are not narrower than the
result are `add`, which panics; `rangeEnd` and its callers return the overflow.
-/

namespace Nextcore.KernelCollection

open Checked Checked.Outcome

/-- `end(start, size)`. -/
def rangeEnd (start size : Nat) : Result Nat := ofOption .overflow (checkedAdd start size)

def contains (outer inner : FileRange) : Bool :=
  match checkedAdd inner.offset inner.size, checkedAdd outer.offset outer.size with
  | some a, some b => inner.offset ≥ outer.offset ∧ a ≤ b
  | _, _ => false

def overlaps (a b : FileRange) : Result Bool :=
  if a.size ≠ 0 ∧ b.size ≠ 0 then do
    let stop ← add b.offset b.size
    if a.offset < stop then do
      let stop ← add a.offset a.size
      pure (decide (b.offset < stop))
    else pure false
  else pure false

def slice (bytes : Bytes) (offset size : Nat) : Result Bytes := do
  let stop ← ofOption .overflow (checkedAdd offset size)
  ofOption .truncated (getRange bytes offset stop)

def range (bytes : Bytes) (offset size : Nat) : Result Bytes := do
  let stop ← rangeEnd offset size
  rejectIf (stop > bytes.length) .truncated
  slice bytes offset size

def fileRange (bytes : Bytes) (offset count width : Nat) : Result FileRange := do
  let size ← ofOption .overflow (checkedMul count width)
  let _ ← range bytes offset size
  pure ⟨offset, size⟩

def exactSize (bytes : Bytes) (expected : Nat) : Result Unit :=
  rejectIf (bytes.length ≠ expected) .invalidCommand

def u16At (bytes : Bytes) (offset : Nat) : Result Nat := do
  let word ← slice bytes offset 2
  pure (fromLeBytes word)

def u32At (bytes : Bytes) (offset : Nat) : Result Nat := do
  let word ← slice bytes offset 4
  pure (fromLeBytes word)

def u64At (bytes : Bytes) (offset : Nat) : Result Nat := do
  let word ← slice bytes offset 8
  pure (fromLeBytes word)

def addBudget (value amount limit : Nat) : Result Nat := do
  let value ← ofOption .overflow (checkedAdd value amount)
  rejectIf (value > limit) .limitExceeded
  pure value

/-! ### What a success means -/

@[simp] theorem rangeEnd_eq_ok {start size stop : Nat} :
    rangeEnd start size = .ok stop ↔ start + size < 2 ^ 64 ∧ start + size = stop := by
  simp [rangeEnd, checkedAdd_eq_some]

/-- Containment is containment of the ranges, neither of which wraps. -/
theorem contains_iff {outer inner : FileRange} :
    contains outer inner = true ↔ inner.span.Within outer.span ∧
      inner.offset + inner.size < 2 ^ 64 ∧ outer.offset + outer.size < 2 ^ 64 := by
  simp only [Span.Within, FileRange.span, Span.stop]
  by_cases small : inner.offset + inner.size < 2 ^ 64
  · by_cases wide : outer.offset + outer.size < 2 ^ 64
    · simp only [contains, checkedAdd_of_lt small, checkedAdd_of_lt wide, decide_eq_true_eq]
      exact ⟨fun h => ⟨h, small, wide⟩, And.left⟩
    · simp only [contains, checkedAdd_of_lt small, checkedAdd_of_not_lt wide]
      exact ⟨Bool.noConfusion, fun h => absurd h.2.2 wide⟩
  · simp only [contains, checkedAdd_of_not_lt small]
    exact ⟨Bool.noConfusion, fun h => absurd h.2.1 small⟩

/-- Ranges that were found not to overlap are apart, when neither is empty. -/
theorem apart_of_overlaps {a b : FileRange} (tested : overlaps a b = .ok false)
    (ha : a.size ≠ 0) (hb : b.size ≠ 0) : a.span.Apart b.span := by
  simp only [overlaps, ha, hb, not_false_eq_true, and_self, if_true, ne_eq, bind_eq_ok,
    add_eq_ok] at tested
  obtain ⟨stop, ⟨_, rfl⟩, test⟩ := tested
  simp only [Span.Apart, FileRange.span, Span.stop]
  by_cases before : a.offset < b.offset + b.size
  · simp only [before, if_true, bind_eq_ok, add_eq_ok, pure_eq, ok.injEq] at test
    obtain ⟨stop, ⟨_, rfl⟩, apart⟩ := test
    exact .inl (Nat.le_of_not_lt (of_decide_eq_false apart))
  · exact .inr (Nat.le_of_not_lt before)

theorem slice_eq_ok {bytes out : Bytes} {offset size : Nat} :
    slice bytes offset size = .ok out ↔
      offset + size < 2 ^ 64 ∧ offset + size ≤ bytes.length ∧ window bytes offset size = out := by
  simp only [slice, bind_eq_ok, ofOption_eq_ok, checkedAdd_eq_some, getRange_eq_some]
  constructor
  · rintro ⟨_, ⟨word, rfl⟩, ⟨_, inside⟩, rfl⟩
    exact ⟨word, inside, by rw [Nat.add_sub_cancel_left]⟩
  · rintro ⟨word, inside, rfl⟩
    exact ⟨_, ⟨word, rfl⟩, ⟨Nat.le_add_right _ _, inside⟩, by rw [Nat.add_sub_cancel_left]⟩

theorem length_of_slice {bytes out : Bytes} {offset size : Nat}
    (sliced : slice bytes offset size = .ok out) : out.length = size := by
  obtain ⟨_, inside, rfl⟩ := slice_eq_ok.mp sliced
  exact length_window inside

theorem range_eq_ok {bytes out : Bytes} {offset size : Nat} :
    range bytes offset size = .ok out ↔
      offset + size < 2 ^ 64 ∧ offset + size ≤ bytes.length ∧ window bytes offset size = out := by
  simp only [range, bind_eq_ok, exists_const, rangeEnd_eq_ok, rejectIf_eq_ok, slice_eq_ok]
  constructor
  · rintro ⟨_, _, _, sliced⟩
    exact sliced
  · rintro ⟨word, inside, rfl⟩
    exact ⟨_, ⟨word, rfl⟩, Nat.not_lt.mpr inside, word, inside, rfl⟩

/-- A file range lies inside the input. -/
theorem fileRange_eq_ok {bytes : Bytes} {offset count width : Nat} {out : FileRange} :
    fileRange bytes offset count width = .ok out ↔
      out = ⟨offset, count * width⟩ ∧ count * width < 2 ^ 64 ∧
        offset + count * width < 2 ^ 64 ∧ offset + count * width ≤ bytes.length := by
  simp only [fileRange, bind_eq_ok, ofOption_eq_ok, checkedMul_eq_some, range_eq_ok, pure_eq,
    ok.injEq]
  constructor
  · rintro ⟨_, ⟨product, rfl⟩, _, ⟨word, inside, _⟩, rfl⟩
    exact ⟨rfl, product, word, inside⟩
  · rintro ⟨rfl, product, word, inside⟩
    exact ⟨_, ⟨product, rfl⟩, _, ⟨word, inside, rfl⟩, rfl⟩

theorem u32At_lt {bytes : Bytes} {offset n : Nat} (read : u32At bytes offset = .ok n) :
    n < 2 ^ 32 := by
  simp only [u32At, bind_eq_ok, pure_eq, ok.injEq] at read
  obtain ⟨word, sliced, rfl⟩ := read
  have bound := fromLeBytes_lt word
  rw [length_of_slice sliced] at bound
  exact bound

/-- What a budget is raised to, and that it stays within its limit. -/
@[simp] theorem addBudget_eq_ok {value amount limit out : Nat} :
    addBudget value amount limit = .ok out ↔
      value + amount < 2 ^ 64 ∧ value + amount ≤ limit ∧ value + amount = out := by
  simp only [addBudget, bind_eq_ok, exists_const, ofOption_eq_ok, checkedAdd_eq_some,
    rejectIf_eq_ok, pure_eq, ok.injEq]
  constructor
  · rintro ⟨_, ⟨word, rfl⟩, within, rfl⟩
    exact ⟨word, Nat.le_of_not_lt within, rfl⟩
  · rintro ⟨word, within, rfl⟩
    exact ⟨_, ⟨word, rfl⟩, Nat.not_lt.mpr within, rfl⟩

end Nextcore.KernelCollection
