import Nextcore.Lib.Bytes

/-!
Reading a byte string from a cursor.

`Holds bytes at' chunk` says that `chunk` lies in `bytes` from `at'` on; it splits along
concatenation (`holds_append`), so what a sequence of reads has seen is put together, and taken
apart, by rewriting. `take` and `takeWord` are the two reads that a parser makes: a slice of
a given size, and a little-endian word. Both fail in one way only, and never panic.
-/

namespace Checked

open Outcome

/-- `chunk` lies in `bytes` from `at'` on. -/
structure Holds (bytes : Bytes) (at' : Nat) (chunk : Bytes) : Prop where
  fits : at' + chunk.length ≤ bytes.length
  window : window bytes at' chunk.length = chunk

section Holds

variable {bytes rest a b : Bytes} {at' : Nat}

theorem holds_nil : Holds bytes at' [] ↔ at' ≤ bytes.length := by
  refine ⟨fun holds => holds.fits, fun fits => ⟨fits, ?_⟩⟩
  simp [Checked.window]

/-- A concatenation lies where its parts lie one behind the other. -/
theorem holds_append : Holds bytes at' (a ++ b) ↔
    Holds bytes at' a ∧ Holds bytes (at' + a.length) b := by
  have split {size size' : Nat} : window bytes at' (size + size') =
      window bytes at' size ++ window bytes (at' + size) size' := by
    rw [Checked.window, Checked.window, Checked.window, List.take_add, List.drop_drop]
  constructor
  · rintro ⟨fits, there⟩
    rw [List.length_append] at fits
    rw [List.length_append, split] at there
    have sized : (window bytes at' a.length).length = a.length := length_window (by omega)
    obtain ⟨front, back⟩ := List.append_inj there sized
    exact ⟨⟨by omega, front⟩, by omega, back⟩
  · rintro ⟨⟨_, front⟩, fits, back⟩
    refine ⟨by rw [List.length_append]; omega, ?_⟩
    rw [List.length_append, split, front, back]

theorem holds_self (bytes : Bytes) : Holds bytes 0 bytes :=
  ⟨by rw [Nat.zero_add], window_all rfl⟩

theorem holds_zero : Holds bytes 0 a ↔ a <+: bytes := by
  rw [List.prefix_iff_eq_take]
  constructor
  · intro holds
    exact holds.window.symm
  · intro front
    refine ⟨?_, front.symm⟩
    have length := congrArg List.length front
    rw [List.length_take] at length
    omega

/-- What fills the byte string is the byte string. -/
theorem Holds.eq_of_length (holds : Holds bytes 0 a) (all : a.length = bytes.length) :
    a = bytes := by
  rw [← holds.window, window_all all.symm]

/-- What lies in one place is determined by its length. -/
theorem Holds.unique (holds : Holds bytes at' a) (holds' : Holds bytes at' b)
    (length : a.length = b.length) : a = b := by
  rw [← holds.window, ← holds'.window, length]

theorem holds_window {size : Nat} (fits : at' + size ≤ bytes.length) :
    Holds bytes at' (window bytes at' size) := by
  have sized := length_window fits
  exact ⟨by omega, by rw [sized]⟩

/-- A word lies where it is read. -/
theorem holds_toLeBytes {width n : Nat} (fits : n < 256 ^ width) :
    Holds bytes at' (toLeBytes width n) ↔
      at' + width ≤ bytes.length ∧ wordAt width bytes at' = n := by
  constructor
  · rintro ⟨inside, there⟩
    rw [length_toLeBytes] at inside there
    exact ⟨inside, by rw [wordAt, there, fromLeBytes_toLeBytes fits]⟩
  · rintro ⟨inside, rfl⟩
    have written := holds_window inside
    rwa [← toLeBytes_fromLeBytes (Checked.window bytes at' width), length_window inside] at written

end Holds

/-! ### The reads -/

section Reads

variable {ε : Type} {e : ε} {bytes out : Bytes} {cursor cursor' size width n : Nat}

/-- The next `size` bytes, and the cursor behind them. -/
def take (e : ε) (bytes : Bytes) (cursor size : Nat) : Outcome ε (Bytes × Nat) := do
  let stop ← ofOption e (checkedAdd cursor size)
  let out ← ofOption e (getRange bytes cursor stop)
  pure (out, stop)

/-- The next `width` bytes as a little-endian word, and the cursor behind them. -/
def takeWord (e : ε) (width : Nat) (bytes : Bytes) (cursor : Nat) : Outcome ε (Nat × Nat) := do
  let (word, cursor) ← take e bytes cursor width
  pure (fromLeBytes word, cursor)

/-- A read of a slice returns what lies at the cursor, and moves behind it. -/
theorem take_eq_ok (word : bytes.length < 2 ^ 64) :
    take e bytes cursor size = .ok (out, cursor') ↔
      Holds bytes cursor out ∧ out.length = size ∧ cursor' = cursor + size := by
  simp only [take, bind_eq_ok, ofOption_eq_ok, checkedAdd_eq_some, getRange_eq_some, pure_eq,
    ok.injEq, Prod.mk.injEq]
  constructor
  · rintro ⟨_, ⟨_, rfl⟩, _, ⟨⟨_, inside⟩, rfl⟩, rfl, rfl⟩
    rw [Nat.add_sub_cancel_left]
    exact ⟨holds_window inside, length_window inside, rfl⟩
  · rintro ⟨⟨fits, there⟩, rfl, rfl⟩
    refine ⟨_, ⟨by omega, rfl⟩, _, ⟨⟨Nat.le_add_right _ _, fits⟩, ?_⟩, rfl, rfl⟩
    rw [Nat.add_sub_cancel_left, there]

/-- A read of a word returns the one that is written at the cursor. -/
theorem takeWord_eq_ok (word : bytes.length < 2 ^ 64) :
    takeWord e width bytes cursor = .ok (n, cursor') ↔
      Holds bytes cursor (toLeBytes width n) ∧ n < 256 ^ width ∧ cursor' = cursor + width := by
  simp only [takeWord, bind_eq_ok, Prod.exists, take_eq_ok word, pure_eq, ok.injEq, Prod.mk.injEq]
  constructor
  · rintro ⟨out, _, ⟨holds, rfl, rfl⟩, rfl, rfl⟩
    rw [toLeBytes_fromLeBytes]
    exact ⟨holds, fromLeBytes_lt out, rfl⟩
  · rintro ⟨holds, fits, rfl⟩
    exact ⟨_, _, ⟨holds, length_toLeBytes .., rfl⟩, fromLeBytes_toLeBytes fits, rfl⟩

@[simp] theorem take_ne_panic : take e bytes cursor size ≠ .panic := by
  refine bind_ne_panic ofOption_ne_panic fun stop _ => ?_
  exact bind_ne_panic ofOption_ne_panic fun out _ => by simp

@[simp] theorem takeWord_ne_panic : takeWord e width bytes cursor ≠ .panic :=
  bind_ne_panic take_ne_panic fun read _ => by simp

end Reads

end Checked
