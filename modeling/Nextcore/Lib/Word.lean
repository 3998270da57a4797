import Nextcore.Lib.Outcome
import Mathlib.Data.Nat.Bitwise
import Mathlib.Tactic.Common

/-!
Machine words as naturals.

A `u64` (or a 64-bit `usize`) is a natural number here, and every operation that
can leave the type says so: a checked one returns `none`, an unguarded one panics.
Rounding to a power of two is done with masks, as machine code does it;
`andNot_eq` turns a mask into a rounding once and for all.
-/

namespace Checked

/-- `a.checked_add(b)` on 64 bits. -/
def checkedAdd (a b : Nat) : Option Nat :=
  if a + b < 2 ^ 64 then some (a + b) else none

/-- `a.checked_sub(b)`. -/
def checkedSub (a b : Nat) : Option Nat :=
  if b ≤ a then some (a - b) else none

/-- `a.checked_mul(b)` on 64 bits. -/
def checkedMul (a b : Nat) : Option Nat :=
  if a * b < 2 ^ 64 then some (a * b) else none

/-- `n as i32`, for a 32-bit word. -/
def asI32 (n : Nat) : Int := if n < 2 ^ 31 then n else (n : Int) - 2 ^ 32

/-- `a.checked_add_signed(d)` on 64 bits. -/
def checkedAddSigned (a : Nat) (d : Int) : Option Nat :=
  if 0 ≤ (a : Int) + d ∧ (a : Int) + d < 2 ^ 64 then some ((a : Int) + d).toNat else none

/-- `a.wrapping_sub(b)` on 64 bits. -/
def wrappingSub (a b : Nat) : Nat := (a + (2 ^ 64 - b)) % 2 ^ 64

theorem checkedAdd_eq_some {a b c : Nat} :
    checkedAdd a b = some c ↔ a + b < 2 ^ 64 ∧ a + b = c := by
  simp [checkedAdd]

theorem checkedAdd_of_lt {a b : Nat} (fits : a + b < 2 ^ 64) : checkedAdd a b = some (a + b) :=
  if_pos fits

theorem checkedAdd_of_not_lt {a b : Nat} (wraps : ¬ a + b < 2 ^ 64) : checkedAdd a b = none :=
  if_neg wraps

theorem not_isNone_checkedAdd {a b : Nat} : ¬ (checkedAdd a b).isNone = true ↔ a + b < 2 ^ 64 := by
  by_cases fits : a + b < 2 ^ 64
  · rw [checkedAdd_of_lt fits]
    exact ⟨fun _ => fits, fun _ => Bool.false_ne_true⟩
  · rw [checkedAdd_of_not_lt fits]
    exact ⟨fun wrong => absurd rfl wrong, fun fits' => absurd fits' fits⟩

theorem checkedAddSigned_eq_some {a c : Nat} {d : Int} :
    checkedAddSigned a d = some c ↔ (a : Int) + d = c ∧ c < 2 ^ 64 := by
  unfold checkedAddSigned
  split
  · rw [Option.some.injEq]
    omega
  · simp only [reduceCtorEq, false_iff]
    omega

/-- `a.checked_add(b).is_none_or(p)`. -/
theorem all_checkedAdd {a b : Nat} {p : Nat → Bool} :
    (checkedAdd a b).all p = true ↔ (a + b < 2 ^ 64 → p (a + b) = true) := by
  by_cases fits : a + b < 2 ^ 64
  · rw [checkedAdd_of_lt fits, Option.all_some]
    exact ⟨fun holds _ => holds, fun holds => holds fits⟩
  · rw [checkedAdd_of_not_lt fits, Option.all_none]
    exact iff_of_true rfl fun word => absurd word fits

theorem checkedSub_eq_some {a b c : Nat} :
    checkedSub a b = some c ↔ b ≤ a ∧ a - b = c := by
  simp [checkedSub]

theorem checkedMul_eq_some {a b c : Nat} :
    checkedMul a b = some c ↔ a * b < 2 ^ 64 ∧ a * b = c := by
  simp [checkedMul]

section Unguarded

open Outcome

variable {ε : Type}

/-- `a + b` with no guard. -/
def add (a b : Nat) : Outcome ε Nat := .expect (checkedAdd a b)

/-- `a - b` with no guard. -/
def sub (a b : Nat) : Outcome ε Nat := .expect (checkedSub a b)

/-- `a * b` with no guard. -/
def mul (a b : Nat) : Outcome ε Nat := .expect (checkedMul a b)

/-- `a + b` on 32 bits with no guard. -/
def addU32 (a b : Nat) : Outcome ε Nat :=
  if a + b < 2 ^ 32 then .ok (a + b) else .panic

/-- `total` and the sum of the words, with no guard on the running sum. -/
def sumFrom (total : Nat) : List Nat → Outcome ε Nat
  | [] => .ok total
  | n :: rest => do
    let total ← add total n
    sumFrom total rest

@[simp] theorem mul_eq_ok {a b c : Nat} :
    (mul a b : Outcome ε Nat) = .ok c ↔ a * b < 2 ^ 64 ∧ a * b = c := by
  simp [mul, checkedMul_eq_some]

theorem mul_of_lt {a b : Nat} (fits : a * b < 2 ^ 64) : (mul a b : Outcome ε Nat) = .ok (a * b) :=
  mul_eq_ok.mpr ⟨fits, rfl⟩

/-- A checked addition whose failure is an error. -/
theorem yields_checkedAdd (a b : Nat) (e : ε) :
    Yields (a + b < 2 ^ 64) (fun c => c = a + b) (ofOption e (checkedAdd a b)) := by
  refine ⟨fun fits => ⟨a + b, by rw [checkedAdd_of_lt fits, ofOption_some], rfl⟩, fun c added => ?_⟩
  exact (checkedAdd_eq_some.mp (ofOption_eq_ok.mp added)).1

/-- `a << n` with no guard: the shift distance has to be below the width. -/
def shl (a n : Nat) : Outcome ε Nat :=
  if n < 64 then .ok ((a <<< n) % 2 ^ 64) else .panic

/-- `u64::try_from(n)` or `usize::try_from(n)`, with the error the caller maps it to. -/
def tryWord (n : Nat) (e : ε) : Outcome ε Nat :=
  if n < 2 ^ 64 then .ok n else .err e

/-- `u32::try_from(n)`. -/
def tryU32 (n : Nat) (e : ε) : Outcome ε Nat :=
  if n < 2 ^ 32 then .ok n else .err e

@[simp] theorem tryU32_eq_ok {n c : Nat} {e : ε} :
    tryU32 n e = .ok c ↔ n < 2 ^ 32 ∧ n = c := by
  unfold tryU32
  split <;> simp_all

@[simp] theorem add_eq_ok {a b c : Nat} :
    (add a b : Outcome ε Nat) = .ok c ↔ a + b < 2 ^ 64 ∧ a + b = c := by
  simp [add, checkedAdd_eq_some]

@[simp] theorem sub_eq_ok {a b c : Nat} :
    (sub a b : Outcome ε Nat) = .ok c ↔ b ≤ a ∧ a - b = c := by
  simp [sub, checkedSub_eq_some]

theorem add_of_lt {a b : Nat} (fits : a + b < 2 ^ 64) : (add a b : Outcome ε Nat) = .ok (a + b) :=
  add_eq_ok.mpr ⟨fits, rfl⟩

theorem sub_of_le {a b : Nat} (below : b ≤ a) : (sub a b : Outcome ε Nat) = .ok (a - b) :=
  sub_eq_ok.mpr ⟨below, rfl⟩

theorem addU32_of_lt {a b : Nat} (fits : a + b < 2 ^ 32) :
    (addU32 a b : Outcome ε Nat) = .ok (a + b) :=
  if_pos fits

theorem sumFrom_of_lt {total : Nat} {words : List Nat} (fits : total + words.sum < 2 ^ 64) :
    (sumFrom total words : Outcome ε Nat) = .ok (total + words.sum) := by
  induction words generalizing total with
  | nil => rfl
  | cons n rest ih =>
      rw [List.sum_cons, ← Nat.add_assoc] at fits ⊢
      rw [sumFrom, add_of_lt (by omega), bind_ok, ih fits]

theorem sumFrom_of_not_lt {total : Nat} {words : List Nat} (word : total < 2 ^ 64)
    (passes : ¬ total + words.sum < 2 ^ 64) : (sumFrom total words : Outcome ε Nat) = .panic := by
  induction words generalizing total with
  | nil => exact absurd word passes
  | cons n rest ih =>
      rw [List.sum_cons, ← Nat.add_assoc] at passes
      rw [sumFrom]
      by_cases first : total + n < 2 ^ 64
      · rw [add_of_lt first, bind_ok, ih first passes]
      · rw [add, checkedAdd_of_not_lt first]
        rfl

@[simp] theorem shl_eq_ok {a n c : Nat} :
    (shl a n : Outcome ε Nat) = .ok c ↔ n < 64 ∧ (a <<< n) % 2 ^ 64 = c := by
  unfold shl
  split <;> simp_all

@[simp] theorem add_ne_panic_iff {a b : Nat} :
    (add a b : Outcome ε Nat) ≠ .panic ↔ a + b < 2 ^ 64 := by
  unfold add checkedAdd
  split <;> simp_all [Outcome.expect]

@[simp] theorem sub_ne_panic_iff {a b : Nat} : (sub a b : Outcome ε Nat) ≠ .panic ↔ b ≤ a := by
  unfold sub checkedSub
  split <;> simp_all [Outcome.expect]

@[simp] theorem mul_ne_panic_iff {a b : Nat} :
    (mul a b : Outcome ε Nat) ≠ .panic ↔ a * b < 2 ^ 64 := by
  unfold mul checkedMul
  split <;> simp_all [Outcome.expect]

@[simp] theorem shl_ne_panic_iff {a n : Nat} : (shl a n : Outcome ε Nat) ≠ .panic ↔ n < 64 := by
  unfold shl
  split <;> simp_all

@[simp] theorem addU32_ne_panic_iff {a b : Nat} :
    (addU32 a b : Outcome ε Nat) ≠ .panic ↔ a + b < 2 ^ 32 := by
  unfold addU32
  split <;> simp_all

@[simp] theorem addU32_eq_ok {a b c : Nat} :
    (addU32 a b : Outcome ε Nat) = .ok c ↔ a + b < 2 ^ 32 ∧ a + b = c := by
  unfold addU32
  split <;> simp_all

/-- A shifted bit is not zero. -/
theorem one_le_of_shl {n bit : Nat} (shifted : (shl 1 n : Outcome ε Nat) = .ok bit) : 1 ≤ bit := by
  obtain ⟨low, rfl⟩ := shl_eq_ok.mp shifted
  rw [Nat.one_shiftLeft, Nat.mod_eq_of_lt (Nat.pow_lt_pow_right (by decide) low)]
  exact Nat.two_pow_pos n

theorem tryWord_of_lt {n : Nat} {e : ε} (word : n < 2 ^ 64) : tryWord n e = .ok n := if_pos word

theorem tryWord_of_not_lt {n : Nat} {e : ε} (long : ¬ n < 2 ^ 64) : tryWord n e = .err e :=
  if_neg long

@[simp] theorem tryWord_eq_ok {n c : Nat} {e : ε} :
    tryWord n e = .ok c ↔ n < 2 ^ 64 ∧ n = c := by
  unfold tryWord
  split <;> simp_all

theorem yields_checkedMul (a b : Nat) (e : ε) :
    Yields (a * b < 2 ^ 64) (fun c => c = a * b) (ofOption e (checkedMul a b)) := by
  refine ⟨fun fits => ⟨a * b, ofOption_eq_ok.mpr (checkedMul_eq_some.mpr ⟨fits, rfl⟩), rfl⟩, ?_⟩
  intro c multiplied
  exact (checkedMul_eq_some.mp (ofOption_eq_ok.mp multiplied)).1

theorem yields_tryWord (n : Nat) (e : ε) : Yields (n < 2 ^ 64) (fun m => m = n) (tryWord n e) := by
  refine ⟨fun fits => ⟨n, tryWord_of_lt fits, rfl⟩, fun m converted => ?_⟩
  exact (tryWord_eq_ok.mp converted).1

theorem ends_tryWord {n : Nat} {e : ε} {fails : ε → Prop} (failed : ¬ n < 2 ^ 64 → fails e) :
    Ends (fun m => n < 2 ^ 64 ∧ n = m) fails (tryWord n e) := by
  by_cases word : n < 2 ^ 64
  · rw [tryWord_of_lt word]
    exact ⟨word, rfl⟩
  · rw [tryWord_of_not_lt word]
    exact failed word

theorem yields_checkedSub (a b : Nat) (e : ε) :
    Yields (b ≤ a) (fun c => c = a - b) (ofOption e (checkedSub a b)) := by
  refine ⟨fun below => ⟨a - b, ofOption_eq_ok.mpr (checkedSub_eq_some.mpr ⟨below, rfl⟩), rfl⟩, ?_⟩
  intro c subtracted
  exact (checkedSub_eq_some.mp (ofOption_eq_ok.mp subtracted)).1

theorem yields_tryU32 (n : Nat) (e : ε) : Yields (n < 2 ^ 32) (fun m => m = n) (tryU32 n e) := by
  refine ⟨fun fits => ⟨n, tryU32_eq_ok.mpr ⟨fits, rfl⟩, rfl⟩, fun m converted => ?_⟩
  exact (tryU32_eq_ok.mp converted).1

end Unguarded

/-! ### Masks and alignment -/

/-- `x & !m`. -/
def andNot (x m : Nat) : Nat := x ^^^ (x &&& m)

/-- `n.div_ceil(d)`. -/
def divCeil (n d : Nat) : Nat := (n + d - 1) / d

theorem lt_divCeil_iff {k n d : Nat} (positive : 0 < d) : k < divCeil n d ↔ k * d < n := by
  rw [divCeil, Nat.lt_iff_add_one_le, Nat.le_div_iff_mul_le positive, Nat.add_mul]
  omega

theorem divCeil_sub {k n d : Nat} (below : k * d ≤ n) :
    divCeil (n - k * d) d = divCeil n d - k := by
  rw [divCeil, divCeil, Nat.mul_comm, ← Nat.sub_mul_div]
  congr 1
  rw [Nat.mul_comm]
  omega

/-- The greatest multiple of `p` that is not above `x`. -/
def roundDown (p x : Nat) : Nat := x / p * p

/-- The least multiple of `p` that is not below `x`. -/
def roundUp (p x : Nat) : Nat := roundDown p (x + (p - 1))

/-- Clearing the bits below a power of two rounds down to a multiple of it. -/
theorem andNot_two_pow (x k : Nat) : andNot x (2 ^ k - 1) = roundDown (2 ^ k) x := by
  apply Nat.eq_of_testBit_eq
  intro i
  rw [andNot, roundDown, Nat.and_two_pow_sub_one_eq_mod, Nat.testBit_xor, Nat.testBit_mod_two_pow,
    Nat.testBit_mul_two_pow, Nat.testBit_div_two_pow]
  by_cases low : i < k
  · simp [low, Nat.not_le.mpr low]
  · simp [low, Nat.le_of_not_lt low, Nat.sub_add_cancel (Nat.le_of_not_lt low)]

/-- Clearing the highest bit that a word may have. -/
theorem andNot_top {x k : Nat} (word : x < 2 ^ (k + 1)) : andNot x (2 ^ k) = x % 2 ^ k := by
  apply Nat.eq_of_testBit_eq
  intro i
  rw [andNot, Nat.testBit_xor, Nat.testBit_and, Nat.testBit_two_pow, Nat.testBit_mod_two_pow]
  rcases Nat.lt_trichotomy i k with low | rfl | high
  · simp [low, Nat.ne_of_gt low]
  · simp
  · have clear : x.testBit i = false :=
      Nat.testBit_lt_two_pow (word.trans_le (Nat.pow_le_pow_right (by decide) high))
    simp [clear]

/-- A word has its highest bit exactly from there on. -/
theorem and_top_ne_zero {x k : Nat} (word : x < 2 ^ (k + 1)) : x &&& 2 ^ k ≠ 0 ↔ 2 ^ k ≤ x := by
  rw [Nat.and_two_pow, Nat.testBit_eq_decide_div_mod_eq]
  have top : x / 2 ^ k < 2 := Nat.div_lt_of_lt_mul (by rwa [Nat.pow_succ] at word)
  have positive : 0 < 2 ^ k := Nat.two_pow_pos k
  have reach : 1 ≤ x / 2 ^ k ↔ 2 ^ k ≤ x := by
    rw [Nat.le_div_iff_mul_le positive, Nat.one_mul]
  rw [← reach]
  rcases Nat.lt_or_ge (x / 2 ^ k) 1 with zero | one
  · simp [Nat.lt_one_iff.mp zero]
  · obtain top_eq : x / 2 ^ k = 1 := by omega
    simp [top_eq]

/-- Clearing the bits outside a run of them, in a word that has none above. -/
theorem and_run {x low high : Nat} (small : x < 2 ^ (low + high)) :
    x &&& (2 ^ high - 1) <<< low = roundDown (2 ^ low) x := by
  apply Nat.eq_of_testBit_eq
  intro i
  rw [roundDown, Nat.testBit_and, Nat.testBit_shiftLeft, Nat.testBit_two_pow_sub_one,
    Nat.testBit_mul_two_pow, Nat.testBit_div_two_pow]
  by_cases below : i < low
  · simp [Nat.not_le.mpr below]
  · have above : low ≤ i := Nat.le_of_not_lt below
    rw [Nat.sub_add_cancel above]
    by_cases inside : i - low < high
    · simp [above, inside]
    · have clear : x.testBit i = false :=
        Nat.testBit_lt_two_pow (small.trans_le (Nat.pow_le_pow_right (by decide) (by omega)))
      simp [clear]

/-- Bits put below a multiple of a power of two add up. -/
theorem or_eq_add {x y k : Nat} (multiple : 2 ^ k ∣ x) (small : y < 2 ^ k) : x ||| y = x + y := by
  obtain ⟨a, rfl⟩ := multiple
  exact (Nat.two_pow_add_eq_or_of_lt small a).symm

/-- A disjunction of words is a multiple of a power of two when each of them is. -/
theorem or_and_eq_zero {x y m : Nat} : (x ||| y) &&& m = 0 ↔ x &&& m = 0 ∧ y &&& m = 0 := by
  rw [Nat.and_or_distrib_right, Nat.or_eq_zero_iff]

theorem and_two_pow_sub_one_eq_zero {x k : Nat} : x &&& (2 ^ k - 1) = 0 ↔ 2 ^ k ∣ x := by
  rw [Nat.and_two_pow_sub_one_eq_mod, Nat.dvd_iff_mod_eq_zero]

theorem andNot_eq {p : Nat} (pow : p.isPowerOfTwo) (x : Nat) :
    andNot x (p - 1) = roundDown p x := by
  obtain ⟨k, rfl⟩ := pow
  exact andNot_two_pow x k

section Rounding

variable {p x y : Nat}

theorem dvd_roundDown (p x : Nat) : p ∣ roundDown p x := Nat.dvd_mul_left p _

theorem roundDown_le (p x : Nat) : roundDown p x ≤ x := Nat.div_mul_le_self x p

theorem lt_roundDown_add (positive : 0 < p) (x : Nat) : x < roundDown p x + p :=
  Nat.lt_div_mul_add positive

theorem le_roundDown (positive : 0 < p) (multiple : p ∣ y) (below : y ≤ x) :
    y ≤ roundDown p x := by
  obtain ⟨n, rfl⟩ := multiple
  rw [Nat.mul_comm p n] at below ⊢
  exact Nat.mul_le_mul_right p ((Nat.le_div_iff_mul_le positive).mpr below)

theorem dvd_roundUp (p x : Nat) : p ∣ roundUp p x := dvd_roundDown p _

theorem roundUp_le_add (p x : Nat) : roundUp p x ≤ x + (p - 1) := roundDown_le p _

theorem le_roundUp (positive : 0 < p) (x : Nat) : x ≤ roundUp p x := by
  have next := lt_roundDown_add positive (x + (p - 1))
  rw [roundUp]
  omega

theorem roundUp_le (positive : 0 < p) (multiple : p ∣ y) (above : x ≤ y) : roundUp p x ≤ y := by
  have low := roundUp_le_add p x
  obtain ⟨n, eq⟩ := multiple
  obtain ⟨m, eq'⟩ := dvd_roundUp p x
  rw [eq'] at low ⊢
  rw [eq] at above ⊢
  -- Both are multiples of `p`, and the rounded one stays below the next multiple after `y`.
  have : p * m < p * (n + 1) := by
    rw [Nat.mul_succ]
    omega
  exact Nat.mul_le_mul_left p (Nat.le_of_lt_succ (Nat.lt_of_mul_lt_mul_left this))

end Rounding

end Checked
