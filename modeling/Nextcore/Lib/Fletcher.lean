import Mathlib.Algebra.BigOperators.Ring.Finset
import Mathlib.Data.List.GetD
import Mathlib.Data.Nat.ModEq

/-!
Fletcher sums, and the two check words that close them.

`sums words` is the sum of the words and the sum of the sums after each of them. The check words
are what the two sums lack to a multiple of the modulus (`closed_checkWords`). They tell two lists
apart exactly when the sums do (`checkWords_eq_iff`), and so they notice a change of one word
unless the change is a multiple of the modulus (`checkWords_set_iff`).
-/

namespace Fletcher

/-- The sum of the words so far, and the sum of the sums after each of them. -/
structure Sums where
  sum : Nat
  prefixes : Nat
  deriving DecidableEq, Repr

def Sums.next (sums : Sums) (word : Nat) : Sums :=
  ⟨sums.sum + word, sums.prefixes + (sums.sum + word)⟩

def sums (words : List Nat) : Sums := words.foldl Sums.next ⟨0, 0⟩

variable {m : Nat} {words : List Nat}

theorem sums_append_singleton (words : List Nat) (word : Nat) :
    sums (words ++ [word]) = (sums words).next word := by
  rw [sums, List.foldl_append, List.foldl_cons, List.foldl_nil, sums]

/-! ### Positions -/

theorem getD_length_append (words : List Nat) (word : Nat) :
    (words ++ [word]).getD words.length 0 = word := by
  rw [List.getD_append_right _ _ _ _ (Nat.le_refl _), Nat.sub_self, List.getD_cons_zero]

theorem sum_eq (words : List Nat) :
    (sums words).sum = ∑ i ∈ Finset.range words.length, words.getD i 0 := by
  induction words using List.reverseRecOn with
  | nil => rfl
  | append_singleton words word ih =>
      have before : ∀ i ∈ Finset.range words.length,
          (words ++ [word]).getD i 0 = words.getD i 0 := by
        intro i mem
        exact List.getD_append _ _ _ _ (Finset.mem_range.mp mem)
      rw [sums_append_singleton, Sums.next, ih, List.length_append, List.length_singleton,
        Finset.sum_range_succ, Finset.sum_congr rfl before, getD_length_append]

/-- A word is part of the sum after it and of all later ones. -/
theorem prefixes_eq (words : List Nat) : (sums words).prefixes =
    ∑ i ∈ Finset.range words.length, (words.length - i) * words.getD i 0 := by
  induction words using List.reverseRecOn with
  | nil => rfl
  | append_singleton words word ih =>
      have before : ∀ i ∈ Finset.range words.length,
          (words.length + 1 - i) * (words ++ [word]).getD i 0 =
            (words.length - i) * words.getD i 0 + words.getD i 0 := by
        intro i mem
        have inside := Finset.mem_range.mp mem
        rw [List.getD_append _ _ _ _ inside, Nat.succ_sub (Nat.le_of_lt inside), Nat.succ_mul]
      rw [sums_append_singleton, Sums.next, ih, List.length_append, List.length_singleton,
        Finset.sum_range_succ, Finset.sum_congr rfl before, Finset.sum_add_distrib, ← sum_eq,
        getD_length_append, Nat.add_sub_cancel_left, Nat.one_mul, Nat.add_assoc]

/-! ### Check words -/

/-- What a sum lacks to a multiple of the modulus, which for a multiple is all of it. -/
def complement (m n : Nat) : Nat := m - n % m

def Sums.low (m : Nat) (sums : Sums) : Nat := complement m (sums.sum + sums.prefixes)
def Sums.high (m : Nat) (sums : Sums) : Nat := complement m (sums.sum + sums.low m)

theorem complement_le (m n : Nat) : complement m n ≤ m := Nat.sub_le _ _

theorem add_complement (positive : 0 < m) (n : Nat) : n + complement m n ≡ 0 [MOD m] := by
  have below : n % m ≤ m := Nat.le_of_lt (Nat.mod_lt _ positive)
  calc n + complement m n ≡ n % m + complement m n [MOD m] :=
        (Nat.mod_modEq n m).symm.add_right _
    _ = m := Nat.add_sub_cancel' below
    _ ≡ 0 [MOD m] := Nat.modEq_zero_iff_dvd.mpr (Nat.dvd_refl m)

theorem complement_eq_iff (positive : 0 < m) {a b : Nat} :
    complement m a = complement m b ↔ a ≡ b [MOD m] := by
  have first := Nat.mod_lt a positive
  have second := Nat.mod_lt b positive
  rw [complement, complement, Nat.ModEq]
  omega

/-- Both sums are multiples of the modulus. -/
structure Closed (m : Nat) (sums : Sums) : Prop where
  sum : sums.sum ≡ 0 [MOD m]
  prefixes : sums.prefixes ≡ 0 [MOD m]

/-- The low and then the high check word close the sums. -/
theorem closed_checkWords (positive : 0 < m) (words : List Nat) :
    Closed m (sums (words ++ [(sums words).low m, (sums words).high m])) := by
  rw [List.append_cons, sums_append_singleton, sums_append_singleton]
  generalize sums words = before
  have both : before.sum + before.low m + before.high m ≡ 0 [MOD m] := add_complement positive _
  have low : before.sum + before.prefixes + before.low m ≡ 0 [MOD m] := add_complement positive _
  refine ⟨both, ?_⟩
  calc before.prefixes + (before.sum + before.low m) +
        (before.sum + before.low m + before.high m)
      = before.sum + before.prefixes + before.low m +
        (before.sum + before.low m + before.high m) := by omega
    _ ≡ 0 [MOD m] := low.add both

theorem checkWords_eq_iff (positive : 0 < m) {s t : Sums} :
    s.low m = t.low m ∧ s.high m = t.high m ↔
      s.sum ≡ t.sum [MOD m] ∧ s.prefixes ≡ t.prefixes [MOD m] := by
  constructor
  · rintro ⟨low, high⟩
    rw [Sums.high, Sums.high, low, complement_eq_iff positive] at high
    have sum := Nat.ModEq.add_right_cancel' _ high
    exact ⟨sum, sum.add_left_cancel ((complement_eq_iff positive).mp low)⟩
  · rintro ⟨sum, prefixes⟩
    have low : s.low m = t.low m := (complement_eq_iff positive).mpr (sum.add prefixes)
    refine ⟨low, ?_⟩
    rw [Sums.high, Sums.high, low]
    exact (complement_eq_iff positive).mpr (sum.add_right _)

/-! ### A changed word -/

/-- The sums before and after a change of the word at `i`. -/
theorem weighted_set (weight : Nat → Nat) {i : Nat} (inside : i < words.length) (word : Nat) :
    ∑ j ∈ Finset.range words.length, weight j * (words.set i word).getD j 0 +
        weight i * words.getD i 0 =
      ∑ j ∈ Finset.range words.length, weight j * words.getD j 0 + weight i * word := by
  have mem := Finset.mem_range.mpr inside
  have others : ∀ j ∈ (Finset.range words.length).erase i,
      weight j * (words.set i word).getD j 0 = weight j * words.getD j 0 := by
    intro j mem'
    have apart := Finset.ne_of_mem_erase mem'
    rw [List.getD_eq_getElem?_getD, List.getElem?_set_ne apart.symm, List.getD_eq_getElem?_getD]
  have here : (words.set i word).getD i 0 = word := by
    rw [List.getD_eq_getElem?_getD, List.getElem?_set_self inside, Option.getD_some]
  rw [← Finset.sum_erase_add _ _ mem, ← Finset.sum_erase_add _ _ mem, Finset.sum_congr rfl others,
    here, Nat.add_right_comm]

theorem sum_set {i : Nat} (inside : i < words.length) (word : Nat) :
    (sums (words.set i word)).sum + words.getD i 0 = (sums words).sum + word := by
  have changed := weighted_set (fun _ => 1) inside word
  simp only [Nat.one_mul] at changed
  rw [sum_eq, sum_eq, List.length_set]
  exact changed

theorem prefixes_set {i : Nat} (inside : i < words.length) (word : Nat) :
    (sums (words.set i word)).prefixes + (words.length - i) * words.getD i 0 =
      (sums words).prefixes + (words.length - i) * word := by
  rw [prefixes_eq, prefixes_eq, List.length_set]
  exact weighted_set (words.length - ·) inside word

/-- The check words of a list in which one word has changed are the same exactly when the change
is a multiple of the modulus. -/
theorem checkWords_set_iff (positive : 0 < m) {i : Nat} (inside : i < words.length) (word : Nat) :
    (sums (words.set i word)).low m = (sums words).low m ∧
        (sums (words.set i word)).high m = (sums words).high m ↔
      words.getD i 0 ≡ word [MOD m] := by
  have sum := sum_set inside word
  have prefixes := prefixes_set inside word
  rw [checkWords_eq_iff positive]
  constructor
  · rintro ⟨same, _⟩
    have shifted : (sums words).sum + words.getD i 0 ≡ (sums words).sum + word [MOD m] := by
      rw [← sum]
      exact same.symm.add_right _
    exact Nat.ModEq.add_left_cancel' _ shifted
  · intro same
    constructor
    · apply same.add_right_cancel
      rw [sum]
    · apply (same.mul_left _).add_right_cancel
      rw [prefixes]

/-- Two different words up to the modulus that are congruent are its two zeros. -/
theorem modEq_iff_zeros {a b : Nat} (first : a ≤ m) (second : b ≤ m) (differ : a ≠ b) :
    a ≡ b [MOD m] ↔ a = 0 ∧ b = m ∨ a = m ∧ b = 0 := by
  constructor
  · intro same
    rcases Nat.lt_or_eq_of_le first with less | rfl
    · rcases Nat.lt_or_eq_of_le second with less' | rfl
      · exact absurd (same.eq_of_lt_of_lt less less') differ
      · have none : b ∣ a := Nat.modEq_zero_iff_dvd.mp (same.trans b.mod_self)
        exact .inl ⟨Nat.eq_zero_of_dvd_of_lt none less, rfl⟩
    · have less := Nat.lt_of_le_of_ne second differ.symm
      have none : a ∣ b := Nat.modEq_zero_iff_dvd.mp (same.symm.trans a.mod_self)
      exact .inr ⟨rfl, Nat.eq_zero_of_dvd_of_lt none less⟩
  · rintro (⟨rfl, rfl⟩ | ⟨rfl, rfl⟩)
    · exact (Nat.mod_self _).symm ▸ Nat.zero_mod _
    · exact (Nat.mod_self _).trans (Nat.zero_mod _).symm

end Fletcher
