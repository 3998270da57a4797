import Nextcore.Lib.Sort
import Nextcore.Lib.Word

/-!
Binary search.

`partitionPoint` halves the part of a list that is left to look at, as a slice does it. Of a list
that the test splits in two, `Splits`, it finds where (`partitionPoint_of_splits`); the element in
front of that place is the last one that passes the test (`lastBySearch_eq`).
-/

namespace Checked

variable {α : Type} {p : α → Bool} {list : List α}

/-- The loop over the `size` elements from `base` on. -/
def narrow (p : α → Bool) (list : List α) (base size : Nat) : Nat :=
  if 1 < size then
    let half := size / 2
    narrow p list (if list[base + half]?.any p then base + half else base) (size - half)
  else base
termination_by size
decreasing_by omega

/-- `list.partition_point(p)`. -/
def partitionPoint (p : α → Bool) (list : List α) : Nat :=
  if list.isEmpty then 0
  else
    let base := narrow p list 0 list.length
    if list[base]?.any p then base + 1 else base

/-- `list[list.partition_point(p).checked_sub(1)?]`. -/
def lastBySearch (p : α → Bool) (list : List α) : Option α := do
  let index ← checkedSub (partitionPoint p list) 1
  list[index]?

/-- The first `n` elements pass the test, and no others. -/
def Splits (p : α → Bool) (list : List α) (n : Nat) : Prop :=
  ∀ i : Nat, list[i]?.any p = decide (i < n)

theorem Splits.le_length {n : Nat} (splits : Splits p list n) : n ≤ list.length := by
  by_contra beyond
  have at_end := splits list.length
  rw [List.getElem?_eq_none (Nat.le_refl _), decide_eq_true (by omega)] at at_end
  cases at_end

theorem Splits.tested {n i : Nat} (splits : Splits p list n) :
    list[i]?.any p = true ↔ i < n := by
  rw [splits, decide_eq_true_iff]

/-- The place stays in what is looked at. -/
theorem narrow_of_splits {n base size : Nat} (splits : Splits p list n) (some : 0 < size)
    (front : base = 0 ∨ base < n) (back : n ≤ base + size) :
    (narrow p list base size = 0 ∨ narrow p list base size < n) ∧
      n ≤ narrow p list base size + 1 := by
  induction size using Nat.strongRecOn generalizing base with
  | ind size ih =>
      rw [narrow]
      by_cases more : 1 < size
      · rw [if_pos more]
        dsimp only
        by_cases passed : base + size / 2 < n
        · rw [if_pos (splits.tested.mpr passed)]
          exact ih (size - size / 2) (by omega) (by omega) (.inr passed) (by omega)
        · rw [if_neg (mt splits.tested.mp passed)]
          exact ih (size - size / 2) (by omega) (by omega) front (by omega)
      · rw [if_neg more]
        exact ⟨front, by omega⟩

theorem partitionPoint_of_splits {n : Nat} (splits : Splits p list n) :
    partitionPoint p list = n := by
  have within := splits.le_length
  cases list with
  | nil => exact (Nat.le_zero.mp within).symm
  | cons a rest =>
      have some : 0 < (a :: rest).length := Nat.succ_pos _
      have found := narrow_of_splits splits some (.inl rfl) (by rwa [Nat.zero_add])
      rw [partitionPoint, List.isEmpty_cons, if_neg Bool.false_ne_true]
      dsimp only
      by_cases passed : narrow p (a :: rest) 0 (a :: rest).length < n
      · rw [if_pos (splits.tested.mpr passed)]
        omega
      · rw [if_neg (mt splits.tested.mp passed)]
        omega

/-- A test that what comes later passes only with what comes before. -/
theorem splits_of_pairwise (falling : list.Pairwise fun a b => p b = true → p a = true) :
    Splits p list (list.takeWhile p).length := by
  induction list with
  | nil => exact fun i => rfl
  | cons a rest ih =>
      obtain ⟨first, falling⟩ := List.pairwise_cons.mp falling
      intro i
      by_cases passed : p a = true
      · rw [List.takeWhile_cons_of_pos passed, List.length_cons]
        cases i with
        | zero => simpa using passed
        | succ i => simpa using ih falling i
      · rw [List.takeWhile_cons_of_neg passed, List.length_nil]
        have none : ∀ b ∈ a :: rest, p b = false := by
          rintro b (_ | ⟨_, mem⟩)
          · exact Bool.not_eq_true _ ▸ passed
          · exact Bool.eq_false_iff.mpr fun hit => passed (first b mem hit)
        rw [decide_eq_false (Nat.not_lt_zero i)]
        cases found : (a :: rest)[i]? with
        | none => rfl
        | some b => exact none b (List.mem_of_getElem? found)

/-- The search finds the last element of the front. -/
theorem lastBySearch_eq (falling : list.Pairwise fun a b => p b = true → p a = true) :
    lastBySearch p list = lastOfFront p list := by
  obtain ⟨behind, split⟩ := List.takeWhile_prefix (l := list) p
  rw [lastBySearch, partitionPoint_of_splits (splits_of_pairwise falling), lastOfFront]
  cases front : list.takeWhile p with
  | nil => rfl
  | cons a rest =>
      have index : checkedSub (a :: rest).length 1 = some rest.length :=
        checkedSub_eq_some.mpr ⟨Nat.succ_pos _, rfl⟩
      rw [index, Option.bind_eq_bind, Option.bind_some, List.getLast?_eq_getElem?, ← split, front]
      exact List.getElem?_append_left (Nat.lt_succ_self _)

/-- Behind a front that passes, the last of the front is no earlier than what passes next. -/
theorem exists_lastOfFront {front : List α} {a : α} (rest : List α)
    (passed : ∀ b ∈ front, p b = true) (hit : p a = true) :
    ∃ b ∈ a :: rest, lastOfFront p (front ++ a :: rest) = some b := by
  have some : a :: rest.takeWhile p ≠ [] := List.cons_ne_nil _ _
  refine ⟨(a :: rest.takeWhile p).getLast some, ?_, ?_⟩
  · exact List.cons_subset_cons a (List.takeWhile_subset p) (List.getLast_mem some)
  · rw [lastOfFront, List.takeWhile_append_of_pos passed, List.takeWhile_cons_of_pos hit,
      List.getLast?_append_cons, List.getLast?_eq_some_getLast some]

example : partitionPoint (· ≤ 4) [1, 3, 4, 4, 8] = 4 := by decide +kernel

end Checked
