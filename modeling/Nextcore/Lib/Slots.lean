import Mathlib.Data.List.Perm.Basic

/-!
Tables of reusable slots.

A table is a list of optional entries of a fixed length. Its live entries, up to
order, change by exactly one entry when a free slot is filled or a used one freed;
facts about all pairs of live entries then survive by permutation invariance.
-/

namespace Slots

variable {α : Type}

/-- The live entries, in slot order. -/
def live (slots : List (Option α)) : List α := slots.filterMap id

theorem mem_live {slots : List (Option α)} {a : α} : a ∈ live slots ↔ some a ∈ slots := by
  simp [live]

theorem mem_live_of_getElem? {slots : List (Option α)} {i : Nat} {a : α}
    (at_i : slots[i]? = some (some a)) : a ∈ live slots :=
  mem_live.mpr (List.mem_of_getElem? at_i)

@[simp] theorem live_replicate_none (n : Nat) : live (List.replicate n (none : Option α)) = [] := by
  simp [live]

/-- The entries of a slot and of the slots around it make up the live entries. -/
theorem live_split {slots : List (Option α)} {i : Nat} {x : Option α} (at_i : slots[i]? = some x) :
    live slots = live (slots.take i) ++ (x.toList ++ live (slots.drop (i + 1))) := by
  have inside : i < slots.length := (List.getElem?_eq_some_iff.mp at_i).1
  have value : slots[i] = x := (List.getElem?_eq_some_iff.mp at_i).2
  conv_lhs => rw [← List.take_append_drop i slots, List.drop_eq_getElem_cons inside, value]
  cases x <;> simp [live]

/-- Filling a free slot adds one live entry and moves none. -/
theorem live_fill {slots : List (Option α)} {i : Nat} (free : slots[i]? = some none) (a : α) :
    (live (slots.set i (some a))).Perm (a :: live slots) := by
  have inside : i < slots.length := (List.getElem?_eq_some_iff.mp free).1
  have filled : (slots.set i (some a))[i]? = some (some a) := by
    simp [inside]
  rw [live_split filled, live_split free, List.take_set_of_le (Nat.le_refl i),
    List.drop_set_of_lt (Nat.lt_succ_self i)]
  exact List.perm_middle

/-- Freeing a used slot takes exactly its entry away. -/
theorem live_free {slots : List (Option α)} {i : Nat} {a : α} (used : slots[i]? = some (some a)) :
    (live slots).Perm (a :: live (slots.set i none)) := by
  have inside : i < slots.length := (List.getElem?_eq_some_iff.mp used).1
  have freed : (slots.set i none)[i]? = some none := by
    simp [inside]
  rw [live_split used, live_split freed, List.take_set_of_le (Nat.le_refl i),
    List.drop_set_of_lt (Nat.lt_succ_self i)]
  exact List.perm_middle

end Slots
