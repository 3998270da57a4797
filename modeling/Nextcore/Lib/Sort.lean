import Mathlib.Data.List.Chain
import Mathlib.Data.List.Sort
import Mathlib.Data.List.TakeWhile
import Nextcore.Lib.Span

/-!
Sorting by a key, without stability.

An `UnstableSort` is any way of putting a list in the order of a key: which of two
elements with one key comes first is left open, as `sort_unstable_by_key` leaves it.
What is proved for every instance holds for every implementation.
-/

/-- A sort by a natural key that may permute equal keys. -/
class UnstableSort where
  sortByKey {α : Type} (key : α → Nat) (list : List α) : List α
  perm {α : Type} (key : α → Nat) (list : List α) : (sortByKey key list).Perm list
  sorted {α : Type} (key : α → Nat) (list : List α) :
    (sortByKey key list).Pairwise fun a b => key a ≤ key b

namespace UnstableSort

/-- One such sort, which can be run. -/
abbrev insertion : UnstableSort where
  sortByKey key := List.insertionSort fun a b => key a ≤ key b
  perm key := List.perm_insertionSort fun a b => key a ≤ key b
  sorted key list := by
    have : Std.Total fun a b => key a ≤ key b := ⟨fun a b => Nat.le_total (key a) (key b)⟩
    have : IsTrans _ fun a b => key a ≤ key b := ⟨fun _ _ _ => Nat.le_trans⟩
    exact List.pairwise_insertionSort _ list

variable [UnstableSort] {α : Type}

theorem mem_sortByKey {key : α → Nat} {list : List α} {a : α} :
    a ∈ sortByKey key list ↔ a ∈ list :=
  (perm key list).mem_iff

/-- There is a first member after sorting where there is one at all. -/
theorem head?_sortByKey_eq_none {key : α → Nat} {list : List α} :
    (sortByKey key list).head? = none ↔ list = [] := by
  rw [List.head?_eq_none_iff, ← List.perm_nil, ← List.perm_nil]
  exact ⟨(perm key list).symm.trans, (perm key list).trans⟩

/-- A sorted list that does not run into its successor anywhere is pairwise apart. -/
theorem pairwise_apart_of_sortByKey {span : α → Span} (key : α → Nat) {list : List α}
    (chain : (sortByKey key list).IsChain fun a b => (span a).stop ≤ (span b).start) :
    list.Pairwise fun a b => Span.Apart (span a) (span b) := by
  have spans := Span.pairwise_apart_of_isChain ((List.isChain_map span).mpr chain)
  exact ((perm key list).pairwise_iff Span.Apart.symm).mp (List.pairwise_map.mp spans)

/-- Non-empty spans sorted by their starts are pairwise apart when their neighbours are. -/
theorem pairwise_apart_of_neighbours {span : α → Span} {list : List α}
    (nonempty : ∀ a ∈ list, 0 < (span a).size)
    (chain : (sortByKey (fun a => (span a).start) list).IsChain fun a b =>
      Span.Apart (span a) (span b)) :
    list.Pairwise fun a b => Span.Apart (span a) (span b) := by
  have ordered := sorted (fun a => (span a).start) list
  refine pairwise_apart_of_sortByKey (fun a => (span a).start) ?_
  refine List.isChain_iff_getElem.mpr fun i inside => ?_
  rcases List.isChain_iff_getElem.mp chain i inside with before | behind
  · exact before
  · -- The successor starts no earlier, so it could only end first if it were empty.
    have le := List.pairwise_iff_getElem.mp ordered i (i + 1) (by omega) inside (Nat.lt_succ_self i)
    have pos := nonempty _ (mem_sortByKey.mp (List.getElem_mem inside))
    simp only [Span.stop] at behind
    omega

/-- Non-empty spans that are apart, sorted by their starts, end before the later ones begin. -/
theorem ascending_of_apart {span : α → Span} {list : List α}
    (nonempty : ∀ a ∈ list, 0 < (span a).size)
    (apart : list.Pairwise fun a b => Span.Apart (span a) (span b)) :
    (sortByKey (fun a => (span a).start) list).Pairwise fun a b =>
      (span a).stop ≤ (span b).start := by
  have ordered := sorted (fun a => (span a).start) list
  have apart' := ((perm (fun a => (span a).start) list).pairwise_iff Span.Apart.symm).mpr apart
  refine (ordered.and apart').imp_of_mem fun {a b} _ mem both => ?_
  obtain ⟨le, before | behind⟩ := both
  · exact before
  · have pos := nonempty b (mem_sortByKey.mp mem)
    simp only [Span.stop] at behind
    omega

end UnstableSort

/-! ### Pairs -/

/-- The order of pairs, by the first part and then by the second. -/
def PairLe (a b : Nat × Nat) : Prop := a.1 < b.1 ∨ a.1 = b.1 ∧ a.2 ≤ b.2

instance : DecidableRel PairLe := fun _ _ => inferInstanceAs (Decidable (_ ∨ _))

/-- A sort of pairs. Pairs of one place in the order are equal, so there is no other result. -/
def sortPairs (list : List (Nat × Nat)) : List (Nat × Nat) := list.insertionSort PairLe

theorem perm_sortPairs (list : List (Nat × Nat)) : (sortPairs list).Perm list :=
  List.perm_insertionSort PairLe list

theorem sorted_sortPairs (list : List (Nat × Nat)) : (sortPairs list).Pairwise PairLe := by
  have : Std.Total PairLe := ⟨fun a b => by simp only [PairLe]; omega⟩
  have : IsTrans _ PairLe := ⟨fun a b c => by simp only [PairLe]; omega⟩
  exact List.pairwise_insertionSort PairLe list

/-! ### Searching -/

/-- `list[list.partition_point(p) - 1]`, if there is one, of a list that `p` splits in two: the
last element of its front. -/
def lastOfFront {α : Type} (p : α → Bool) (list : List α) : Option α := (list.takeWhile p).getLast?

theorem lastOfFront_eq_some {α : Type} {p : α → Bool} {list : List α} {a : α}
    (found : lastOfFront p list = some a) : a ∈ list ∧ p a = true := by
  have mem := List.mem_of_getLast? found
  exact ⟨(List.takeWhile_sublist p).mem mem, List.mem_takeWhile_imp mem⟩

theorem lastOfFront_of_split {α : Type} {p : α → Bool} {front rest : List α} {a : α}
    (passed : ∀ b ∈ front, p b = true) (hit : p a = true) (past : ∀ b ∈ rest, p b = false) :
    lastOfFront p (front ++ a :: rest) = some a := by
  have none : rest.takeWhile p = [] := by
    cases rest with
    | nil => rfl
    | cons b rest => rw [List.takeWhile_cons_of_neg (by simp [past b List.mem_cons_self])]
  rw [lastOfFront, List.takeWhile_append_of_pos passed, List.takeWhile_cons_of_pos hit, none,
    List.getLast?_append_cons, List.getLast?_singleton]

/-- Among ascending spans, the one that an address lies in is the last that begins by then. -/
theorem lastOfFront_of_ascending {α : Type} {span : α → Span} {list : List α} {a : α}
    {address : Nat} (ascending : list.Pairwise fun a b => (span a).stop ≤ (span b).start)
    (mem : a ∈ list) (inside : address ∈ (span a).bytes) :
    lastOfFront (fun b => (span b).start ≤ address) list = some a := by
  rw [Span.mem_bytes] at inside
  obtain ⟨front, rest, rfl⟩ := List.append_of_mem mem
  obtain ⟨-, behind, before⟩ := List.pairwise_append.mp ascending
  apply lastOfFront_of_split
  · intro b b_mem
    have le := before b b_mem a List.mem_cons_self
    simp only [Span.stop] at le
    exact decide_eq_true (by omega)
  · exact decide_eq_true inside.1
  · intro b b_mem
    have le := (List.pairwise_cons.mp behind).1 b b_mem
    exact decide_eq_false (by omega)
