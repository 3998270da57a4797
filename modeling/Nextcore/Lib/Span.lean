import Mathlib.Order.Bounds.Basic
import Mathlib.Order.CompletePartialOrder
import Mathlib.Order.Interval.Set.Basic
import Mathlib.Data.Set.Lattice
import Mathlib.Data.List.Pairwise

/-!
Half-open ranges of addresses or offsets.

A `Span` is a start and a size; `Span.bytes` is the set of places it covers.
`Apart` is the arithmetic test that code makes for two ranges; on non-empty spans
it is disjointness of the sets (`apart_iff_disjoint`). A list whose neighbours do
not run into each other is pairwise apart (`pairwise_apart_of_isChain`), which is
why checking a sorted list at its neighbours is enough. `Extent` is the least range that
covers a list of them.
-/

/-- The range `[start, start + size)`. -/
structure Span where
  start : Nat
  size : Nat
  deriving DecidableEq, Repr

namespace Span

/-- One past the last place. -/
def stop (a : Span) : Nat := a.start + a.size

/-- The places covered. -/
def bytes (a : Span) : Set Nat := Set.Ico a.start a.stop

/-- One ends before the other begins. -/
def Apart (a b : Span) : Prop := a.stop ≤ b.start ∨ b.stop ≤ a.start

/-- `a` lies inside `b`. -/
def Within (a b : Span) : Prop := b.start ≤ a.start ∧ a.stop ≤ b.stop

instance (a b : Span) : Decidable (Apart a b) := by unfold Apart; infer_instance
instance (a b : Span) : Decidable (Within a b) := by unfold Within; infer_instance

instance (a : Span) (p : Nat) : Decidable (p ∈ a.bytes) :=
  inferInstanceAs (Decidable (a.start ≤ p ∧ p < a.stop))

@[simp] theorem stop_mk (start size : Nat) : (Span.mk start size).stop = start + size := rfl

@[simp] theorem mem_bytes {a : Span} {p : Nat} : p ∈ a.bytes ↔ a.start ≤ p ∧ p < a.stop :=
  Iff.rfl

theorem Apart.symm {a b : Span} (h : Apart a b) : Apart b a := Or.symm h

instance : Std.Symm Apart := ⟨fun _ _ => Apart.symm⟩

/-- Spans with a common place are not apart. -/
theorem Apart.not_mem {a b : Span} (h : Apart a b) {p : Nat} (mem : p ∈ a.bytes) :
    p ∉ b.bytes := by
  intro mem'
  rcases h with before | after
  · exact absurd (mem'.1) (by have := mem.2; omega)
  · exact absurd (mem.1) (by have := mem'.2; omega)

/-- For spans that cover something, apart means disjoint. -/
theorem apart_iff_disjoint {a b : Span} (ha : 0 < a.size) (hb : 0 < b.size) :
    Apart a b ↔ Disjoint a.bytes b.bytes := by
  constructor
  · intro h
    exact Set.disjoint_left.mpr fun p mem => h.not_mem mem
  · intro disjoint
    by_contra close
    simp only [Apart, stop, not_or, Nat.not_le] at close
    -- The later of the two starts is covered by both.
    have in_a : max a.start b.start ∈ a.bytes :=
      ⟨Nat.le_max_left _ _, by simp only [stop]; omega⟩
    have in_b : max a.start b.start ∈ b.bytes :=
      ⟨Nat.le_max_right _ _, by simp only [stop]; omega⟩
    exact Set.disjoint_left.mp disjoint in_a in_b

theorem Within.mem {a b : Span} (h : Within a b) {p : Nat} (mem : p ∈ a.bytes) : p ∈ b.bytes :=
  ⟨h.1.trans mem.1, lt_of_lt_of_le mem.2 h.2⟩

theorem Within.trans {a b c : Span} (h : Within a b) (h' : Within b c) : Within a c :=
  ⟨h'.1.trans h.1, h.2.trans h'.2⟩

/-- Neighbours that do not run into each other make the whole list pairwise apart. -/
theorem pairwise_apart_of_isChain {spans : List Span}
    (chain : List.IsChain (fun a b : Span => a.stop ≤ b.start) spans) :
    spans.Pairwise Apart := by
  have : Trans (fun a b : Span => a.stop ≤ b.start) (fun a b : Span => a.stop ≤ b.start)
      (fun a b : Span => a.stop ≤ b.start) :=
    ⟨fun {a b c} h h' => h.trans ((Nat.le_add_right b.start b.size).trans h')⟩
  exact (List.isChain_iff_pairwise.mp chain).imp Or.inl

/-- In a pairwise apart family, a place belongs to one member only. -/
theorem eq_of_mem_of_mem {α : Type} {list : List α} {span : α → Span}
    (apart : list.Pairwise fun a b => Apart (span a) (span b)) {a b : α} (ha : a ∈ list)
    (hb : b ∈ list) {p : Nat} (mem : p ∈ (span a).bytes) (mem' : p ∈ (span b).bytes) : a = b := by
  have : Std.Symm fun a b => Apart (span a) (span b) := ⟨fun _ _ => Apart.symm⟩
  by_contra ne
  exact (apart.forall ha hb ne).not_mem mem mem'

/-! ### The extent of a list -/

/-- The lowest start and the highest stop. -/
structure Extent (spans : List Span) (first last : Nat) : Prop where
  first : IsLeast {p | ∃ a ∈ spans, a.start = p} first
  last : IsGreatest {p | ∃ a ∈ spans, a.stop = p} last

section Extent

variable {spans : List Span} {first last : Nat}

theorem Extent.le_start (extent : Extent spans first last) {a : Span} (mem : a ∈ spans) :
    first ≤ a.start :=
  extent.first.2 ⟨a, mem, rfl⟩

theorem Extent.stop_le (extent : Extent spans first last) {a : Span} (mem : a ∈ spans) :
    a.stop ≤ last :=
  extent.last.2 ⟨a, mem, rfl⟩

theorem Extent.first_le_last (extent : Extent spans first last) : first ≤ last := by
  obtain ⟨a, mem, rfl⟩ := extent.first.1
  exact (Nat.le_add_right a.start a.size).trans (extent.stop_le mem)

/-- What covers every span covers the extent. -/
theorem Extent.le_of_covers (extent : Extent spans first last) {low high : Nat}
    (covers : ∀ a ∈ spans, low ≤ a.start ∧ a.stop ≤ high) : low ≤ first ∧ last ≤ high := by
  obtain ⟨a, mem, rfl⟩ := extent.first.1
  obtain ⟨b, mem', rfl⟩ := extent.last.1
  exact ⟨(covers a mem).1, (covers b mem').2⟩

theorem isLeast_foldl_min {list : List Nat} {a bound : Nat} (mem : a ∈ list) (below : a ≤ bound) :
    IsLeast {p | p ∈ list} (list.foldl min bound) := by
  obtain ⟨least, found⟩ := Option.isSome_iff_exists.mp (List.isSome_min?_of_mem mem)
  obtain ⟨least_mem, lower⟩ := List.min?_eq_some_iff.mp found
  rw [List.foldl_min, found, Option.getD_some, Nat.min_eq_right ((lower a mem).trans below)]
  exact ⟨least_mem, lower⟩

theorem isGreatest_foldl_max {list : List Nat} {a bound : Nat} (mem : a ∈ list)
    (above : bound ≤ a) : IsGreatest {p | p ∈ list} (list.foldl max bound) := by
  obtain ⟨greatest, found⟩ := Option.isSome_iff_exists.mp (List.isSome_max?_of_mem mem)
  obtain ⟨greatest_mem, upper⟩ := List.max?_eq_some_iff.mp found
  rw [List.foldl_max, found, Option.getD_some, Nat.max_eq_right (above.trans (upper a mem))]
  exact ⟨greatest_mem, upper⟩

/-- A loop that takes the minimum of the starts and the maximum of the stops finds the extent. -/
theorem extent_of_foldl {a : Span} (mem : a ∈ spans) {low high : Nat} (below : a.start ≤ low)
    (above : high ≤ a.stop) :
    Extent spans ((spans.map start).foldl min low) ((spans.map stop).foldl max high) := by
  have least := isLeast_foldl_min (List.mem_map_of_mem mem) below
  have greatest := isGreatest_foldl_max (List.mem_map_of_mem mem) above
  simp only [List.mem_map] at least greatest
  exact ⟨least, greatest⟩

end Extent

end Span
