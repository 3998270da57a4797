import Nextcore.Lib.Span
import Mathlib.Order.Interval.Set.Nat
import Mathlib.Data.Set.Card

/-!
How many places a list of spans covers.

Spans that are apart cover as many places as their sizes add up to (`ncard_covered`). For spans in
the order of their starts, which may overlap or nest, a running reach counts each place once
(`tally_eq_ncard`).
-/

namespace Span

/-- The places that some span covers. -/
def covered (spans : List Span) : Set Nat := {p | ∃ s ∈ spans, p ∈ s.bytes}

section Covered

variable {s : Span} {spans : List Span}

theorem mem_covered {p : Nat} : p ∈ covered spans ↔ ∃ s ∈ spans, p ∈ s.bytes := Iff.rfl

theorem covered_nil : covered [] = ∅ := by
  simp [covered]

theorem covered_cons : covered (s :: spans) = s.bytes ∪ covered spans := by
  ext p
  simp only [mem_covered, List.exists_mem_cons_iff, Set.mem_union]

theorem covered_append {others : List Span} :
    covered (spans ++ others) = covered spans ∪ covered others := by
  ext p
  simp only [mem_covered, List.mem_append, or_and_right, exists_or, Set.mem_union]

theorem finite_bytes (s : Span) : s.bytes.Finite := Set.finite_Ico _ _

theorem finite_covered (spans : List Span) : (covered spans).Finite := by
  induction spans with
  | nil =>
      rw [covered_nil]
      exact Set.finite_empty
  | cons s rest ih =>
      rw [covered_cons]
      exact (finite_bytes s).union ih

theorem ncard_bytes (s : Span) : s.bytes.ncard = s.size := by
  rw [bytes, Set.ncard_Ico_nat, stop, Nat.add_sub_cancel_left]

/-- Spans that are apart cover what their sizes add up to. -/
theorem ncard_covered (apart : spans.Pairwise Apart) :
    (covered spans).ncard = (spans.map size).sum := by
  induction spans with
  | nil => rw [covered_nil, Set.ncard_empty, List.map_nil, List.sum_nil]
  | cons s rest ih =>
      obtain ⟨first, others⟩ := List.pairwise_cons.mp apart
      have disjoint : Disjoint s.bytes (covered rest) := by
        rw [Set.disjoint_left]
        rintro p mem ⟨r, r_mem, mem'⟩
        exact (first r r_mem).not_mem mem mem'
      rw [covered_cons, Set.ncard_union_eq disjoint (finite_bytes s) (finite_covered rest),
        ncard_bytes, ih others, List.map_cons, List.sum_cons]

end Covered

/-! ### A running count -/

/-- What has been counted, and how far the spans have reached. -/
structure Tally where
  counted : Nat
  reach : Nat
  deriving DecidableEq, Repr

/-- The next span counts from the reach on. -/
def Tally.next (tally : Tally) (s : Span) : Tally :=
  ⟨tally.counted + (s.stop - max tally.reach s.start), max tally.reach s.stop⟩

/-- The count of a list is exact, and one of its spans is the one that reaches furthest. -/
structure Tally.Exact (tally : Tally) (spans : List Span) : Prop where
  counted : tally.counted = (covered spans).ncard
  most : ∀ s ∈ spans, s.stop ≤ tally.reach
  reached : tally.reach = 0 ∨ ∃ s ∈ spans, s.stop = tally.reach

theorem Tally.exact_nil : Tally.Exact ⟨0, 0⟩ [] where
  counted := by rw [covered_nil, Set.ncard_empty]
  most := by
    intro s mem
    cases mem
  reached := .inl rfl

/-- What lies before the reach has been counted, as no span met starts later than the next. -/
theorem Tally.Exact.next {tally : Tally} {spans : List Span} {s : Span}
    (tallied : tally.Exact spans) (sorted : ∀ a ∈ spans, a.start ≤ s.start) :
    (tally.next s).Exact (spans ++ [s]) := by
  have fresh : covered (spans ++ [s]) =
      covered spans ∪ Set.Ico (max tally.reach s.start) s.stop := by
    ext p
    rw [covered_append, covered_cons, covered_nil, Set.union_empty, Set.mem_union, Set.mem_union]
    constructor
    · rintro (before | now)
      · exact .inl before
      · rcases Nat.lt_or_ge p tally.reach with counted | beyond
        · rcases tallied.reached with none | ⟨a, mem, far⟩
          · omega
          · exact .inl ⟨a, mem, (sorted a mem).trans now.1, far.symm ▸ counted⟩
        · exact .inr ⟨Nat.max_le.mpr ⟨beyond, now.1⟩, now.2⟩
    · rintro (before | now)
      · exact .inl before
      · exact .inr ⟨(Nat.le_max_right _ _).trans now.1, now.2⟩
  have disjoint : Disjoint (covered spans) (Set.Ico (max tally.reach s.start) s.stop) := by
    rw [Set.disjoint_left]
    rintro p ⟨a, mem, inside⟩ later
    have below := Nat.lt_of_lt_of_le inside.2 (tallied.most a mem)
    exact Nat.not_lt.mpr ((Nat.le_max_left _ _).trans later.1) below
  constructor
  · rw [fresh, Set.ncard_union_eq disjoint (finite_covered spans) (Set.finite_Ico _ _),
      Set.ncard_Ico_nat, ← tallied.counted]
    rfl
  · intro a mem
    rcases List.mem_append.mp mem with before | now
    · exact (tallied.most a before).trans (Nat.le_max_left _ _)
    · rw [List.mem_singleton.mp now]
      exact Nat.le_max_right _ _
  · rcases Nat.le_total s.stop tally.reach with covered | further
    · rw [Tally.next, Nat.max_eq_left covered]
      rcases tallied.reached with none | ⟨a, mem, far⟩
      · exact .inl none
      · exact .inr ⟨a, List.mem_append_left _ mem, far⟩
    · rw [Tally.next, Nat.max_eq_right further]
      exact .inr ⟨s, List.mem_append_right _ (List.mem_singleton.mpr rfl), rfl⟩

theorem Tally.Exact.foldl {tally : Tally} {met spans : List Span} (tallied : tally.Exact met)
    (sorted : (met ++ spans).Pairwise fun a b => a.start ≤ b.start) :
    (spans.foldl Tally.next tally).Exact (met ++ spans) := by
  induction spans generalizing tally met with
  | nil =>
      rw [List.append_nil]
      exact tallied
  | cons s rest ih =>
      have before : ∀ a ∈ met, a.start ≤ s.start := by
        intro a mem
        exact (List.pairwise_append.mp sorted).2.2 a mem s List.mem_cons_self
      rw [List.append_cons] at sorted ⊢
      exact ih (tallied.next before) sorted

/-- For spans in the order of their starts, the running count is the number of places covered. -/
theorem tally_eq_ncard {spans : List Span}
    (sorted : spans.Pairwise fun a b => a.start ≤ b.start) :
    (spans.foldl Tally.next ⟨0, 0⟩).counted = (covered spans).ncard :=
  (Tally.exact_nil.foldl sorted).counted

end Span
