import Nextcore.Lib.Sort
import Nextcore.Lib.Trace

/-!
Sweeps over spans in the order of their starts.

Of the items it has met a sweep keeps the one that reaches furthest (`Furthest`). That one alone
tells whether any of them reaches behind a place (`Furthest.past_iff`), so a sweep answers with
one item what a comparison of all pairs would. What it reports of each item stands in turn
(`InTurn`), and the report of one item is found again by its name (`InTurn.filter_eq`).
-/

namespace Checked

section Furthest

variable {ι : Type} {reach : ι → Nat} {kind : ι → Prop} {met : List ι} {last : Option (Nat × ι)}

/-- Of the items met, the one of a kind that reaches furthest, behind how far that is. -/
def Furthest (reach : ι → Nat) (kind : ι → Prop) (met : List ι) : Option (Nat × ι) → Prop
  | none => ∀ i ∈ met, ¬ kind i
  | some (far, i) => i ∈ met ∧ kind i ∧ reach i = far ∧ ∀ j ∈ met, kind j → reach j ≤ far

theorem furthest_nil : Furthest reach kind [] none := fun _ mem => absurd mem List.not_mem_nil

/-- An item of another kind changes nothing. -/
theorem Furthest.other (furthest : Furthest reach kind met last) {i : ι} (not_kind : ¬ kind i) :
    Furthest reach kind (met ++ [i]) last := by
  cases last with
  | none =>
      intro j mem
      rcases List.mem_append.mp mem with before | now
      · exact furthest j before
      · rwa [List.mem_singleton.mp now]
  | some last =>
      obtain ⟨mem, is_kind, far, most⟩ := furthest
      refine ⟨List.mem_append_left _ mem, is_kind, far, fun j mem' is_kind' => ?_⟩
      rcases List.mem_append.mp mem' with before | now
      · exact most j before is_kind'
      · rw [List.mem_singleton.mp now] at is_kind'
        exact absurd is_kind' not_kind

/-- An item that no item of the kind reaches beyond. -/
theorem furthest_append {i : ι} (is_kind : kind i)
    (most : ∀ j ∈ met, kind j → reach j ≤ reach i) :
    Furthest reach kind (met ++ [i]) (some (reach i, i)) := by
  refine ⟨List.mem_append_right _ (List.mem_singleton.mpr rfl), is_kind, rfl, fun j mem hj => ?_⟩
  rcases List.mem_append.mp mem with before | now
  · exact most j before hj
  · rw [List.mem_singleton.mp now]

/-- An item of the kind takes the place of the one that it reaches beyond. -/
theorem Furthest.next (furthest : Furthest reach kind met last) {i : ι} (is_kind : kind i) :
    Furthest reach kind (met ++ [i])
      (if last.all (·.1 < reach i) then some (reach i, i) else last) := by
  cases last with
  | none => exact furthest_append is_kind fun j mem hj => absurd hj (furthest j mem)
  | some last =>
      obtain ⟨mem, is_kind', far, most⟩ := furthest
      rw [Option.all_some]
      by_cases beyond : last.1 < reach i
      · rw [if_pos (decide_eq_true beyond)]
        exact furthest_append is_kind fun j mem hj => (most j mem hj).trans beyond.le
      · rw [if_neg (by rwa [decide_eq_true_eq])]
        refine ⟨List.mem_append_left _ mem, is_kind', far, fun j mem hj => ?_⟩
        rcases List.mem_append.mp mem with before | now
        · exact most j before hj
        · rw [List.mem_singleton.mp now]
          exact Nat.le_of_not_lt beyond

/-- Some item of the kind reaches behind a place exactly when the furthest one does. -/
theorem Furthest.past_iff (furthest : Furthest reach kind met last) {place : Nat} :
    (∃ i ∈ met, kind i ∧ place < reach i) ↔ ∃ far ∈ last, place < far.1 := by
  cases last with
  | none => exact ⟨fun ⟨i, mem, is_kind, _⟩ => absurd is_kind (furthest i mem), by simp⟩
  | some last =>
      obtain ⟨mem, is_kind, far, most⟩ := furthest
      constructor
      · rintro ⟨i, i_mem, i_kind, past⟩
        exact ⟨last, rfl, past.trans_le (most i i_mem i_kind)⟩
      · rintro ⟨_, ⟨⟩, past⟩
        exact ⟨last.2, mem, is_kind, by rwa [far]⟩

end Furthest

/-- The reports that some test singles out are those of one item, when no other item has any. -/
theorem InTurn.filter_eq {α β : Type} {P : α → List β → Prop} {p : β → Bool} {list : List α}
    {out : List β} (turns : InTurn P list out) (nodup : list.Nodup) {a : α} (mem : a ∈ list)
    (others : ∀ b ∈ list, b ≠ a → ∀ part, P b part → part.filter p = []) :
    ∃ part, P a part ∧ out.filter p = part.filter p := by
  induction turns with
  | nil => cases mem
  | @cons first rest part out' told turns ih =>
      obtain ⟨new, nodup⟩ := List.nodup_cons.mp nodup
      obtain ⟨none_first, none_rest⟩ := List.forall_mem_cons.mp others
      rw [List.filter_append]
      rcases List.mem_cons.mp mem with rfl | later
      · refine ⟨part, told, ?_⟩
        have nothing : out'.filter p = [] := by
          refine List.filter_eq_nil_iff.mpr fun b inside => ?_
          obtain ⟨c, c_mem, part', told', inside⟩ := turns.exists_of_mem inside
          have none := none_rest c c_mem (fun same => new (same ▸ c_mem)) part' told'
          exact List.filter_eq_nil_iff.mp none b inside
        rw [nothing, List.append_nil]
      · have ne : first ≠ a := fun same => new (same ▸ later)
        rw [none_first ne part told, List.nil_append]
        exact ih nodup later none_rest

/-! ### Pairs in strict order -/

/-- The strict order of pairs, by the first part and then by the second. -/
def PairLt (a b : Nat × Nat) : Prop := a.1 < b.1 ∨ a.1 = b.1 ∧ a.2 < b.2

theorem PairLt.asymm {a b : Nat × Nat} (before : PairLt a b) : ¬ PairLt b a := by
  simp only [PairLt] at before ⊢
  omega

/-- Pairs in order without a second part twice are in order strictly. -/
theorem pairwise_lt_sortPairs {list : List (Nat × Nat)} (nodup : (list.map Prod.snd).Nodup) :
    (sortPairs list).Pairwise PairLt := by
  have distinct : ((sortPairs list).map Prod.snd).Nodup :=
    ((perm_sortPairs list).map Prod.snd).nodup_iff.mpr nodup
  refine ((sorted_sortPairs list).and (List.pairwise_map.mp distinct)).imp ?_
  rintro a b ⟨before | ⟨same, le⟩, ne⟩
  · exact .inl before
  · exact .inr ⟨same, lt_of_le_of_ne le ne⟩

/-- What comes before a pair stands in front of it. -/
theorem mem_front_iff {front rest : List (Nat × Nat)} {p q : Nat × Nat}
    (ordered : (front ++ p :: rest).Pairwise PairLt) (mem : q ∈ front ++ p :: rest) :
    q ∈ front ↔ PairLt q p := by
  obtain ⟨_, behind, before⟩ := List.pairwise_append.mp ordered
  constructor
  · intro inFront
    exact before q inFront p List.mem_cons_self
  · intro lt
    rcases List.mem_append.mp mem with inFront | later
    · exact inFront
    · rcases List.mem_cons.mp later with rfl | later
      · exact absurd lt lt.asymm
      · exact absurd lt ((List.pairwise_cons.mp behind).1 q later).asymm

end Checked
