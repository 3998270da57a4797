import Nextcore.Lib.Outcome

/-!
What loops leave behind.

`InTurn` is the output of a loop over a list: that of each round, one behind the other. A fold
over an `Emits` step puts it behind what was there (`emits_foldlM`). `Walk` is the way along a
chain of links: the places from a start on, each a link further, up to one without a link.
-/

namespace Checked

/-- The outputs of the elements, one behind the other. -/
inductive InTurn {α β : Type} (P : α → List β → Prop) : List α → List β → Prop where
  | nil : InTurn P [] []
  | cons {a : α} {rest : List α} {out out' : List β} :
      P a out → InTurn P rest out' → InTurn P (a :: rest) (out ++ out')

namespace InTurn

variable {α β : Type} {P Q : α → List β → Prop}

theorem imp {list : List α} {out : List β} (turns : InTurn P list out)
    (weaken : ∀ a ∈ list, ∀ part, P a part → Q a part) : InTurn Q list out := by
  induction turns with
  | nil => exact .nil
  | cons first _ ih =>
      obtain ⟨head, tail⟩ := List.forall_mem_cons.mp weaken
      exact .cons (head _ first) (ih tail)

/-- Every part of the output is the output of an element. -/
theorem exists_of_mem {list : List α} {out : List β} (turns : InTurn P list out) {b : β}
    (mem : b ∈ out) : ∃ a ∈ list, ∃ part, P a part ∧ b ∈ part := by
  induction turns with
  | nil => cases mem
  | cons first _ ih =>
      rcases List.mem_append.mp mem with now | later
      · exact ⟨_, List.mem_cons_self, _, first, now⟩
      · obtain ⟨a, a_mem, part, known, inside⟩ := ih later
        exact ⟨a, List.mem_cons_of_mem _ a_mem, part, known, inside⟩

/-- One output for each element is a list of outputs. -/
theorem forall₂ {R : α → β → Prop} {list : List α} {out : List β}
    (turns : InTurn (fun a part => ∃ b, part = [b] ∧ R a b) list out) :
    List.Forall₂ R list out := by
  induction turns with
  | nil => exact .nil
  | cons first _ ih =>
      obtain ⟨b, rfl, known⟩ := first
      exact .cons known ih

end InTurn

/-! ### Links -/

/-- The way from a place along its links, inside the bound, up to a place without one. -/
inductive Walk (next : Nat → Nat) (bound : Nat) : Nat → List Nat → Prop where
  | last {o : Nat} : o < bound → next o = 0 → Walk next bound o [o]
  | step {o : Nat} {rest : List Nat} : o < bound → next o ≠ 0 → Walk next bound (o + next o) rest →
      Walk next bound o (o :: rest)

end Checked
