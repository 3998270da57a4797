import Mathlib.Data.List.Basic

/-!
Memory behind an address translation.

A memory is a partial function from addresses to cells. `Stored` is that it has the cells of a
list from an address on, which is what a load returns (`stored_iff_load`). A translation that
takes a range of addresses to another, in order, shows there what the memory has behind it
(`Maps.stored`).
-/

namespace Checked

section

variable {α : Type*} {memory memory' : Nat → Option α} {cells : List α}
  {translate : Nat → Option Nat} {start virtual physical size : Nat}

/-- The memory has the cells, in order, from an address on. -/
def Stored (memory : Nat → Option α) (start : Nat) (cells : List α) : Prop :=
  ∀ k < cells.length, memory (start + k) = cells[k]?

/-- The next `count` cells from an address on, if the memory has them all. -/
def load (memory : Nat → Option α) : (start count : Nat) → Option (List α)
  | _, 0 => some []
  | start, count + 1 => do
    let cell ← memory start
    let rest ← load memory (start + 1) count
    pure (cell :: rest)

/-- The translation takes a range of addresses to another one, in order. -/
def Maps (translate : Nat → Option Nat) (virtual physical size : Nat) : Prop :=
  ∀ k < size, translate (virtual + k) = some (physical + k)

/-- The memory as it is seen in front of a translation. -/
def through (translate : Nat → Option Nat) (memory : Nat → Option α) (address : Nat) : Option α :=
  (translate address).bind memory

/-- A list of cells, as a memory that starts at a base address. -/
def based (base : Nat) (cells : List α) (address : Nat) : Option α :=
  if address < base then none else cells[address - base]?

@[simp] theorem stored_nil : Stored memory start [] :=
  fun _ below => absurd below (Nat.not_lt_zero _)

@[simp] theorem stored_cons {cell : α} :
    Stored memory start (cell :: cells) ↔
      memory start = some cell ∧ Stored memory (start + 1) cells := by
  constructor
  · intro stored
    refine ⟨stored 0 (Nat.succ_pos _), fun k below => ?_⟩
    rw [Nat.add_right_comm]
    exact stored (k + 1) (Nat.succ_lt_succ below)
  · rintro ⟨first, rest⟩ k below
    cases k with
    | zero => exact first
    | succ k =>
        have next := rest k (Nat.lt_of_succ_lt_succ below)
        rwa [Nat.add_right_comm] at next

/-- What is stored is what a load returns. -/
theorem stored_iff_load : Stored memory start cells ↔
    load memory start cells.length = some cells := by
  induction cells generalizing start with
  | nil => simp [load]
  | cons cell rest ih =>
      rw [stored_cons, ih, List.length_cons, load]
      cases memory start with
      | none => simp
      | some first =>
          cases load memory (start + 1) rest.length <;> simp

/-- Cells that are a part of those that are stored are stored at their place. -/
theorem Stored.sub (stored : Stored memory start cells) {part : List α} {skipped : Nat}
    (inside : skipped + part.length ≤ cells.length)
    (same : ∀ k < part.length, cells[skipped + k]? = part[k]?) :
    Stored memory (start + skipped) part := by
  intro k below
  rw [Nat.add_assoc, stored (skipped + k) (by omega), same k below]

theorem Stored.part (stored : Stored memory start cells) (skipped count : Nat) :
    Stored memory (start + skipped) ((cells.drop skipped).take count) := by
  intro k below
  rw [List.length_take, List.length_drop] at below
  rw [List.getElem?_take_of_lt (by omega), List.getElem?_drop, Nat.add_assoc]
  exact stored (skipped + k) (by omega)

/-- Only the addresses of the range matter. -/
theorem Stored.congr (stored : Stored memory start cells)
    (agree : ∀ a, start ≤ a → a < start + cells.length → memory' a = memory a) :
    Stored memory' start cells := by
  intro k below
  rw [agree _ (Nat.le_add_right _ _) (by omega)]
  exact stored k below

theorem Maps.part (maps : Maps translate virtual physical size) {skipped count : Nat}
    (inside : skipped + count ≤ size) :
    Maps translate (virtual + skipped) (physical + skipped) count := by
  intro k below
  rw [Nat.add_assoc, Nat.add_assoc]
  exact maps (skipped + k) (by omega)

/-- What is stored behind a mapped range is seen in front of it. -/
theorem Maps.stored (maps : Maps translate virtual physical size)
    (stored : Stored memory physical cells) (inside : cells.length ≤ size) :
    Stored (through translate memory) virtual cells := by
  intro k below
  rw [through, maps k (by omega), Option.bind_some]
  exact stored k below

theorem based_add (base : Nat) (cells : List α) (k : Nat) :
    based base cells (base + k) = cells[k]? := by
  rw [based, if_neg (by omega), Nat.add_sub_cancel_left]

/-- A list stores its parts at their places. -/
theorem stored_based (base : Nat) (cells : List α) (skipped count : Nat) :
    Stored (based base cells) (base + skipped) ((cells.drop skipped).take count) := by
  have whole : Stored (based base cells) base cells := fun k _ => based_add base cells k
  exact whole.part skipped count

end

end Checked
