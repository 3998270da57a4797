import Mathlib.Data.List.Basic
import Mathlib.Logic.Function.Basic

/-!
A heap of independent buffers.

Each live key has a buffer, with a label that never changes and cells that do. An operation makes
a buffer, takes one away, writes into one, or does what it likes to the cells of all
(`Op.scramble`). A buffer is moved by its own operations alone: along every run that leaves it be
otherwise, its cells are those that it had with its own writes put in, in order (`Run.cells`).
-/

namespace Buffers

variable {κ ι α : Type*}

structure Buffer (ι α : Type*) where
  label : ι
  cells : List α

/-- The buffers that are live. -/
abbrev Heap (κ ι α : Type*) := κ → Option (Buffer ι α)

/-- What is done to a heap. -/
inductive Op (κ α : Type*) where
  | create (key : κ)
  | destroy (key : κ)
  | write (key : κ) (offset : Nat) (src : List α)
  | scramble
  | look

/-- Cells with others written from `offset` on. -/
def patch (cells : List α) (offset : Nat) (src : List α) : List α :=
  cells.take offset ++ src ++ cells.drop (offset + src.length)

/-- Cells behind one write after another. -/
def patches (cells : List α) (writes : List (Nat × List α)) : List α :=
  writes.foldl (fun cells write => patch cells write.1 write.2) cells

/-- The label and the size of a buffer. -/
def Buffer.shape (b : Buffer ι α) : ι × Nat := (b.label, b.cells.length)

/-- The operations that a buffer does not outlive unchanged, its own writes aside. -/
def Op.Disturbs (key : κ) : Op κ α → Prop
  | .destroy other => other = key
  | .scramble => True
  | _ => False

theorem length_patch {cells src : List α} {offset : Nat}
    (inside : offset + src.length ≤ cells.length) :
    (patch cells offset src).length = cells.length := by
  simp only [patch, List.length_append, List.length_take, List.length_drop]
  omega

theorem ne_of_free {heap : Heap κ ι α} {key other : κ} {buffer : Buffer ι α}
    (has : heap key = some buffer) (free : heap other = none) : key ≠ other := by
  rintro rfl
  rw [free] at has
  cases has

section

variable [DecidableEq κ]

/-- The write that an operation makes to a buffer, if it makes one. -/
def Op.own (key : κ) : Op κ α → Option (Nat × List α)
  | .write other offset src => if other = key then some (offset, src) else none
  | _ => none

/-- One operation. A new buffer may have any label and any cells. -/
inductive Step (heap : Heap κ ι α) : Op κ α → Heap κ ι α → Prop where
  | create {key : κ} (free : heap key = none) (buffer : Buffer ι α) :
      Step heap (.create key) (Function.update heap key (some buffer))
  | destroy {key : κ} {buffer : Buffer ι α} (used : heap key = some buffer) :
      Step heap (.destroy key) (Function.update heap key none)
  | write {key : κ} {buffer : Buffer ι α} {offset : Nat} {src : List α}
      (used : heap key = some buffer) (inside : offset + src.length ≤ buffer.cells.length) :
      Step heap (.write key offset src)
        (Function.update heap key (some ⟨buffer.label, patch buffer.cells offset src⟩))
  | scramble {heap' : Heap κ ι α}
      (same : ∀ key, (heap' key).map Buffer.shape = (heap key).map Buffer.shape) :
      Step heap .scramble heap'
  | look : Step heap .look heap

/-- One operation after another. -/
inductive Run : Heap κ ι α → List (Op κ α) → Heap κ ι α → Prop where
  | nil {heap : Heap κ ι α} : Run heap [] heap
  | cons {heap heap' heap'' : Heap κ ι α} {op : Op κ α} {ops : List (Op κ α)}
      (first : Step heap op heap') (rest : Run heap' ops heap'') : Run heap (op :: ops) heap''

variable {heap heap' : Heap κ ι α} {op : Op κ α} {ops : List (Op κ α)} {key : κ}
  {buffer : Buffer ι α}

/-- A buffer is moved by its own operations alone. -/
theorem Step.cells (step : Step heap op heap') (has : heap key = some buffer)
    (calm : ¬ op.Disturbs key) :
    heap' key = some ⟨buffer.label, patches buffer.cells (op.own key).toList⟩ := by
  cases step with
  | create free new =>
      rw [Function.update_of_ne (ne_of_free has free)]
      exact has
  | destroy used =>
      rw [Function.update_of_ne (Ne.symm calm)]
      exact has
  | @write other old offset src used inside =>
      by_cases same : other = key
      · subst same
        rw [used] at has
        cases has
        simp [Op.own, patches]
      · rw [Function.update_of_ne (Ne.symm same), has]
        simp [Op.own, patches, same]
  | scramble same => exact absurd trivial calm
  | look => exact has

/-- Nothing changes the label or the size of a buffer while it is live. -/
theorem Step.shape (step : Step heap op heap') (has : heap key = some buffer)
    (kept : op ≠ .destroy key) : (heap' key).map Buffer.shape = some buffer.shape := by
  cases step with
  | create free new => rw [Function.update_of_ne (ne_of_free has free), has, Option.map_some]
  | @destroy other old used =>
      have ne : key ≠ other := fun same => kept (by rw [same])
      rw [Function.update_of_ne ne, has, Option.map_some]
  | @write other old offset src used inside =>
      by_cases same : key = other
      · subst same
        rw [used] at has
        cases has
        rw [Function.update_self, Option.map_some, Buffer.shape, Buffer.shape,
          length_patch inside]
      · rw [Function.update_of_ne same, has, Option.map_some]
  | scramble same => rw [same, has, Option.map_some]
  | look => rw [has, Option.map_some]

/-- Along a run that does not disturb a buffer, its cells are its own writes put in, in order. -/
theorem Run.cells (run : Run heap ops heap') (has : heap key = some buffer)
    (calm : ∀ op ∈ ops, ¬ op.Disturbs key) :
    heap' key = some ⟨buffer.label, patches buffer.cells (ops.filterMap (Op.own key))⟩ := by
  induction run generalizing buffer with
  | nil => exact has
  | @cons _ _ _ op ops first rest ih =>
      obtain ⟨here, later⟩ := List.forall_mem_cons.mp calm
      rw [ih (first.cells has here) later, List.filterMap_cons]
      cases op.own key <;> rfl

/-- A buffer keeps its label and its size along every run that does not destroy it. -/
theorem Run.shape (run : Run heap ops heap') (has : heap key = some buffer)
    (kept : ∀ op ∈ ops, op ≠ .destroy key) :
    (heap' key).map Buffer.shape = some buffer.shape := by
  induction run generalizing buffer with
  | nil => rw [has, Option.map_some]
  | cons first rest ih =>
      obtain ⟨here, later⟩ := List.forall_mem_cons.mp kept
      obtain ⟨next, found, same⟩ := Option.map_eq_some_iff.mp (first.shape has here)
      rw [ih found later, same]

end

end Buffers
