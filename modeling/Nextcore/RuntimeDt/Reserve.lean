import Nextcore.RuntimeDt.Cover

/-!
The copy of a prepared tree into guest memory.

`write_reserved` checks the reservation against the memory and the tree against the reservation,
and then copies once. Its checks read the memory's length only (`reservedRange_eq_ok`), so that a
call which returns an error has not written (`materializeInto_atomic`).
-/

namespace Nextcore.RuntimeDt

open Checked Checked.Outcome Checked.Exec

structure RamExtent where
  base : Nat
  size : Nat
  deriving DecidableEq, Repr

structure DeclaredReservation where
  address : Nat
  capacity : Nat
  deriving DecidableEq, Repr

def RamExtent.fromBacking (base : Nat) (bytes : Bytes) : Result RamExtent := do
  let size ← tryWord bytes.length .arithmeticOverflow
  rejectIf (size = 0) .invalidRam
  let _ ← ofOption .arithmeticOverflow (checkedAdd base size)
  pure ⟨base, size⟩

/-- `RamExtent::end`. -/
def RamExtent.stop (self : RamExtent) : Result Nat := add self.base self.size

namespace MaterializedTree

/-- The checks of `write_reserved`, and the range that the tree is copied to. -/
def reservedRange (tree : MaterializedTree) (ram : Bytes) (base : Nat)
    (reservation : DeclaredReservation) : Result (Nat × Nat) := do
  let observed ← RamExtent.fromBacking base ram
  let stop ← ofOption .arithmeticOverflow (checkedAdd reservation.address reservation.capacity)
  rejectIf (reservation.capacity = 0 ∨ reservation.address % 4 ≠ 0 ∨
    reservation.address < observed.base) .invalidReservation
  let observedStop ← observed.stop
  rejectIf (stop > observedStop) .invalidReservation
  rejectIf (tree.bytes.length > reservation.capacity) .destinationCapacity
  let distance ← sub reservation.address base
  let offset ← tryWord distance .arithmeticOverflow
  let outputEnd ← ofOption .arithmeticOverflow (checkedAdd offset tree.bytes.length)
  rejectIf (outputEnd > ram.length) .destinationCapacity
  pure (offset, outputEnd)

def writeReserved (tree : MaterializedTree) (base : Nat) (reservation : DeclaredReservation) :
    Exec Bytes Error Unit := do
  let (offset, outputEnd) ← look fun ram => tree.reservedRange ram base reservation
  update fun ram => copyFrom ram offset outputEnd tree.bytes

end MaterializedTree

def materializeInto [Sha256] (source : Bytes) (provided : List ProvidedValue)
    (maximumOutput base : Nat) (reservation : DeclaredReservation) : Exec Bytes Error Nat := do
  let tree ← lift (prepare source provided maximumOutput)
  tree.writeReserved base reservation
  pure tree.bytes.length

/-! ### The checks -/

/-- A reservation that lies in the memory and holds so many bytes. -/
structure Reserved (ram : Bytes) (base : Nat) (reservation : DeclaredReservation) (size : Nat) :
    Prop where
  some : 0 < reservation.capacity
  aligned : reservation.address % 4 = 0
  above : base ≤ reservation.address
  below : reservation.address + reservation.capacity ≤ base + ram.length
  word : base + ram.length < 2 ^ 64
  fits : size ≤ reservation.capacity

section Checks

variable {tree : MaterializedTree} {ram : Bytes} {base : Nat} {reservation : DeclaredReservation}

/-- An extent is that of the memory, and its end is an address. -/
theorem fromBacking_ends (base : Nat) (bytes : Bytes) :
    Ends (fun extent => extent = ⟨base, bytes.length⟩ ∧ base + bytes.length < 2 ^ 64)
      (fun _ => True) (RamExtent.fromBacking base bytes) := by
  refine (ends_tryWord fun _ => trivial).bind ?_
  rintro size ⟨_, rfl⟩
  apply (ends_rejectIf fun _ => trivial).bind
  intro _ _
  apply (ends_ofOption fun _ => trivial).bind
  intro stop found
  exact ⟨rfl, (checkedAdd_eq_some.mp found).1⟩

/-- The checks end without a panic, and pass for a reservation that holds the tree only. -/
theorem reservedRange_ends (tree : MaterializedTree) (ram : Bytes) (base : Nat)
    (reservation : DeclaredReservation) :
    Ends (fun range => range = (reservation.address - base,
        reservation.address - base + tree.bytes.length) ∧
        Reserved ram base reservation tree.bytes.length) (fun _ => True)
      (tree.reservedRange ram base reservation) := by
  refine (fromBacking_ends base ram).bind ?_
  rintro _ ⟨rfl, word⟩
  apply (ends_ofOption fun _ => trivial).bind
  intro stop found
  obtain ⟨_, rfl⟩ := checkedAdd_eq_some.mp found
  apply (ends_rejectIf fun _ => trivial).bind
  intro _ declared
  simp only [not_or, not_not, Nat.not_lt] at declared
  obtain ⟨some, aligned, above⟩ := declared
  -- The end of the extent was computed before, with a check.
  apply Ends.after_ok (add_of_lt word)
  apply (ends_rejectIf fun _ => trivial).bind
  intro _ below
  apply (ends_rejectIf fun _ => trivial).bind
  intro _ fits
  have reserved : Reserved ram base reservation tree.bytes.length :=
    ⟨Nat.pos_of_ne_zero some, aligned, above, Nat.not_lt.mp below, word, Nat.not_lt.mp fits⟩
  apply Ends.after_ok (sub_of_le above)
  refine (ends_tryWord fun _ => trivial).bind ?_
  rintro offset ⟨_, rfl⟩
  apply (ends_ofOption fun _ => trivial).bind
  intro outputEnd ends
  obtain ⟨_, rfl⟩ := checkedAdd_eq_some.mp ends
  apply (ends_rejectIf fun _ => trivial).bind
  intro _ _
  exact ⟨rfl, reserved⟩

end Checks

/-! ### The copy -/

/-- What a call that succeeds has done to the memory. -/
structure Placed (tree : MaterializedTree) (base : Nat) (reservation : DeclaredReservation)
    (ram ram' : Bytes) : Prop where
  reserved : Reserved ram base reservation tree.bytes.length
  patched : Patched ram ram' (reservation.address - base) tree.bytes

theorem writeReserved_runs (tree : MaterializedTree) (ram : Bytes) (base : Nat)
    (reservation : DeclaredReservation) :
    Runs (tree.writeReserved base reservation) ram
      (fun _ ram' => Placed tree base reservation ram ram') (fun ram' => ram' = ram) := by
  have checks : Runs (look fun ram => tree.reservedRange ram base reservation) ram
      (fun range ram' => ram' = ram ∧ range = (reservation.address - base,
        reservation.address - base + tree.bytes.length) ∧
        Reserved ram base reservation tree.bytes.length) (fun ram' => ram' = ram) :=
    runs_look ((reservedRange_ends tree ram base reservation).mono
      (fun _ known => ⟨rfl, known⟩) fun _ _ => rfl)
  apply checks.bind
  rintro _ ram' ⟨rfl, rfl, reserved⟩
  have above := reserved.above
  have below := reserved.below
  have fits := reserved.fits
  have room : reservation.address - base + tree.bytes.length ≤ ram'.length := by omega
  apply runs_update
  rw [copyFrom_of_le room]
  exact ⟨reserved, patched_overlay room⟩

section Calls

variable [Sha256]

/-- A call that returns an error has left the memory alone, and one that succeeds has put the
prepared bytes into the reservation and nothing else anywhere. No call panics. -/
theorem materializeInto_atomic (source : Bytes) (provided : List ProvidedValue)
    (maximumOutput : Nat) (ram : Bytes) (base : Nat) (reservation : DeclaredReservation) :
    ((materializeInto source provided maximumOutput base reservation).on ram).1 ≠ .panic ∧
    (∀ error, ((materializeInto source provided maximumOutput base reservation).on ram).1 =
        .err error →
      ((materializeInto source provided maximumOutput base reservation).on ram).2 = ram) ∧
    ∀ n, ((materializeInto source provided maximumOutput base reservation).on ram).1 = .ok n →
      ∃ tree, prepare source provided maximumOutput = .ok tree ∧ n = tree.bytes.length ∧
        Placed tree base reservation ram
          ((materializeInto source provided maximumOutput base reservation).on ram).2 := by
  have runs : Runs (materializeInto source provided maximumOutput base reservation) ram
      (fun n ram' => ∃ tree, prepare source provided maximumOutput = .ok tree ∧
        n = tree.bytes.length ∧ Placed tree base reservation ram ram')
      (fun ram' => ram' = ram) := by
    refine Runs.lift_bind (prepare_ne_panic source provided maximumOutput) rfl ?_
    intro tree prepared
    apply (writeReserved_runs tree ram base reservation).bind
    intro _ ram' placed
    exact ⟨tree, prepared, rfl, placed⟩
  exact ⟨runs.ne_panic, fun _ failed => runs.of_err failed, fun _ done => runs.of_ok done⟩

end Calls

end Nextcore.RuntimeDt
