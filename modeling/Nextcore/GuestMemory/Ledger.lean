import Nextcore.Lib.Bytes
import Nextcore.Lib.Slots
import Nextcore.Lib.Span

/-!
The guest allocation ledger (`src/guest_memory.rs`).

A `GuestMemory` owns its backing bytes and a table of 64 reusable reservation slots.
Methods that take `&self` are functions of the ledger; methods that take `&mut self`
are `Exec` programs in the order of the source, so that what an early return leaves
behind is visible. A `usize` is 64 bits wide.

`MaterializedTree` carries only the bytes that the ledger reads; the closure given to
`with_guest_memory` is a `Loan`: it may do anything to the lent bytes except resize
them, and anything to its captured environment.
-/

namespace Nextcore

open Checked Checked.Outcome Checked.Exec

def maxReservations : Nat := 64

inductive GuestMemory.Error where
  | emptyBacking
  | arithmeticOverflow
  | identityExhausted
  | generationExhausted
  | invalidSize
  | invalidAlignment
  | unalignedAddress
  | outsideAperture
  | overlap
  | reservationLimit
  | noSpace
  | foreignOwner
  | releasedReservation
  | staleSnapshot
  | wrongPurpose
  | destinationCapacity
  deriving DecidableEq, Repr

inductive Purpose where
  | kernelImage
  | bootArguments
  | runtimeDeviceTree
  | stack
  | translationTables
  | providerData
  deriving DecidableEq, Repr

/-- Observed length in a caller-selected guest coordinate system. Its end is a word. -/
structure Extent where
  address : Nat
  bytes : Nat
  fits : address + bytes < 2 ^ 64
  deriving DecidableEq, Repr

namespace Extent

/-- `Extent::end`: the addition was checked when the extent was made. -/
def endAddress (e : Extent) : Nat := e.address + e.bytes

/-- The addresses of the extent. -/
def span (e : Extent) : Span := ⟨e.address, e.bytes⟩

/-- `address.checked_add(bytes)`, which is made before every extent. -/
def checked (address bytes : Nat) : Option Extent :=
  if h : address + bytes < 2 ^ 64 then some ⟨address, bytes, h⟩ else none

@[simp] theorem span_start (e : Extent) : e.span.start = e.address := rfl
@[simp] theorem span_stop (e : Extent) : e.span.stop = e.endAddress := rfl
@[simp] theorem span_size (e : Extent) : e.span.size = e.bytes := rfl

theorem checked_eq_some {address bytes : Nat} {e : Extent} :
    checked address bytes = some e ↔ e.address = address ∧ e.bytes = bytes := by
  unfold checked
  split
  · constructor
    · rintro ⟨rfl⟩
      exact ⟨rfl, rfl⟩
    · rintro ⟨rfl, rfl⟩
      rfl
  · constructor
    · intro h
      cases h
    · rintro ⟨rfl, rfl⟩
      exact absurd e.fits ‹_›

end Extent

/-- An opaque, process-local reference to one live reservation. -/
structure ReservationToken where
  owner : Nat
  serial : Nat
  deriving DecidableEq, Repr

structure SnapshotStamp where
  owner : Nat
  generation : Nat
  deriving DecidableEq, Repr

structure ReservationRecord where
  token : ReservationToken
  extent : Extent
  alignment : Nat
  purpose : Purpose
  deriving DecidableEq, Repr

/-- A view of the live records; a detached stamp must be revalidated before use. -/
structure AllocationSnapshot where
  aperture : Extent
  stamp : SnapshotStamp
  records : List (Option ReservationRecord)
  deriving DecidableEq, Repr

/-- The prepared device tree, of which the ledger reads the bytes. -/
structure MaterializedTree where
  bytes : Bytes
  deriving DecidableEq, Repr

/-- Prepared bytes bound to one ledger generation and destination. -/
structure PreparedDeviceTree where
  tree : MaterializedTree
  stamp : SnapshotStamp
  destination : ReservationToken
  deriving DecidableEq, Repr

inductive Backing where
  | owned (bytes : Bytes)
  | borrowed (bytes : Bytes)
  deriving DecidableEq, Repr

namespace Backing

def bytes : Backing → Bytes
  | .owned bytes => bytes
  | .borrowed bytes => bytes

/-- `bytes_mut`, and the bytes it is left with. -/
def setBytes : Backing → Bytes → Backing
  | .owned _, bytes => .owned bytes
  | .borrowed _, bytes => .borrowed bytes

@[simp] theorem bytes_setBytes (b : Backing) (bytes : Bytes) :
    (b.setBytes bytes).bytes = bytes := by
  cases b <;> rfl

end Backing

/-- Owns a fixed allocation, or an exclusive loan of one. The aperture is the whole backing
and the table never changes size. -/
structure GuestMemory where
  backing : Backing
  aperture : Extent
  owner : Nat
  generation : Nat
  reservations : List (Option ReservationRecord)
  nonempty : aperture.bytes ≠ 0
  backed : aperture.bytes = backing.bytes.length
  slots : reservations.length = maxReservations
  deriving DecidableEq

/-- `mint_owner`: the identity handed out and the counter left behind. -/
def mintOwner (counter : Nat) : Outcome GuestMemory.Error Nat × Nat :=
  match checkedAdd counter 1 with
  | some next => (.ok counter, next)
  | none => (.err .identityExhausted, counter)

def validateRequest (bytes alignment : Nat) : Outcome GuestMemory.Error Unit := do
  rejectIf (bytes = 0) .invalidSize
  rejectIf (¬ alignment.isPowerOfTwo) .invalidAlignment

def alignUp (address alignment : Nat) : Outcome GuestMemory.Error Nat := do
  let mask ← sub alignment 1
  let value ← ofOption .arithmeticOverflow (checkedAdd address mask)
  pure (andNot value mask)

namespace GuestMemory

/-! ### Writes

The assignments of the source, each with the sizes of the structure kept. -/

/-- `self.generation = generation`. -/
def setGeneration (m : GuestMemory) (generation : Nat) : GuestMemory :=
  { m with generation }

/-- `self.reservations[slot] = entry`, for a slot of the table. -/
def putReservation (m : GuestMemory) (slot : Nat) (entry : Option ReservationRecord) :
    GuestMemory :=
  { m with
    reservations := m.reservations.set slot entry
    slots := by rw [List.length_set, m.slots] }

/-- The backing bytes after a write that does not resize them. -/
def setBytes (m : GuestMemory) (bytes : Bytes) (same : bytes.length = m.backing.bytes.length) :
    GuestMemory :=
  { m with
    backing := m.backing.setBytes bytes
    backed := by rw [Backing.bytes_setBytes, same, m.backed] }

/-- The backing bytes with `src` written from `start` on. -/
def overwrite (m : GuestMemory) (start : Nat) (src : Bytes) : GuestMemory :=
  m.setBytes (overlay m.backing.bytes start src) (length_overlay ..)

/-- `self.reservations[slot] = entry`. -/
def setReservation (slot : Nat) (entry : Option ReservationRecord) (m : GuestMemory) :
    Outcome Error GuestMemory :=
  if slot < m.reservations.length then .ok (m.putReservation slot entry) else .panic

/-- `self.backing.bytes_mut()[start..stop].copy_from_slice(src)`. -/
def copyRange (range : Nat × Nat) (src : Bytes) (m : GuestMemory) : Outcome Error GuestMemory := do
  let _ ← copyFrom m.backing.bytes range.1 range.2 src
  pure (m.overwrite range.1 src)

/-! ### Construction -/

theorem length_noReservations :
    (List.replicate maxReservations (none : Option ReservationRecord)).length = maxReservations :=
  List.length_replicate

/-- `GuestMemory::new`, with the owner counter before and after. -/
def new (base : Nat) (backing : Backing) (counter : Nat) : Outcome Error GuestMemory × Nat :=
  if backing.bytes.length < 2 ^ 64 then
    if nonempty : backing.bytes.length = 0 then (.err .emptyBacking, counter)
    else if fits : base + backing.bytes.length < 2 ^ 64 then
      match mintOwner counter with
      | (.ok owner, counter) =>
          (.ok { backing, aperture := ⟨base, backing.bytes.length, fits⟩, owner, generation := 0,
                 reservations := List.replicate maxReservations none, nonempty, backed := rfl,
                 slots := length_noReservations }, counter)
      | (.err e, counter) => (.err e, counter)
      | (.panic, counter) => (.panic, counter)
    else (.err .arithmeticOverflow, counter)
  else (.err .arithmeticOverflow, counter)

def fromOwned (base : Nat) (bytes : Bytes) (counter : Nat) : Outcome Error GuestMemory × Nat :=
  new base (.owned bytes) counter

def fromBorrowed (base : Nat) (bytes : Bytes) (counter : Nat) : Outcome Error GuestMemory × Nat :=
  new base (.borrowed bytes) counter

/-! ### Queries -/

/-- The live records, in slot order. -/
def live (m : GuestMemory) : List ReservationRecord := Slots.live m.reservations

def snapshot (m : GuestMemory) : AllocationSnapshot :=
  ⟨m.aperture, ⟨m.owner, m.generation⟩, m.reservations⟩

def nextGeneration (m : GuestMemory) : Outcome Error Nat :=
  ofOption .generationExhausted (checkedAdd m.generation 1)

/-- Whether a slot holds the record of `token`. -/
def holds (token : ReservationToken) (entry : Option ReservationRecord) : Bool :=
  entry.any fun record => record.token = token

def slot (m : GuestMemory) (token : ReservationToken) : Outcome Error Nat := do
  rejectIf (token.owner ≠ m.owner) .foreignOwner
  ofOption .releasedReservation (m.reservations.findIdx? (holds token))

def record (m : GuestMemory) (token : ReservationToken) : Outcome Error ReservationRecord := do
  let slot ← m.slot token
  let entry ← expect m.reservations[slot]?
  expect entry

def validateStamp (m : GuestMemory) (stamp : SnapshotStamp) : Outcome Error Unit := do
  rejectIf (stamp.owner ≠ m.owner) .foreignOwner
  rejectIf (stamp.generation ≠ m.generation) .staleSnapshot

/-- The indices of the backing that a sub-range of a reservation stands for. -/
def range (m : GuestMemory) (record : ReservationRecord) (offset bytes : Nat) :
    Outcome Error (Nat × Nat) := do
  let bytes ← tryWord bytes .arithmeticOverflow
  let past ← ofOption .arithmeticOverflow (checkedAdd offset bytes)
  rejectIf (past > record.extent.bytes) .destinationCapacity
  let start ← ofOption .arithmeticOverflow
    ((checkedSub record.extent.address m.aperture.address).bind fun relative =>
      checkedAdd relative offset)
  let stop ← ofOption .arithmeticOverflow (checkedAdd start bytes)
  rejectIf (stop > m.aperture.bytes) .outsideAperture
  let start ← tryWord start .arithmeticOverflow
  let stop ← tryWord stop .arithmeticOverflow
  pure (start, stop)

def read (m : GuestMemory) (token : ReservationToken) : Outcome Error Bytes := do
  let record ← m.record token
  let count ← tryWord record.extent.bytes .arithmeticOverflow
  let range ← m.range record 0 count
  index m.backing.bytes range.1 range.2

def dtRange (m : GuestMemory) (token : ReservationToken) (bytes : Nat) :
    Outcome Error (Nat × Nat) := do
  let record ← m.record token
  rejectIf (record.purpose ≠ .runtimeDeviceTree) .wrongPurpose
  rejectIf (record.extent.address % 4 ≠ 0) .unalignedAddress
  m.range record 0 bytes

def bindDeviceTree (m : GuestMemory) (stamp : SnapshotStamp) (destination : ReservationToken)
    (tree : MaterializedTree) : Outcome Error PreparedDeviceTree := do
  m.validateStamp stamp
  let _ ← m.dtRange destination tree.bytes.length
  pure ⟨tree, stamp, destination⟩

/-- Whether a record runs into `[start, stop)`. -/
def runsInto (start stop : Nat) (record : ReservationRecord) : Bool :=
  start < record.extent.endAddress ∧ record.extent.address < stop

/-- The greatest end of a live record that runs into `[candidate, stop)`. -/
def blockingEnd (m : GuestMemory) (candidate stop : Nat) : Option Nat :=
  ((m.live.filter (runsInto candidate stop)).map (·.extent.endAddress)).max?

/-! ### Operations -/

def reserveAt (address bytes alignment : Nat) (purpose : Purpose) :
    Exec GuestMemory Error ReservationToken := do
  look fun _ => validateRequest bytes alignment
  look fun _ => rejectIf (address % alignment ≠ 0) .unalignedAddress
  let extent ← look fun _ => ofOption .arithmeticOverflow (Extent.checked address bytes)
  look fun m => rejectIf (address < m.aperture.address ∨
    extent.endAddress > m.aperture.endAddress) .outsideAperture
  look fun m => rejectIf (m.live.any (runsInto address extent.endAddress)) .overlap
  let slot ← look fun m => ofOption .reservationLimit (m.reservations.findIdx? Option.isNone)
  let generation ← look nextGeneration
  let token ← look fun m => .ok ⟨m.owner, generation⟩
  update (setReservation slot (some ⟨token, extent, alignment, purpose⟩))
  write (setGeneration · generation)
  pure token

theorem pow_of_validateRequest {bytes alignment : Nat} {u : Unit}
    (valid : validateRequest bytes alignment = .ok u) : alignment.isPowerOfTwo := by
  simp only [validateRequest, seq_eq_ok, rejectIf_eq_ok, not_not] at valid
  exact valid.2

/-- Rounding up never goes below its argument. -/
theorem le_of_alignUp {address alignment next : Nat} (pow : alignment.isPowerOfTwo)
    (aligned : alignUp address alignment = .ok next) : address ≤ next := by
  simp only [alignUp, bind_eq_ok, sub_eq_ok, ofOption_eq_ok, checkedAdd_eq_some, pure_eq,
    ok.injEq] at aligned
  obtain ⟨mask, ⟨_, rfl⟩, value, ⟨_, rfl⟩, rfl⟩ := aligned
  rw [andNot_eq pow]
  exact le_roundUp (Nat.pos_of_isPowerOfTwo pow) address

/-- A blocking record ends after the candidate. -/
theorem lt_of_blockingEnd {m : GuestMemory} {candidate stop next : Nat}
    (blocked : m.blockingEnd candidate stop = some next) : candidate < next := by
  obtain ⟨record, mem, rfl⟩ := List.mem_map.mp (List.max?_mem blocked)
  have hit := (List.mem_filter.mp mem).2
  simp only [runsInto, decide_eq_true_eq] at hit
  exact hit.1

/-- The search of `allocate`: the candidate it settles on. It ends because a blocked
candidate is replaced by a greater one. -/
def firstFit (m : GuestMemory) (bytes : Nat) {alignment : Nat} (pow : alignment.isPowerOfTwo)
    (candidate : Nat) : Outcome Error Nat :=
  match _ : checkedAdd candidate bytes with
  | none => .err .arithmeticOverflow
  | some stop =>
    if stop > m.aperture.endAddress then .err .noSpace
    else
      match _ : m.blockingEnd candidate stop with
      | none => .ok candidate
      | some next =>
        match _ : alignUp next alignment with
        | .ok next => m.firstFit bytes pow next
        | .err e => .err e
        | .panic => .panic
termination_by 2 ^ 64 - candidate
decreasing_by
  have := (checkedAdd_eq_some.mp ‹checkedAdd candidate bytes = some _›).1
  have := lt_of_blockingEnd ‹m.blockingEnd candidate _ = some _›
  have := le_of_alignUp pow ‹alignUp _ alignment = .ok _›
  omega

/-- Lowest aligned first fit. Existing reservations are never relocated. -/
def allocate (bytes alignment : Nat) (purpose : Purpose) :
    Exec GuestMemory Error ReservationToken :=
  match valid : validateRequest bytes alignment with
  | .err e => look fun _ => .err e
  | .panic => look fun _ => .panic
  | .ok () => do
    look fun m => rejectIf (m.reservations.all Option.isSome) .reservationLimit
    let candidate ← look fun m => alignUp m.aperture.address alignment
    let candidate ← look fun m => m.firstFit bytes (pow_of_validateRequest valid) candidate
    reserveAt candidate bytes alignment purpose

/-- Invalidates the token, leaving the released bytes unchanged. -/
def release (token : ReservationToken) : Exec GuestMemory Error Unit := do
  let slot ← look (slot · token)
  let generation ← look nextGeneration
  update (setReservation slot none)
  write (setGeneration · generation)

/-- Checked copy of an independently prepared payload. -/
def copyInto (token : ReservationToken) (offset : Nat) (bytes : Bytes) :
    Exec GuestMemory Error Unit := do
  let record ← look (record · token)
  look fun _ => rejectIf (record.purpose = .runtimeDeviceTree) .wrongPurpose
  let range ← look (range · record offset bytes.length)
  let generation ← look nextGeneration
  update (copyRange range bytes)
  write (setGeneration · generation)

/-- Single checked copy of a bound tree. -/
def commitDeviceTree (prepared : PreparedDeviceTree) : Exec GuestMemory Error Unit := do
  look (validateStamp · prepared.stamp)
  let range ← look (dtRange · prepared.destination prepared.tree.bytes.length)
  let generation ← look nextGeneration
  update (copyRange range prepared.tree.bytes)
  write (setGeneration · generation)

end GuestMemory

/-- A closure lent the whole backing: from the base, the bytes and its environment to its
result, the bytes it leaves and the environment it leaves. -/
structure Loan (ω R : Type) where
  run : Nat → Bytes → ω → R × Bytes × ω
  keepsLength : ∀ base bytes env, (run base bytes env).2.1.length = bytes.length

/-- A ledger together with what the closures of its callers can reach. -/
structure Session (ω : Type) where
  ledger : GuestMemory
  environment : ω

namespace Session

variable {ω R α : Type}

/-- A ledger method, called on the ledger of a session. -/
def onLedger (x : Exec GuestMemory GuestMemory.Error α) : Exec (Session ω) GuestMemory.Error α :=
  zoom Session.ledger (fun m s => { s with ledger := m }) x

/-- The effect of running the closure of a loan. -/
def lend (loan : Loan ω R) (s : Session ω) : R × Session ω :=
  let out := loan.run s.ledger.aperture.address s.ledger.backing.bytes s.environment
  (out.1, ⟨s.ledger.setBytes out.2.1 (loan.keepsLength ..), out.2.2⟩)

/-- Grants an exclusive scoped loan, invalidating prepared snapshots first. -/
def withGuestMemory (loan : Loan ω R) : Exec (Session ω) GuestMemory.Error R := do
  let generation ← look (·.ledger.nextGeneration)
  write fun s => { s with ledger := s.ledger.setGeneration generation }
  let result ← look fun s => .ok (s.lend loan).1
  write fun s => (s.lend loan).2
  pure result

end Session

end Nextcore
