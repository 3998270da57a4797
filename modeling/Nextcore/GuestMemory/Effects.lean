import Nextcore.GuestMemory.Ledger

/-!
What the ledger operations do.

One specification for each query and each operation: what a success has checked and
which ledger it leaves, and that everything else leaves the ledger alone. The proofs
here are the only ones that look into the programs of `Nextcore.GuestMemory.Ledger`.
-/

namespace Nextcore

open Checked Checked.Outcome Checked.Exec

namespace GuestMemory

variable {m : GuestMemory}

/-! ### The small lemmas of the writes -/

section Fields

variable (m : GuestMemory) (generation slot start : Nat) (entry : Option ReservationRecord)
  (src bytes : Bytes) (same : bytes.length = m.backing.bytes.length)

@[simp] theorem setGeneration_generation : (m.setGeneration generation).generation = generation :=
  rfl
@[simp] theorem setGeneration_owner : (m.setGeneration generation).owner = m.owner := rfl
@[simp] theorem setGeneration_aperture : (m.setGeneration generation).aperture = m.aperture := rfl
@[simp] theorem setGeneration_backing : (m.setGeneration generation).backing = m.backing := rfl
@[simp] theorem setGeneration_reservations :
    (m.setGeneration generation).reservations = m.reservations := rfl
@[simp] theorem setGeneration_live : (m.setGeneration generation).live = m.live := rfl

@[simp] theorem putReservation_generation :
    (m.putReservation slot entry).generation = m.generation := rfl
@[simp] theorem putReservation_owner : (m.putReservation slot entry).owner = m.owner := rfl
@[simp] theorem putReservation_aperture :
    (m.putReservation slot entry).aperture = m.aperture := rfl
@[simp] theorem putReservation_backing : (m.putReservation slot entry).backing = m.backing := rfl
@[simp] theorem putReservation_reservations :
    (m.putReservation slot entry).reservations = m.reservations.set slot entry := rfl

@[simp] theorem setBytes_generation : (m.setBytes bytes same).generation = m.generation := rfl
@[simp] theorem setBytes_owner : (m.setBytes bytes same).owner = m.owner := rfl
@[simp] theorem setBytes_aperture : (m.setBytes bytes same).aperture = m.aperture := rfl
@[simp] theorem setBytes_reservations :
    (m.setBytes bytes same).reservations = m.reservations := rfl
@[simp] theorem setBytes_live : (m.setBytes bytes same).live = m.live := rfl
@[simp] theorem setBytes_bytes : (m.setBytes bytes same).backing.bytes = bytes :=
  Backing.bytes_setBytes ..

@[simp] theorem overwrite_generation : (m.overwrite start src).generation = m.generation := rfl
@[simp] theorem overwrite_owner : (m.overwrite start src).owner = m.owner := rfl
@[simp] theorem overwrite_aperture : (m.overwrite start src).aperture = m.aperture := rfl
@[simp] theorem overwrite_reservations :
    (m.overwrite start src).reservations = m.reservations := rfl
@[simp] theorem overwrite_live : (m.overwrite start src).live = m.live := rfl
@[simp] theorem overwrite_bytes :
    (m.overwrite start src).backing.bytes = overlay m.backing.bytes start src :=
  Backing.bytes_setBytes ..

end Fields

/-- The ledger one generation on. -/
def advance (m : GuestMemory) : GuestMemory := m.setGeneration (m.generation + 1)

@[simp] theorem advance_generation : m.advance.generation = m.generation + 1 := rfl
@[simp] theorem advance_owner : m.advance.owner = m.owner := rfl
@[simp] theorem advance_aperture : m.advance.aperture = m.aperture := rfl
@[simp] theorem advance_backing : m.advance.backing = m.backing := rfl
@[simp] theorem advance_reservations : m.advance.reservations = m.reservations := rfl
@[simp] theorem advance_live : m.advance.live = m.live := rfl

/-! ### One specification for each query -/

theorem nextGeneration_eq_ok {generation : Nat} :
    m.nextGeneration = .ok generation ↔
      m.generation + 1 < 2 ^ 64 ∧ m.generation + 1 = generation := by
  simp [nextGeneration, checkedAdd_eq_some]

theorem holds_eq_true {token : ReservationToken} {entry : Option ReservationRecord} :
    holds token entry = true ↔ ∃ record, entry = some record ∧ record.token = token := by
  cases entry <;> simp [holds]

/-- A found slot holds the record of the token. -/
theorem slot_eq_ok {token : ReservationToken} {slot : Nat} (found : m.slot token = .ok slot) :
    ∃ record, m.reservations[slot]? = some (some record) ∧ record.token = token := by
  simp only [GuestMemory.slot, bind_eq_ok, exists_const, rejectIf_eq_ok, ofOption_eq_ok,
    List.findIdx?_eq_some_iff_getElem] at found
  obtain ⟨_, inside, hit, _⟩ := found
  obtain ⟨record, at_slot, same⟩ := holds_eq_true.mp hit
  exact ⟨record, List.getElem?_eq_some_iff.mpr ⟨inside, at_slot⟩, same⟩

theorem slot_of_foreign {token : ReservationToken} (foreign : token.owner ≠ m.owner) :
    m.slot token = .err .foreignOwner := by
  simp [GuestMemory.slot, rejectIf, foreign]

theorem slot_of_released {token : ReservationToken} (own : token.owner = m.owner)
    (gone : ∀ record ∈ m.live, record.token ≠ token) :
    m.slot token = .err .releasedReservation := by
  have absent : m.reservations.findIdx? (holds token) = none := by
    rw [List.findIdx?_eq_none_iff]
    intro entry mem
    refine Bool.eq_false_iff.mpr fun hit => ?_
    obtain ⟨record, rfl, same⟩ := holds_eq_true.mp hit
    exact gone record (Slots.mem_live.mpr mem) same
  simp [GuestMemory.slot, rejectIf, own, absent]

theorem slot_of_live {token : ReservationToken} (own : token.owner = m.owner)
    {record : ReservationRecord} (mem : record ∈ m.live) (same : record.token = token) :
    ∃ slot, m.slot token = .ok slot := by
  have hit : ∃ entry ∈ m.reservations, holds token entry = true :=
    ⟨some record, Slots.mem_live.mp mem, holds_eq_true.mpr ⟨record, rfl, same⟩⟩
  obtain ⟨slot, found⟩ := Option.isSome_iff_exists.mp (List.findIdx?_isSome.trans
    (List.any_eq_true.mpr hit))
  exact ⟨slot, by simp [GuestMemory.slot, rejectIf, own, found]⟩

/-- A found record is live and carries the token. -/
theorem record_eq_ok {token : ReservationToken} {record : ReservationRecord}
    (found : m.record token = .ok record) : record ∈ m.live ∧ record.token = token := by
  simp only [GuestMemory.record, bind_eq_ok, expect_eq_ok] at found
  obtain ⟨slot, at_slot, entry, in_table, rfl⟩ := found
  obtain ⟨record', in_table', same⟩ := slot_eq_ok at_slot
  rw [in_table] at in_table'
  cases in_table'
  exact ⟨Slots.mem_live_of_getElem? in_table, same⟩

/-- The record of a token is looked up whenever its slot is. -/
theorem record_of_slot {token : ReservationToken} {slot : Nat} (found : m.slot token = .ok slot) :
    ∃ record, m.record token = .ok record := by
  obtain ⟨record, at_slot, _⟩ := slot_eq_ok found
  exact ⟨record, by simp [GuestMemory.record, found, at_slot]⟩

/-- The lookup of a record fails as the lookup of its slot does. -/
theorem record_of_slot_err {token : ReservationToken} {e : Error}
    (failed : m.slot token = .err e) : m.record token = .err e := by
  simp [GuestMemory.record, failed]

/-- The backing index that an offset into a reservation stands for. -/
def indexOf (m : GuestMemory) (record : ReservationRecord) (offset : Nat) : Nat :=
  record.extent.address - m.aperture.address + offset

/-- Where the sub-range of a reservation lies in the backing. -/
theorem range_eq_ok {record : ReservationRecord} {offset bytes : Nat} {out : Nat × Nat} :
    m.range record offset bytes = .ok out ↔
      m.aperture.address ≤ record.extent.address ∧ offset + bytes ≤ record.extent.bytes ∧
        m.indexOf record offset + bytes ≤ m.aperture.bytes ∧
        out = (m.indexOf record offset, m.indexOf record offset + bytes) := by
  have small := record.extent.fits
  have wide := m.aperture.fits
  simp only [GuestMemory.range, bind_eq_ok, exists_const, tryWord_eq_ok, ofOption_eq_ok,
    checkedAdd_eq_some, Option.bind_eq_some_iff, checkedSub_eq_some, rejectIf_eq_ok, pure_eq,
    ok.injEq, indexOf]
  constructor
  · rintro ⟨_, ⟨_, rfl⟩, _, ⟨_, rfl⟩, _, _, ⟨_, ⟨_, rfl⟩, _, rfl⟩, _, ⟨_, rfl⟩, _, _, ⟨_, rfl⟩,
      _, ⟨_, rfl⟩, rfl⟩
    exact ⟨by omega, by omega, by omega, rfl⟩
  · rintro ⟨above, inside, backed, rfl⟩
    exact ⟨bytes, ⟨by omega, rfl⟩, offset + bytes, ⟨by omega, rfl⟩, by omega, _,
      ⟨_, ⟨above, rfl⟩, by omega, rfl⟩, _, ⟨by omega, rfl⟩, by omega, _, ⟨by omega, rfl⟩, _,
      ⟨by omega, rfl⟩, rfl⟩

/-- A checked range can be copied into. -/
theorem copyRange_of_range {record : ReservationRecord} {offset : Nat} {src : Bytes}
    {range : Nat × Nat} (found : m.range record offset src.length = .ok range) :
    copyRange range src m = .ok (m.overwrite (m.indexOf record offset) src) := by
  obtain ⟨_, _, inside, rfl⟩ := range_eq_ok.mp found
  rw [m.backed] at inside
  simp [copyRange, copyFrom, inside]

theorem setReservation_eq_ok {slot : Nat} {entry : Option ReservationRecord} {m' : GuestMemory}
    (done : setReservation slot entry m = .ok m') : m' = m.putReservation slot entry := by
  unfold setReservation at done
  split at done
  · cases done
    rfl
  · cases done

theorem validateStamp_eq_ok {stamp : SnapshotStamp} {u : Unit} :
    m.validateStamp stamp = .ok u ↔
      stamp.owner = m.owner ∧ stamp.generation = m.generation := by
  simp [validateStamp, seq_eq_ok]

theorem dtRange_eq_ok {token : ReservationToken} {bytes : Nat} {out : Nat × Nat} :
    m.dtRange token bytes = .ok out ↔
      ∃ record, m.record token = .ok record ∧ record.purpose = .runtimeDeviceTree ∧
        record.extent.address % 4 = 0 ∧ m.range record 0 bytes = .ok out := by
  simp [dtRange, bind_eq_ok]

/-! ### One specification for each operation -/

/-- What a new record satisfies when the ledger takes it in. -/
structure Admits (m : GuestMemory) (record : ReservationRecord) : Prop where
  positive : 0 < record.extent.bytes
  pow : record.alignment.isPowerOfTwo
  aligned : record.alignment ∣ record.extent.address
  within : record.extent.span.Within m.aperture.span
  apart : ∀ other ∈ m.live, record.extent.span.Apart other.extent.span
  token : record.token = ⟨m.owner, m.generation + 1⟩

/-- A successful reservation fills a free slot with an admissible record of what was asked. -/
theorem reserveAt_eq_ok {address bytes alignment : Nat} {purpose : Purpose}
    {token : ReservationToken} {m' : GuestMemory}
    (reserved : (reserveAt address bytes alignment purpose).on m = (.ok token, m')) :
    ∃ slot record, m.reservations[slot]? = some none ∧ m.Admits record ∧
      m.generation + 1 < 2 ^ 64 ∧ record.extent.address = address ∧
      record.extent.bytes = bytes ∧ record.alignment = alignment ∧ record.purpose = purpose ∧
      token = record.token ∧ m' = (m.putReservation slot (some record)).advance := by
  simp only [reserveAt, on_look_bind_eq_ok, on_update_bind_eq_ok, on_write_bind_eq_ok, on_pure,
    validateRequest, seq_eq_ok, rejectIf_eq_ok, ofOption_eq_ok, nextGeneration_eq_ok, not_not,
    Prod.mk.injEq, ok.injEq] at reserved
  obtain ⟨_, ⟨positive, pow⟩, _, aligned, extent, made, _, inside, _, free_of, slot, found,
    generation, ⟨room, rfl⟩, token', rfl, filled, put, rfl, rfl⟩ := reserved
  obtain ⟨rfl, rfl⟩ := Extent.checked_eq_some.mp made
  obtain ⟨at_slot, empty, _⟩ := List.findIdx?_eq_some_iff_getElem.mp found
  refine ⟨slot, ⟨_, extent, alignment, purpose⟩, ?_, ?_, room, rfl, rfl, rfl, rfl, rfl, ?_⟩
  · exact List.getElem?_eq_some_iff.mpr ⟨at_slot, Option.isNone_iff_eq_none.mp empty⟩
  · refine ⟨Nat.pos_of_ne_zero positive, pow, Nat.dvd_of_mod_eq_zero aligned, ?_, ?_, rfl⟩
    · simp only [not_or, Nat.not_lt] at inside
      exact inside
    · intro other mem
      have clear := List.any_eq_false.mp (Bool.eq_false_iff.mpr free_of) other mem
      simp only [runsInto, decide_eq_true_eq, not_and_or, Nat.not_lt] at clear
      exact clear.symm
  · rw [setReservation_eq_ok put]
    rfl

/-- A successful allocation is a reservation at the candidate that was found. -/
theorem allocate_eq_ok {bytes alignment : Nat} {purpose : Purpose} {token : ReservationToken}
    {m' : GuestMemory} (allocated : (allocate bytes alignment purpose).on m = (.ok token, m')) :
    ∃ candidate, (reserveAt candidate bytes alignment purpose).on m = (.ok token, m') := by
  unfold allocate at allocated
  split at allocated
  · simp at allocated
  · simp at allocated
  · simp only [on_look_bind_eq_ok] at allocated
    obtain ⟨_, _, _, _, candidate, _, reserved⟩ := allocated
    exact ⟨candidate, reserved⟩

/-- A successful release frees the slot of the token's record. -/
theorem release_eq_ok {token : ReservationToken} {u : Unit} {m' : GuestMemory}
    (released : (release token).on m = (.ok u, m')) :
    ∃ slot record, m.reservations[slot]? = some (some record) ∧ record.token = token ∧
      m.generation + 1 < 2 ^ 64 ∧ m' = (m.putReservation slot none).advance := by
  simp only [release, on_look_bind_eq_ok, on_update_bind_eq_ok, on_write,
    nextGeneration_eq_ok, Prod.mk.injEq] at released
  obtain ⟨slot, found, _, ⟨room, rfl⟩, freed, put, _, rfl⟩ := released
  obtain ⟨record, at_slot, same⟩ := slot_eq_ok found
  refine ⟨slot, record, at_slot, same, room, ?_⟩
  rw [setReservation_eq_ok put]
  rfl

/-- What a write through a token has checked. -/
structure Writable (m : GuestMemory) (record : ReservationRecord) (offset : Nat) (src : Bytes) :
    Prop where
  live : record ∈ m.live
  above : m.aperture.address ≤ record.extent.address
  inside : offset + src.length ≤ record.extent.bytes
  backed : m.indexOf record offset + src.length ≤ m.backing.bytes.length

/-- A write through a token changes its sub-range of the reservation, and nothing else. -/
theorem Writable.patched {record : ReservationRecord} {offset : Nat} {src : Bytes}
    (writable : m.Writable record offset src) :
    Patched m.backing.bytes (m.overwrite (m.indexOf record offset) src).advance.backing.bytes
      (record.extent.address - m.aperture.address + offset) src := by
  rw [advance_backing, overwrite_bytes]
  exact patched_overlay writable.backed

theorem writable_of_range {token : ReservationToken} {record : ReservationRecord} {offset : Nat}
    {src : Bytes} {range : Nat × Nat} (found : m.record token = .ok record)
    (checked : m.range record offset src.length = .ok range) : m.Writable record offset src := by
  obtain ⟨above, inside, backed, _⟩ := range_eq_ok.mp checked
  exact ⟨(record_eq_ok found).1, above, inside, m.backed ▸ backed⟩

/-- A successful copy writes the payload at its offset in the token's reservation, which is
not a device tree's. -/
theorem copyInto_eq_ok {token : ReservationToken} {offset : Nat} {src : Bytes} {u : Unit}
    {m' : GuestMemory} (copied : (copyInto token offset src).on m = (.ok u, m')) :
    ∃ record, m.Writable record offset src ∧ record.token = token ∧
      record.purpose ≠ .runtimeDeviceTree ∧ m.generation + 1 < 2 ^ 64 ∧
      m' = (m.overwrite (m.indexOf record offset) src).advance := by
  simp only [copyInto, on_look_bind_eq_ok, on_update_bind_eq_ok, on_write,
    nextGeneration_eq_ok, rejectIf_eq_ok, Prod.mk.injEq] at copied
  obtain ⟨record, found, _, purpose, range, checked, _, ⟨room, rfl⟩, written, put, _, rfl⟩ :=
    copied
  rw [copyRange_of_range checked] at put
  cases put
  exact ⟨record, writable_of_range found checked, (record_eq_ok found).2, purpose, room, rfl⟩

/-- A successful commit writes the tree at the start of its destination, which is a device
tree's and word aligned, in the generation the tree was bound to. -/
theorem commitDeviceTree_eq_ok {prepared : PreparedDeviceTree} {u : Unit} {m' : GuestMemory}
    (committed : (commitDeviceTree prepared).on m = (.ok u, m')) :
    ∃ record, m.Writable record 0 prepared.tree.bytes ∧ record.token = prepared.destination ∧
      record.purpose = .runtimeDeviceTree ∧ record.extent.address % 4 = 0 ∧
      prepared.stamp = ⟨m.owner, m.generation⟩ ∧ m.generation + 1 < 2 ^ 64 ∧
      m' = (m.overwrite (m.indexOf record 0) prepared.tree.bytes).advance := by
  simp only [commitDeviceTree, on_look_bind_eq_ok, on_update_bind_eq_ok, on_write,
    nextGeneration_eq_ok, validateStamp_eq_ok, dtRange_eq_ok, Prod.mk.injEq] at committed
  obtain ⟨_, ⟨own, current⟩, range, ⟨record, found, purpose, aligned, checked⟩, _, ⟨room, rfl⟩,
    written, put, _, rfl⟩ := committed
  rw [copyRange_of_range checked] at put
  cases put
  refine ⟨record, writable_of_range found checked, (record_eq_ok found).2, purpose, aligned, ?_,
    room, rfl⟩
  rw [← own, ← current]

/-! ### Failures change nothing -/

theorem reserveAt_atomic (address bytes alignment : Nat) (purpose : Purpose) :
    Atomic (reserveAt address bytes alignment purpose) := by
  unfold reserveAt
  repeat refine Atomic.look_bind fun _ => ?_
  exact (atomic_update _).bind fun _ => (total_write _).bind fun _ => total_pure _

theorem allocate_atomic (bytes alignment : Nat) (purpose : Purpose) :
    Atomic (allocate bytes alignment purpose) := by
  unfold allocate
  split
  · exact atomic_look _
  · exact atomic_look _
  · exact Atomic.look_bind fun _ => Atomic.look_bind fun _ => Atomic.look_bind fun _ =>
      reserveAt_atomic _ _ _ _

theorem release_atomic (token : ReservationToken) : Atomic (release token) := by
  unfold release
  repeat refine Atomic.look_bind fun _ => ?_
  exact (atomic_update _).bind fun _ => total_write _

theorem copyInto_atomic (token : ReservationToken) (offset : Nat) (src : Bytes) :
    Atomic (copyInto token offset src) := by
  unfold copyInto
  repeat refine Atomic.look_bind fun _ => ?_
  exact (atomic_update _).bind fun _ => total_write _

theorem commitDeviceTree_atomic (prepared : PreparedDeviceTree) :
    Atomic (commitDeviceTree prepared) := by
  unfold commitDeviceTree
  repeat refine Atomic.look_bind fun _ => ?_
  exact (atomic_update _).bind fun _ => total_write _

end GuestMemory

end Nextcore
