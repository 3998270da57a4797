import Mathlib.Data.List.Nodup
import Nextcore.GuestMemory.Invariant

/-!
What a ledger does with a token.

`Rejects` and `Accepts` say how `read`, `copy_into` and `release` answer a token. Under
the invariant the answer depends on one thing only: whether a record with the token is
live (`rejects_of_slot`, `accepts_of_live`); an effect changes that for the token it
mints and for the token it is given to release, and for no other.
-/

namespace Nextcore

open Checked Checked.Outcome Checked.Exec GuestMemory

namespace GuestMemory

variable {m : GuestMemory}

/-! ### What a ledger does with a token -/

/-- `read`, `copy_into` and `release` all reject the token with `e`. -/
structure Rejects (m : GuestMemory) (token : ReservationToken) (e : Error) : Prop where
  read : m.read token = .err e
  copy : ∀ offset src, (copyInto token offset src).on m = (.err e, m)
  release : (release token).on m = (.err e, m)

/-- Where a token is good, a payload may still not be written: purpose, range, generation. -/
def MayWrite (m : GuestMemory) (record : ReservationRecord) (offset : Nat) (src : Bytes) : Prop :=
  record.purpose ≠ .runtimeDeviceTree ∧ offset + src.length ≤ record.extent.bytes ∧
    m.generation + 1 < 2 ^ 64

/-- The errors of `copy_into` that do not reject its token. -/
def payloadErrors : List Error :=
  [.wrongPurpose, .arithmeticOverflow, .destinationCapacity, .generationExhausted]

/-- The record's token is good: it reads the reservation, and writes and releases it unless
purpose, range or generation stand against it. -/
structure Accepts (m : GuestMemory) (record : ReservationRecord) : Prop where
  read : m.read record.token =
    .ok (window m.backing.bytes (m.indexOf record 0) record.extent.bytes)
  copy : ∀ offset src, m.MayWrite record offset src →
    (copyInto record.token offset src).on m =
      (.ok (), (m.overwrite (m.indexOf record offset) src).advance)
  refuse : ∀ offset src, ¬ m.MayWrite record offset src →
    ∃ e ∈ payloadErrors, (copyInto record.token offset src).on m = (.err e, m)
  release : m.generation + 1 < 2 ^ 64 → ((release record.token).on m).1 = .ok ()
  exhausted : ¬ m.generation + 1 < 2 ^ 64 →
    (GuestMemory.release record.token).on m = (.err .generationExhausted, m)

/-- A token without a slot is rejected by everything. -/
theorem rejects_of_slot {token : ReservationToken} {e : Error} (failed : m.slot token = .err e) :
    Rejects m token e := by
  have record := record_of_slot_err failed
  constructor
  · rw [GuestMemory.read, record]
    rfl
  · intro offset src
    rw [copyInto, on_bind, on_look, record]
  · rw [GuestMemory.release, on_bind, on_look, failed]

end GuestMemory

namespace LedgerInv

variable {m : GuestMemory} {record : ReservationRecord}

/-- A live record is the one that its token is looked up to. -/
theorem record_of_live (inv : LedgerInv m) (mem : record ∈ m.live) :
    m.record record.token = .ok record := by
  obtain ⟨slot, found⟩ := slot_of_live (inv.owner record mem) mem rfl
  obtain ⟨other, looked_up⟩ := record_of_slot found
  obtain ⟨live, same⟩ := record_eq_ok looked_up
  have : other = record :=
    List.inj_on_of_nodup_map inv.serials live mem (congrArg ReservationToken.serial same)
  rwa [this] at looked_up

/-- A sub-range of a live record lies in the backing. -/
theorem range_of_live (inv : LedgerInv m) (mem : record ∈ m.live) {offset bytes : Nat}
    (inside : offset + bytes ≤ record.extent.bytes) :
    m.range record offset bytes =
      .ok (m.indexOf record offset, m.indexOf record offset + bytes) := by
  have within := inv.within record mem
  simp only [Span.Within, Extent.span_start, Extent.span_stop, Extent.endAddress] at within
  refine range_eq_ok.mpr ⟨within.1, inside, ?_, rfl⟩
  simp only [indexOf]
  omega

/-- A sub-range that leaves its record is refused for its bounds. -/
theorem range_of_outside {offset bytes : Nat} (outside : ¬ offset + bytes ≤ record.extent.bytes) :
    ∃ e ∈ payloadErrors, m.range record offset bytes = .err e := by
  unfold GuestMemory.range
  by_cases word : bytes < 2 ^ 64
  · rw [tryWord_of_lt word, bind_ok]
    by_cases sum : offset + bytes < 2 ^ 64
    · refine ⟨.destinationCapacity, by decide, ?_⟩
      rw [checkedAdd_of_lt sum, ofOption_some, bind_ok, rejectIf_of _ (Nat.lt_of_not_le outside)]
      rfl
    · refine ⟨.arithmeticOverflow, by decide, ?_⟩
      rw [checkedAdd_of_not_lt sum]
      rfl
  · refine ⟨.arithmeticOverflow, by decide, ?_⟩
    rw [tryWord_of_not_lt word]
    rfl

theorem nextGeneration_of_room (room : m.generation + 1 < 2 ^ 64) :
    m.nextGeneration = .ok (m.generation + 1) :=
  nextGeneration_eq_ok.mpr ⟨room, rfl⟩

theorem nextGeneration_of_full (full : ¬ m.generation + 1 < 2 ^ 64) :
    m.nextGeneration = .err .generationExhausted := by
  rw [nextGeneration, checkedAdd_of_not_lt full]
  rfl

theorem read_of_live (inv : LedgerInv m) (mem : record ∈ m.live) :
    m.read record.token =
      .ok (window m.backing.bytes (m.indexOf record 0) record.extent.bytes) := by
  have small := record.extent.fits
  have range := inv.range_of_live mem (Nat.le_of_eq (Nat.zero_add record.extent.bytes))
  obtain ⟨_, _, backed, _⟩ := range_eq_ok.mp range
  rw [m.backed] at backed
  have word : record.extent.bytes < 2 ^ 64 := by omega
  rw [GuestMemory.read, inv.record_of_live mem, bind_ok, tryWord_of_lt word, bind_ok, range,
    bind_ok]
  refine index_eq_ok.mpr ⟨⟨Nat.le_add_right _ _, backed⟩, ?_⟩
  rw [Nat.add_sub_cancel_left]

/-- A payload that may be written is. -/
theorem copy_of_live (inv : LedgerInv m) (mem : record ∈ m.live) {offset : Nat} {src : Bytes}
    (may : m.MayWrite record offset src) :
    (copyInto record.token offset src).on m =
      (.ok (), (m.overwrite (m.indexOf record offset) src).advance) := by
  obtain ⟨purpose, inside, room⟩ := may
  have range := inv.range_of_live mem inside
  simp only [copyInto, on_look_bind_eq_ok, on_update_bind_eq_ok, on_write, rejectIf_eq_ok]
  exact ⟨record, inv.record_of_live mem, (), purpose, _, range, _, nextGeneration_of_room room, _,
    copyRange_of_range range, rfl⟩

/-- A payload that may not be written is refused, and not because of its token. -/
theorem refuse_of_live (inv : LedgerInv m) (mem : record ∈ m.live) {offset : Nat} {src : Bytes}
    (may_not : ¬ m.MayWrite record offset src) :
    ∃ e ∈ payloadErrors, (copyInto record.token offset src).on m = (.err e, m) := by
  have looked_up := inv.record_of_live mem
  unfold copyInto
  rw [on_look_bind_of_ok (s := m) looked_up]
  by_cases purpose : record.purpose = .runtimeDeviceTree
  · exact ⟨.wrongPurpose, by decide, on_look_bind_of_err (rejectIf_of _ purpose)⟩
  · rw [on_look_bind_of_ok (s := m) (rejectIf_of_not Error.wrongPurpose purpose)]
    by_cases inside : offset + src.length ≤ record.extent.bytes
    · have full : ¬ m.generation + 1 < 2 ^ 64 := fun room => may_not ⟨purpose, inside, room⟩
      rw [on_look_bind_of_ok (s := m) (inv.range_of_live mem inside)]
      exact ⟨.generationExhausted, by decide, on_look_bind_of_err (nextGeneration_of_full full)⟩
    · obtain ⟨e, bounds, refused⟩ := range_of_outside (m := m) inside
      exact ⟨e, bounds, on_look_bind_of_err refused⟩

/-- Live records are accepted. -/
theorem accepts_of_live (inv : LedgerInv m) (mem : record ∈ m.live) : Accepts m record := by
  obtain ⟨slot, found⟩ := slot_of_live (inv.owner record mem) mem rfl
  refine ⟨inv.read_of_live mem, fun _ _ may => inv.copy_of_live mem may,
    fun _ _ may_not => inv.refuse_of_live mem may_not, fun room => ?_, fun full => ?_⟩
  · obtain ⟨_, at_slot, _⟩ := slot_eq_ok found
    have freed : setReservation slot none m = .ok (m.putReservation slot none) :=
      if_pos (List.getElem?_eq_some_iff.mp at_slot).1
    have released : (GuestMemory.release record.token).on m =
        (.ok (), (m.putReservation slot none).advance) := by
      simp only [GuestMemory.release, on_look_bind_eq_ok, on_update_bind_eq_ok, on_write]
      exact ⟨slot, found, _, nextGeneration_of_room room, _, freed, rfl⟩
    rw [released]
  · rw [GuestMemory.release, on_look_bind_of_ok (s := m) found]
    exact on_look_bind_of_err (nextGeneration_of_full full)

end LedgerInv

/-! ### Which tokens an effect touches -/

variable {ω R : Type} {m m' : GuestMemory} {c : Call ω R} {reply : Reply R}

/-- A record that is live after an effect was live before, or its token is new. -/
theorem Effect.live_or_new (effect : Effect m c reply m') {r : ReservationRecord}
    (mem : r ∈ m'.live) : r ∈ m.live ∨ r.token = ⟨m.owner, m.generation + 1⟩ := by
  cases effect with
  | reserved asked free admits =>
      rcases List.mem_cons.mp ((live_putReservation free _).mem_iff.mp mem) with rfl | old
      · exact .inr admits.token
      · exact .inl old
  | released used => exact .inl ((live_of_used used).mem_iff.mpr (List.mem_cons_of_mem _ mem))
  | copied | committed | lent => exact .inl mem

/-- A live record stays live through every effect but its own release. -/
theorem Effect.kept_or_released (effect : Effect m c reply m') {r : ReservationRecord}
    (mem : r ∈ m.live) : r ∈ m'.live ∨ c = .release r.token := by
  cases effect with
  | reserved asked free admits =>
      exact .inl ((live_putReservation free _).mem_iff.mpr (List.mem_cons_of_mem _ mem))
  | released used =>
      rcases List.mem_cons.mp ((live_of_used used).mem_iff.mp mem) with rfl | kept
      · exact .inr rfl
      · exact .inl kept
  | copied | committed | lent => exact .inl mem

/-- After the release of a token no live record carries it: serials are not shared. -/
theorem Effect.gone_of_release {token : ReservationToken}
    (effect : Effect m (.release token : Call ω R) reply m') (inv : LedgerInv m) :
    ∀ r ∈ m'.live, r.token ≠ token := by
  cases effect with
  | reserved asked => exact asked.elim
  | @released slot record used =>
      intro r mem same
      have nodup := ((live_of_used used).map (·.token.serial)).nodup_iff.mp inv.serials
      exact (List.nodup_cons.mp nodup).1
        (List.mem_map.mpr ⟨r, mem, congrArg ReservationToken.serial same⟩)

theorem Effect.done_of_release {token : ReservationToken}
    (effect : Effect m (.release token : Call ω R) reply m') : reply = .done := by
  cases effect with
  | reserved asked => exact asked.elim
  | released => rfl

/-- The token that an effect returns is new, and a record that was asked for carries it. -/
theorem Effect.minted {token : ReservationToken} (effect : Effect m c (.token token) m') :
    token = ⟨m.owner, m.generation + 1⟩ ∧
      ∃ r ∈ m'.live, c.AsksFor r ∧ r.token = token := by
  cases effect with
  | reserved asked free admits =>
      exact ⟨admits.token, _, (live_putReservation free _).mem_iff.mpr List.mem_cons_self,
        asked, rfl⟩

/-- Only mutating calls return a token. -/
theorem Call.mutates_of_token {s : Session ω} {token : ReservationToken}
    (returned : (c.step s).1 = .ok (.token token)) : c.mutates = true := by
  cases c with
  | bindDeviceTree stamp destination tree =>
      simp only [step, exec, on_bind, on_look, on_pure] at returned
      cases bound : s.ledger.bindDeviceTree stamp destination tree <;> simp [bound] at returned
  | read token =>
      simp only [step, exec, on_bind, on_look, on_pure] at returned
      cases bytes : s.ledger.read token <;> simp [bytes] at returned
  | snapshot => simp [step, exec] at returned
  | reserveAt | allocate | release | copyInto | commitDeviceTree | withGuestMemory => rfl

end Nextcore
