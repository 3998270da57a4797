import Nextcore.GuestMemory.Invariant

/-!
Allocation is lowest aligned first fit.

`Fits` says which addresses an allocation may take. The search keeps its candidate at or below
every fit: a record that blocks the candidate blocks everything up to its end, and rounding up to
the alignment passes no multiple of it. So the first candidate that nothing blocks is the least
fit, and a search that fails has met none (`firstFit_spec`). Rounding cannot overflow below a fit,
because every power of two that is a word divides the size of the address space.
-/

namespace Nextcore

open Checked Checked.Outcome Checked.Exec GuestMemory Machine

/-- The addresses that an allocation may take: aligned, inside the aperture, and apart from every
live record. -/
structure GuestMemory.Fits (m : GuestMemory) (bytes alignment a : Nat) : Prop where
  aligned : alignment ∣ a
  above : m.aperture.address ≤ a
  below : a + bytes ≤ m.aperture.endAddress
  apart : ∀ r ∈ m.live, Span.Apart ⟨a, bytes⟩ r.extent.span

namespace GuestMemory

variable {m : GuestMemory} {bytes alignment candidate : Nat}

/-! ### Rounding up -/

theorem alignUp_eq (pow : alignment.isPowerOfTwo) (address : Nat) :
    alignUp address alignment =
      if address + (alignment - 1) < 2 ^ 64 then .ok (roundUp alignment address)
      else .err .arithmeticOverflow := by
  rw [alignUp, sub_of_le (Nat.pos_of_isPowerOfTwo pow), bind_ok]
  split
  · next fits =>
      rw [checkedAdd_of_lt fits, ofOption_some, bind_ok, andNot_eq pow, pure_eq]
      rfl
  · next wraps => rw [checkedAdd_of_not_lt wraps, ofOption_none, bind_err]

/-- Below a multiple of the alignment, rounding up stays in the words and does not pass it. -/
theorem alignUp_of_le {address a : Nat} (pow : alignment.isPowerOfTwo) (word : alignment < 2 ^ 64)
    (multiple : alignment ∣ a) (small : a < 2 ^ 64) (le : address ≤ a) :
    alignUp address alignment = .ok (roundUp alignment address) ∧
      roundUp alignment address ≤ a := by
  have positive := Nat.pos_of_isPowerOfTwo pow
  have room : a + alignment ≤ 2 ^ 64 := by
    obtain ⟨k, rfl⟩ := pow
    have divides : 2 ^ k ∣ 2 ^ 64 :=
      Nat.pow_dvd_pow 2 ((Nat.pow_lt_pow_iff_right (by decide)).mp word).le
    obtain ⟨c, whole⟩ := divides
    obtain ⟨d, rfl⟩ := multiple
    rw [whole] at small ⊢
    exact Nat.mul_le_mul_left _ (Nat.lt_of_mul_lt_mul_left small)
  refine ⟨?_, roundUp_le positive multiple le⟩
  rw [alignUp_eq pow, if_pos (by omega)]

/-! ### The search -/

/-- The end of the records that block a candidate: every later fit lies behind it. -/
theorem blockingEnd_le {stop next : Nat} (blocked : m.blockingEnd candidate stop = some next)
    (stop_eq : stop = candidate + bytes) {a : Nat} (fits : m.Fits bytes alignment a)
    (le : candidate ≤ a) : next ≤ a := by
  obtain ⟨r, mem, rfl⟩ := List.mem_map.mp (List.max?_mem blocked)
  obtain ⟨live, hit⟩ := List.mem_filter.mp mem
  simp only [runsInto, decide_eq_true_eq] at hit
  have apart := fits.apart r live
  simp only [Span.Apart, Span.stop_mk, Extent.span_start, Extent.span_stop] at apart
  omega

/-- A candidate that nothing blocks is apart from every live record. -/
theorem apart_of_blockingEnd {stop : Nat} (clear : m.blockingEnd candidate stop = none)
    (stop_eq : stop = candidate + bytes) :
    ∀ r ∈ m.live, Span.Apart ⟨candidate, bytes⟩ r.extent.span := by
  intro r live
  have none_left := List.map_eq_nil_iff.mp (List.max?_eq_none_iff.mp clear)
  have miss := List.filter_eq_nil_iff.mp none_left r live
  simp only [runsInto, decide_eq_true_eq, not_and_or, Nat.not_lt] at miss
  simp only [Span.Apart, Span.stop_mk, Extent.span_start, Extent.span_stop]
  omega

/-- The search finds the least fit, or there is none. -/
theorem firstFit_spec (pow : alignment.isPowerOfTwo) (word : alignment < 2 ^ 64)
    (aligned : alignment ∣ candidate) (above : m.aperture.address ≤ candidate)
    (least : ∀ a, m.Fits bytes alignment a → candidate ≤ a) :
    (∃ a, m.firstFit bytes pow candidate = .ok a ∧ IsLeast {a | m.Fits bytes alignment a} a) ∨
      ((m.firstFit bytes pow candidate = .err .noSpace ∨
          m.firstFit bytes pow candidate = .err .arithmeticOverflow) ∧
        ∀ a, ¬ m.Fits bytes alignment a) := by
  induction gap : 2 ^ 64 - candidate using Nat.strongRecOn generalizing candidate with
  | ind gap ih =>
      subst gap
      have end_word : m.aperture.endAddress < 2 ^ 64 := m.aperture.fits
      rw [firstFit]
      split
      · next wraps =>
          refine .inr ⟨.inr rfl, fun a fits => ?_⟩
          have le := least a fits
          have below := fits.below
          have sum := checkedAdd_of_lt (show candidate + bytes < 2 ^ 64 by omega)
          rw [wraps] at sum
          cases sum
      next stop sum =>
      obtain ⟨small, rfl⟩ := checkedAdd_eq_some.mp sum
      split
      · next past =>
          refine .inr ⟨.inl rfl, fun a fits => ?_⟩
          have le := least a fits
          have below := fits.below
          omega
      next inside =>
      split
      · next clear =>
          have fits : m.Fits bytes alignment candidate :=
            ⟨aligned, above, Nat.le_of_not_lt inside, apart_of_blockingEnd clear rfl⟩
          exact .inl ⟨candidate, rfl, fits, least⟩
      next next blocked =>
      have behind : ∀ a, m.Fits bytes alignment a → next ≤ a :=
        fun a fits => blockingEnd_le blocked rfl fits (least a fits)
      have forward := lt_of_blockingEnd blocked
      split
      · next rounded up =>
          rw [alignUp_eq pow] at up
          split at up
          · next fits =>
              cases up
              have le := le_roundUp (Nat.pos_of_isPowerOfTwo pow) next
              refine ih _ (by omega) (dvd_roundUp _ _) (by omega) (fun a fits => ?_) rfl
              exact roundUp_le (Nat.pos_of_isPowerOfTwo pow) fits.aligned (behind a fits)
          · cases up
      · next e up =>
          rw [alignUp_eq pow] at up
          split at up
          · cases up
          · next wraps =>
              cases up
              refine .inr ⟨.inr rfl, fun a fits => ?_⟩
              have below := fits.below
              have ok := (alignUp_of_le pow word fits.aligned (by omega) (behind a fits)).1
              rw [alignUp_eq pow, if_neg wraps] at ok
              cases ok
      · next up =>
          rw [alignUp_eq pow] at up
          split at up <;> cases up

/-! ### Reservation -/

/-- A fit can be reserved. -/
theorem reserveAt_of_fits {a slot : Nat} (purpose : Purpose) (positive : 0 < bytes)
    (pow : alignment.isPowerOfTwo) (fits : m.Fits bytes alignment a)
    (free : m.reservations[slot]? = some none) (room : m.generation + 1 < 2 ^ 64) :
    ∃ token m', (reserveAt a bytes alignment purpose).on m = (.ok token, m') := by
  have small : a + bytes < 2 ^ 64 := Nat.lt_of_le_of_lt fits.below m.aperture.fits
  have made : Extent.checked a bytes = some ⟨a, bytes, small⟩ := dif_pos small
  have inside : ¬ (a < m.aperture.address ∨
      (⟨a, bytes, small⟩ : Extent).endAddress > m.aperture.endAddress) := by
    have above := fits.above
    have below := fits.below
    simp only [Extent.endAddress] at below ⊢
    omega
  have clear : m.live.any (runsInto a (⟨a, bytes, small⟩ : Extent).endAddress) ≠ true := by
    rw [ne_eq, Bool.not_eq_true, List.any_eq_false]
    intro r live hit
    have apart := fits.apart r live
    simp only [runsInto, decide_eq_true_eq] at hit
    simp only [Span.Apart, Span.stop_mk, Extent.span_start, Extent.span_stop,
      Extent.endAddress] at apart hit
    omega
  obtain ⟨first, found⟩ : ∃ first, m.reservations.findIdx? Option.isNone = some first := by
    refine Option.isSome_iff_exists.mp (List.findIdx?_isSome.trans (List.any_eq_true.mpr ?_))
    exact ⟨none, List.mem_of_getElem? free, rfl⟩
  obtain ⟨at_first, _, _⟩ := List.findIdx?_eq_some_iff_getElem.mp found
  have valid : validateRequest bytes alignment = .ok () := by
    rw [validateRequest, rejectIf_of_not _ positive.ne', bind_ok,
      rejectIf_of_not _ (not_not.mpr pow)]
  have multiple : ¬ a % alignment ≠ 0 := not_not.mpr (Nat.mod_eq_zero_of_dvd fits.aligned)
  have generation : m.nextGeneration = .ok (m.generation + 1) :=
    nextGeneration_eq_ok.mpr ⟨room, rfl⟩
  have put (entry : Option ReservationRecord) :
      (update (setReservation first entry)).on m = (.ok (), m.putReservation first entry) :=
    on_update_of_ok (if_pos at_first)
  simp only [reserveAt, on_bind, on_look, valid, rejectIf_of_not _ multiple, made, ofOption_some,
    rejectIf_of_not _ inside, rejectIf_of_not _ clear, found, generation, put, on_write, on_pure]
  exact ⟨_, _, rfl⟩

/-- The ledger that a reservation at an address leaves: a free slot is filled with its record. -/
def Reserves (m : GuestMemory) (a bytes alignment : Nat) (purpose : Purpose)
    (token : ReservationToken) (m' : GuestMemory) : Prop :=
  ∃ slot record, m.reservations[slot]? = some none ∧ record.token = token ∧
    record.extent.address = a ∧ record.extent.bytes = bytes ∧ record.alignment = alignment ∧
    record.purpose = purpose ∧ m' = (m.putReservation slot (some record)).advance

/-- Allocation is exactly lowest aligned first fit: where an address fits, the least one is
reserved; where none does, the ledger is as it was and there is no space, or the search has
left the addresses. -/
theorem allocate_first_fit {slot : Nat} (free : m.reservations[slot]? = some none)
    (room : m.generation < 2 ^ 64 - 1) (positive : 0 < bytes) (pow : alignment.isPowerOfTwo)
    (word : alignment < 2 ^ 64) (purpose : Purpose) :
    ((∃ a, m.Fits bytes alignment a) → ∃ a token m', IsLeast {a | m.Fits bytes alignment a} a ∧
        (allocate bytes alignment purpose).on m = (.ok token, m') ∧
        m.Reserves a bytes alignment purpose token m') ∧
      ((∀ a, ¬ m.Fits bytes alignment a) →
        (allocate bytes alignment purpose).on m = (.err .noSpace, m) ∨
          (allocate bytes alignment purpose).on m = (.err .arithmeticOverflow, m)) := by
  have valid : validateRequest bytes alignment = .ok () := by
    rw [validateRequest, rejectIf_of_not _ positive.ne', bind_ok,
      rejectIf_of_not _ (not_not.mpr pow)]
  have some_free : ¬ m.reservations.all Option.isSome = true := by
    intro full
    have used := List.all_eq_true.mp full _ (List.mem_of_getElem? free)
    cases used
  -- What `allocate` does once the request is valid and a slot is free.
  have program : (allocate bytes alignment purpose).on m =
      (do let candidate ← look fun m => alignUp m.aperture.address alignment
          let candidate ← look fun m => m.firstFit bytes pow candidate
          reserveAt candidate bytes alignment purpose : Exec GuestMemory Error _).on m := by
    unfold allocate
    split
    · next e invalid =>
        rw [valid] at invalid
        cases invalid
    · next invalid =>
        rw [valid] at invalid
        cases invalid
    · simp only [on_bind, on_look, rejectIf_of_not _ some_free]
  rw [program]
  simp only [on_bind, on_look]
  have positive' := Nat.pos_of_isPowerOfTwo pow
  by_cases start : m.aperture.address + (alignment - 1) < 2 ^ 64
  · rw [alignUp_eq pow, if_pos start]
    dsimp only
    have above := le_roundUp positive' m.aperture.address
    rcases firstFit_spec pow word (dvd_roundUp _ _) above
        (fun a fits => roundUp_le positive' fits.aligned fits.above) with
      ⟨a, found, least⟩ | ⟨failed, none⟩
    · rw [found]
      dsimp only
      refine ⟨fun _ => ?_, fun none => absurd least.1 (none a)⟩
      obtain ⟨token, m', reserved⟩ := reserveAt_of_fits purpose positive pow least.1 free (by omega)
      obtain ⟨slot', record, free', _, _, at_a, size, align, use, rfl, rfl⟩ :=
        reserveAt_eq_ok reserved
      exact ⟨a, _, _, least, reserved, slot', record, free', rfl, at_a, size, align, use, rfl⟩
    · refine ⟨fun some => absurd some.choose_spec (none _), fun _ => ?_⟩
      rcases failed with failed | failed
      · rw [failed]
        exact .inl rfl
      · rw [failed]
        exact .inr rfl
  · rw [alignUp_eq pow, if_neg start]
    refine ⟨?_, fun _ => .inr rfl⟩
    rintro ⟨a, fits⟩
    refine absurd ?_ start
    have end_word : m.aperture.endAddress < 2 ^ 64 := m.aperture.fits
    have below := fits.below
    have rounded := (alignUp_of_le pow word fits.aligned (by omega) fits.above).1
    rw [alignUp_eq pow] at rounded
    by_contra wraps
    rw [if_neg wraps] at rounded
    cases rounded

/-- The sample with the first 20 bytes of its memory taken. -/
def blockedLedger : GuestMemory := ((reserveAt 4096 20 4 .stack).on sampleLedger).2

theorem allocate_first_fit_sample :
    ∃ a token m', ¬ blockedLedger.Fits 16 8 4096 ∧ IsLeast {a | blockedLedger.Fits 16 8 a} a ∧
      (allocate 16 8 .stack).on blockedLedger = (.ok token, m') := by
  have fits : blockedLedger.Fits 16 8 4120 :=
    ⟨by decide, by decide +kernel, by decide +kernel, by decide +kernel⟩
  have blocked : ¬ ∀ r ∈ blockedLedger.live, Span.Apart ⟨4096, 16⟩ r.extent.span := by
    decide +kernel
  have free : blockedLedger.reservations[1]? = some none := by decide +kernel
  obtain ⟨a, token, m', least, allocated, _⟩ :=
    (allocate_first_fit free (by decide +kernel) (by decide) ⟨3, rfl⟩ (by decide) .stack).1
      ⟨4120, fits⟩
  exact ⟨a, token, m', fun first => blocked first.apart, least, allocated⟩

end GuestMemory

end Nextcore
