import Nextcore.GuestMemory.Calls

/-!
The ledger invariant.

`LedgerInv` is what the live records of a ledger satisfy. A new ledger has it, every
effect keeps it (`Effect.keeps`), so it holds after every run of calls, whatever their
arguments and whether they succeed (`ledger_invariant`). Filling a slot only adds the
new record to the live ones and freeing a slot only takes one away, so facts about all
pairs of live records never have to look at slots.
-/

namespace Nextcore

open Checked Checked.Outcome GuestMemory Machine

/-- What the live records of a ledger satisfy. -/
structure LedgerInv (m : GuestMemory) : Prop where
  positive : ∀ r ∈ m.live, 0 < r.extent.bytes
  within : ∀ r ∈ m.live, r.extent.span.Within m.aperture.span
  aligned : ∀ r ∈ m.live, r.alignment.isPowerOfTwo ∧ r.alignment ∣ r.extent.address
  apart : m.live.Pairwise fun a b => a.extent.span.Apart b.extent.span
  owner : ∀ r ∈ m.live, r.token.owner = m.owner
  serials : (m.live.map (·.token.serial)).Nodup
  current : ∀ r ∈ m.live, r.token.serial ≤ m.generation

namespace GuestMemory

/-- `m` is what a constructor made of `bytes` at `base`, whatever the owner counter. -/
def Built (base : Nat) (bytes : Bytes) (m : GuestMemory) : Prop :=
  ∃ counter, (fromOwned base bytes counter).1 = .ok m ∨ (fromBorrowed base bytes counter).1 = .ok m

/-- A new ledger has generation zero, no live record, and the counter's value as its owner. -/
theorem new_eq_ok {base counter counter' : Nat} {backing : Backing} {m : GuestMemory}
    (made : new base backing counter = (.ok m, counter')) :
    m.aperture.address = base ∧ m.aperture.bytes = backing.bytes.length ∧
      m.backing = backing ∧ m.owner = counter ∧ counter' = counter + 1 ∧ m.generation = 0 ∧
      m.live = [] := by
  simp only [new] at made
  split at made
  · split at made
    · cases made
    · split at made
      · simp only [mintOwner, checkedAdd] at made
        by_cases room : counter + 1 < 2 ^ 64
        · simp only [room, if_true] at made
          cases made
          exact ⟨rfl, rfl, rfl, rfl, rfl, rfl, Slots.live_replicate_none _⟩
        · simp only [room, if_false] at made
          cases made
      · cases made
  · cases made

/-- A constructor that makes no ledger mints no owner. -/
theorem new_eq_self_or_ok (base : Nat) (backing : Backing) (counter : Nat) :
    (∃ m, (new base backing counter).1 = .ok m) ∨ (new base backing counter).2 = counter := by
  unfold new
  split
  · split
    · exact .inr rfl
    · split
      · simp only [mintOwner]
        cases checkedAdd counter 1 with
        | none => exact .inr rfl
        | some next => exact .inl ⟨_, rfl⟩
      · exact .inr rfl
  · exact .inr rfl

/-- What is known of a ledger that a constructor has just made. -/
theorem Built.fresh {base : Nat} {bytes : Bytes} {m : GuestMemory} (built : Built base bytes m) :
    m.aperture.address = base ∧ m.aperture.bytes = bytes.length ∧ m.live = [] ∧
      m.generation = 0 := by
  obtain ⟨counter, made | made⟩ := built
  · obtain ⟨at_base, size, _, _, _, zero, none⟩ := new_eq_ok (Prod.ext made rfl)
    exact ⟨at_base, size, none, zero⟩
  · obtain ⟨at_base, size, _, _, _, zero, none⟩ := new_eq_ok (Prod.ext made rfl)
    exact ⟨at_base, size, none, zero⟩

end GuestMemory

/-- A ledger with no live record satisfies the invariant. -/
theorem LedgerInv.of_live_nil {m : GuestMemory} (none : m.live = []) : LedgerInv m := by
  constructor <;> simp [none]

variable {ω R : Type} {m m' : GuestMemory}

/-- Filling a free slot adds exactly the new record. -/
theorem live_putReservation {slot : Nat} (free : m.reservations[slot]? = some none)
    (record : ReservationRecord) :
    (m.putReservation slot (some record)).live.Perm (record :: m.live) :=
  Slots.live_fill free record

/-- Freeing a slot takes exactly its record away. -/
theorem live_of_used {slot : Nat} {record : ReservationRecord}
    (used : m.reservations[slot]? = some (some record)) :
    m.live.Perm (record :: (m.putReservation slot none).live) :=
  Slots.live_free used

/-- Taking in an admissible record keeps the invariant. -/
theorem LedgerInv.fill {slot : Nat} {record : ReservationRecord} (inv : LedgerInv m)
    (free : m.reservations[slot]? = some none) (admits : m.Admits record) :
    LedgerInv (m.putReservation slot (some record)).advance := by
  have perm := live_putReservation free record
  have mem {r : ReservationRecord} (h : r ∈ (m.putReservation slot (some record)).live) :
      r = record ∨ r ∈ m.live := List.mem_cons.mp (perm.mem_iff.mp h)
  constructor
  · intro r h
    rcases mem h with rfl | old
    · exact admits.positive
    · exact inv.positive r old
  · intro r h
    rcases mem h with rfl | old
    · exact admits.within
    · exact inv.within r old
  · intro r h
    rcases mem h with rfl | old
    · exact ⟨admits.pow, admits.aligned⟩
    · exact inv.aligned r old
  · exact (perm.pairwise_iff Span.Apart.symm).mpr
      (List.pairwise_cons.mpr ⟨admits.apart, inv.apart⟩)
  · intro r h
    rcases mem h with rfl | old
    · rw [admits.token]
      rfl
    · exact inv.owner r old
  · refine (perm.map (·.token.serial)).nodup_iff.mpr (List.nodup_cons.mpr ⟨?_, inv.serials⟩)
    -- The new serial is above the generation, which bounds every serial in use.
    intro used
    obtain ⟨r, old, same⟩ := List.mem_map.mp used
    have bound := inv.current r old
    have fresh : record.token.serial = m.generation + 1 := by rw [admits.token]
    have reused : r.token.serial = record.token.serial := same
    omega
  · intro r h
    rcases mem h with rfl | old
    · rw [admits.token]
      exact Nat.le_refl _
    · exact Nat.le_succ_of_le (inv.current r old)

/-- Giving a record back keeps the invariant. -/
theorem LedgerInv.free {slot : Nat} {record : ReservationRecord} (inv : LedgerInv m)
    (used : m.reservations[slot]? = some (some record)) :
    LedgerInv (m.putReservation slot none).advance := by
  have perm := live_of_used used
  have mem {r : ReservationRecord} (h : r ∈ (m.putReservation slot none).live) : r ∈ m.live :=
    perm.mem_iff.mpr (List.mem_cons_of_mem _ h)
  constructor
  · exact fun r h => inv.positive r (mem h)
  · exact fun r h => inv.within r (mem h)
  · exact fun r h => inv.aligned r (mem h)
  · exact (List.pairwise_cons.mp ((perm.pairwise_iff Span.Apart.symm).mp inv.apart)).2
  · exact fun r h => inv.owner r (mem h)
  · exact (List.nodup_cons.mp ((perm.map (·.token.serial)).nodup_iff.mp inv.serials)).2
  · exact fun r h => Nat.le_succ_of_le (inv.current r (mem h))

/-- A write to the backing keeps the invariant: it reaches no record. -/
theorem LedgerInv.write {bytes : Bytes} (inv : LedgerInv m)
    (same : bytes.length = m.backing.bytes.length) :
    LedgerInv (m.setBytes bytes same).advance where
  positive := inv.positive
  within := inv.within
  aligned := inv.aligned
  apart := inv.apart
  owner := inv.owner
  serials := inv.serials
  current := fun r h => Nat.le_succ_of_le (inv.current r h)

/-- Every effect keeps the invariant. -/
theorem Effect.keeps {c : Call ω R} {reply : Reply R} (effect : Effect m c reply m')
    (inv : LedgerInv m) : LedgerInv m' := by
  cases effect with
  | reserved asked free admits => exact inv.fill free admits
  | released used => exact inv.free used
  | copied writable purpose => exact inv.write _
  | committed writable purpose aligned => exact inv.write _
  | lent same => exact inv.write same

/-- An effect moves neither the aperture nor the owner, and is one generation on. -/
theorem Effect.frame {c : Call ω R} {reply : Reply R} (effect : Effect m c reply m') :
    m'.aperture = m.aperture ∧ m'.owner = m.owner ∧ m'.generation = m.generation + 1 := by
  cases effect <;> exact ⟨rfl, rfl, rfl⟩

/-! ### Over whole runs -/

/-- One call keeps the invariant. -/
theorem step_keeps_inv (c : Call ω R) (s : Session ω) (inv : LedgerInv s.ledger) :
    LedgerInv (c.step s).2.ledger := by
  rcases c.step_cases s with ⟨same, _⟩ | ⟨_, _, reply, _, effect⟩
  · rwa [same]
  · exact effect.keeps inv

/-- One call moves neither the aperture nor the owner. -/
theorem step_keeps_identity (c : Call ω R) (s : Session ω) :
    (c.step s).2.ledger.aperture = s.ledger.aperture ∧
      (c.step s).2.ledger.owner = s.ledger.owner := by
  rcases c.step_cases s with ⟨same, _⟩ | ⟨_, _, reply, _, effect⟩
  · rw [same]
    exact ⟨rfl, rfl⟩
  · exact ⟨effect.frame.1, effect.frame.2.1⟩

/-- One call does not lower the generation. -/
theorem generation_le_step (c : Call ω R) (s : Session ω) :
    s.ledger.generation ≤ (c.step s).2.ledger.generation := by
  rcases c.step_cases s with ⟨same, _⟩ | ⟨_, _, reply, _, effect⟩
  · rw [same]
  · rw [effect.frame.2.2]
    exact Nat.le_succ _

theorem after_keeps_inv {s : Session ω} (inv : LedgerInv s.ledger) (calls : List (Call ω R)) :
    LedgerInv (after Call.step s calls).ledger :=
  invariant (P := fun s : Session ω => LedgerInv s.ledger) step_keeps_inv inv calls

theorem after_keeps_identity (s : Session ω) (calls : List (Call ω R)) :
    (after Call.step s calls).ledger.aperture = s.ledger.aperture ∧
      (after Call.step s calls).ledger.owner = s.ledger.owner :=
  invariant
    (P := fun t : Session ω =>
      t.ledger.aperture = s.ledger.aperture ∧ t.ledger.owner = s.ledger.owner)
    (fun c t same => ⟨(step_keeps_identity c t).1.trans same.1,
      (step_keeps_identity c t).2.trans same.2⟩) ⟨rfl, rfl⟩ calls

/-- No run lowers the generation. -/
theorem generation_le_after (s : Session ω) (calls : List (Call ω R)) :
    s.ledger.generation ≤ (after Call.step s calls).ledger.generation :=
  counter_le_after (fun c (t : Session ω) => generation_le_step c t) s calls

/-- A session that a run of calls on a newly built ledger leads to. -/
def Session.Reachable (R : Type) (s : Session ω) : Prop :=
  ∃ base bytes m environment, ∃ calls : List (Call ω R), Built base bytes m ∧
    s = after Call.step ⟨m, environment⟩ calls

theorem Session.Reachable.inv {s : Session ω} (reachable : s.Reachable R) :
    LedgerInv s.ledger := by
  obtain ⟨base, bytes, m, environment, calls, built, rfl⟩ := reachable
  obtain ⟨_, _, none, _⟩ := built.fresh
  exact after_keeps_inv (.of_live_nil none) calls

theorem Session.Reachable.after {s : Session ω} (reachable : s.Reachable R)
    (calls : List (Call ω R)) : (Machine.after Call.step s calls).Reachable R := by
  obtain ⟨base, bytes, m, environment, front, built, rfl⟩ := reachable
  exact ⟨base, bytes, m, environment, front ++ calls, built, (after_append _ front calls).symm⟩

/-- What the records of a ledger over the aperture `[base, base + size)` look like from outside. -/
structure Accounted (base size : Nat) (m : GuestMemory) : Prop where
  nonempty : ∀ r ∈ m.live, 0 < r.extent.bytes
  inside : ∀ r ∈ m.live,
    base ≤ r.extent.address ∧ r.extent.address + r.extent.bytes ≤ base + size
  noWrap : ∀ r ∈ m.live, r.extent.address + r.extent.bytes < 2 ^ 64
  aligned : ∀ r ∈ m.live, (∃ k, r.alignment = 2 ^ k) ∧ r.alignment ∣ r.extent.address
  disjoint : m.live.Pairwise fun a b => Disjoint a.extent.span.bytes b.extent.span.bytes
  owner : ∀ r ∈ m.live, r.token.owner = m.owner
  serials : m.live.Pairwise fun a b => a.token.serial ≠ b.token.serial
  current : ∀ r ∈ m.live, r.token.serial ≤ m.generation

theorem LedgerInv.accounted (inv : LedgerInv m) :
    Accounted m.aperture.address m.aperture.bytes m where
  nonempty := inv.positive
  inside := fun r h => inv.within r h
  noWrap := fun r _ => r.extent.fits
  aligned := inv.aligned
  disjoint := by
    refine inv.apart.imp_of_mem fun {a b} ha hb apart => ?_
    exact (Span.apart_iff_disjoint (inv.positive a ha) (inv.positive b hb)).mp apart
  owner := inv.owner
  serials := List.pairwise_map.mp inv.serials
  current := inv.current

/-- The ledger invariant over whole runs: however a ledger was built and whatever calls were
made on it, its live records are accounted for in its aperture, and the generation has
never decreased on the way. -/
theorem ledger_invariant {base : Nat} {bytes : Bytes} {m : GuestMemory}
    (built : Built base bytes m) (environment : ω) (calls : List (Call ω R)) :
    Accounted base bytes.length (after Call.step ⟨m, environment⟩ calls).ledger ∧
      ∀ front back, calls = front ++ back →
        (after Call.step ⟨m, environment⟩ front).ledger.generation ≤
          (after Call.step ⟨m, environment⟩ calls).ledger.generation := by
  obtain ⟨at_base, size, none, _⟩ := built.fresh
  refine ⟨?_, ?_⟩
  · have inv := after_keeps_inv (s := ⟨m, environment⟩) (.of_live_nil none) calls
    have same := (after_keeps_identity ⟨m, environment⟩ calls).1
    rw [← at_base, ← size, ← same]
    exact inv.accounted
  · rintro front back rfl
    rw [after_append]
    exact generation_le_after _ back

/-- A new ledger over 64 bytes at 4096. -/
def sampleLedger : GuestMemory where
  backing := .owned (List.replicate 64 0)
  aperture := ⟨4096, 64, by decide⟩
  owner := 1
  generation := 0
  reservations := List.replicate maxReservations none
  nonempty := by decide
  backed := rfl
  slots := length_noReservations

theorem sampleLedger_built : Built 4096 (List.replicate 64 0) sampleLedger := ⟨1, .inl rfl⟩

/-- A run with a reservation, a clash, a release and a reuse of the freed slot. -/
theorem ledger_invariant_reuse :
    Accounted 4096 64 (after Call.step (⟨sampleLedger, ()⟩ : Session Unit)
      [(.reserveAt 4096 16 16 .stack : Call Unit Unit), .reserveAt 4104 16 8 .stack,
        .release ⟨1, 1⟩, .allocate 32 8 .kernelImage]).ledger :=
  (ledger_invariant sampleLedger_built () _).1

end Nextcore
