import Nextcore.GuestMemory.Effects
import Nextcore.Lib.Machine

/-!
Calls on a ledger.

`Call` lists the public operations with their arguments and `Call.step` runs one on a
session. `Effect` says, for each successful mutating call, which ledger it leaves; the
inversion lemma `Call.step_cases` reduces every fact about runs to these five cases and
to calls that leave the session as it was.
-/

namespace Nextcore

open Checked Checked.Outcome Checked.Exec GuestMemory Session

/-- A call on a ledger, with its arguments. -/
inductive Call (ω R : Type) where
  | reserveAt (address bytes alignment : Nat) (purpose : Purpose)
  | allocate (bytes alignment : Nat) (purpose : Purpose)
  | release (token : ReservationToken)
  | copyInto (token : ReservationToken) (offset : Nat) (bytes : Bytes)
  | bindDeviceTree (stamp : SnapshotStamp) (destination : ReservationToken)
      (tree : MaterializedTree)
  | commitDeviceTree (prepared : PreparedDeviceTree)
  | withGuestMemory (loan : Loan ω R)
  | read (token : ReservationToken)
  | snapshot

/-- What a successful call returns. -/
inductive Reply (R : Type) where
  | token (token : ReservationToken)
  | done
  | prepared (prepared : PreparedDeviceTree)
  | result (result : R)
  | bytes (bytes : Bytes)
  | view (view : AllocationSnapshot)

namespace Call

variable {ω R : Type}

/-- The program of a call. -/
def exec : Call ω R → Exec (Session ω) Error (Reply R)
  | reserveAt address bytes alignment purpose => do
    let token ← onLedger (GuestMemory.reserveAt address bytes alignment purpose)
    pure (.token token)
  | allocate bytes alignment purpose => do
    let token ← onLedger (GuestMemory.allocate bytes alignment purpose)
    pure (.token token)
  | release token => do
    onLedger (GuestMemory.release token)
    pure .done
  | copyInto token offset bytes => do
    onLedger (GuestMemory.copyInto token offset bytes)
    pure .done
  | bindDeviceTree stamp destination tree => do
    let prepared ← look (·.ledger.bindDeviceTree stamp destination tree)
    pure (.prepared prepared)
  | commitDeviceTree prepared => do
    onLedger (GuestMemory.commitDeviceTree prepared)
    pure .done
  | withGuestMemory loan => do
    let result ← Session.withGuestMemory loan
    pure (.result result)
  | read token => do
    let bytes ← look (·.ledger.read token)
    pure (.bytes bytes)
  | snapshot => look (.ok <| .view ·.ledger.snapshot)

/-- One call: its outcome and the session it leaves. -/
def step (c : Call ω R) (s : Session ω) : Outcome Error (Reply R) × Session ω := c.exec.on s

/-- The calls that take the ledger mutably. -/
def mutates : Call ω R → Bool
  | bindDeviceTree .. => false
  | read _ => false
  | snapshot => false
  | _ => true

/-- What a reservation call asks of the new record. -/
def AsksFor : Call ω R → ReservationRecord → Prop
  | reserveAt address bytes alignment purpose, r =>
      r.extent.address = address ∧ r.extent.bytes = bytes ∧ r.alignment = alignment ∧
        r.purpose = purpose
  | allocate bytes alignment purpose, r =>
      r.extent.bytes = bytes ∧ r.alignment = alignment ∧ r.purpose = purpose
  | _, _ => False

end Call

variable {ω R : Type}

/-- The ledger that a successful mutating call leaves, and its reply. -/
inductive Effect (m : GuestMemory) : Call ω R → Reply R → GuestMemory → Prop where
  | reserved {c : Call ω R} {slot : Nat} {record : ReservationRecord} (asked : c.AsksFor record)
      (free : m.reservations[slot]? = some none) (admits : m.Admits record) :
      Effect m c (.token record.token) (m.putReservation slot (some record)).advance
  | released {slot : Nat} {record : ReservationRecord}
      (used : m.reservations[slot]? = some (some record)) :
      Effect m (.release record.token) .done (m.putReservation slot none).advance
  | copied {record : ReservationRecord} {offset : Nat} {src : Bytes}
      (writable : m.Writable record offset src) (purpose : record.purpose ≠ .runtimeDeviceTree) :
      Effect m (.copyInto record.token offset src) .done
        (m.overwrite (m.indexOf record offset) src).advance
  | committed {record : ReservationRecord} {tree : MaterializedTree}
      (writable : m.Writable record 0 tree.bytes) (purpose : record.purpose = .runtimeDeviceTree)
      (aligned : record.extent.address % 4 = 0) :
      Effect m (.commitDeviceTree ⟨tree, ⟨m.owner, m.generation⟩, record.token⟩) .done
        (m.overwrite (m.indexOf record 0) tree.bytes).advance
  | lent {loan : Loan ω R} {result : R} {bytes : Bytes}
      (same : bytes.length = m.backing.bytes.length) :
      Effect m (.withGuestMemory loan) (.result result) (m.setBytes bytes same).advance

namespace Call

/-- A call that only looks leaves the session alone. -/
theorem step_of_not_mutates {c : Call ω R} (looks : c.mutates = false) (s : Session ω) :
    (c.step s).2 = s := by
  cases c with
  | bindDeviceTree stamp destination tree =>
      simp only [step, exec, on_bind, on_look, on_pure]
      cases s.ledger.bindDeviceTree stamp destination tree <;> rfl
  | read token =>
      simp only [step, exec, on_bind, on_look, on_pure]
      cases s.ledger.read token <;> rfl
  | snapshot => rfl
  | reserveAt | allocate | release | copyInto | commitDeviceTree | withGuestMemory =>
      simp [mutates] at looks

/-- What a call can come to: the session is as it was and the call has not succeeded in
mutating it, or it succeeds with the effect of its kind. -/
def Settles (c : Call ω R) (s : Session ω) : Prop :=
  ((c.step s).2 = s ∧ ((c.step s).1.isOk = true → c.mutates = false)) ∨
    c.mutates = true ∧ s.ledger.generation + 1 < 2 ^ 64 ∧
      ∃ reply, (c.step s).1 = .ok reply ∧ Effect s.ledger c reply (c.step s).2.ledger

/-- A call settles when its ledger method is atomic and has the effect of its kind. -/
private theorem settles_of_ledger {α : Type} {x : Exec GuestMemory Error α} {c : Call ω R}
    (reply : α → Reply R) (program : c.exec = do let a ← onLedger x; pure (reply a))
    (mutates : c.mutates = true) (atomic : Atomic x) {s : Session ω}
    (effect : ∀ a m, x.on s.ledger = (.ok a, m) →
      s.ledger.generation + 1 < 2 ^ 64 ∧ Effect s.ledger c (reply a) m) : c.Settles s := by
  have kept := atomic s.ledger
  unfold Settles step
  rw [program, on_bind, onLedger, on_zoom]
  generalize x.on s.ledger = out at kept effect
  obtain ⟨a | e | _, m⟩ := out
  · obtain ⟨room, has_effect⟩ := effect a m rfl
    exact .inr ⟨mutates, room, reply a, rfl, has_effect⟩
  · simp only [reduceCtorEq, exists_false, false_or] at kept
    exact .inl ⟨by rw [kept], fun ok => by simp [isOk] at ok⟩
  · simp only [reduceCtorEq, exists_false, false_or] at kept
    exact .inl ⟨by rw [kept], fun ok => by simp [isOk] at ok⟩

/-- Every call settles. -/
theorem step_cases (c : Call ω R) (s : Session ω) : c.Settles s := by
  cases c with
  | reserveAt address bytes alignment purpose =>
      refine settles_of_ledger .token rfl rfl (reserveAt_atomic _ _ _ _) fun token m ran => ?_
      obtain ⟨slot, record, free, admits, room, at_address, size, align, purpose, rfl, rfl⟩ :=
        reserveAt_eq_ok ran
      exact ⟨room, .reserved ⟨at_address, size, align, purpose⟩ free admits⟩
  | allocate bytes alignment purpose =>
      refine settles_of_ledger .token rfl rfl (allocate_atomic _ _ _) fun token m ran => ?_
      obtain ⟨candidate, ran⟩ := allocate_eq_ok ran
      obtain ⟨slot, record, free, admits, room, _, size, align, purpose, rfl, rfl⟩ :=
        reserveAt_eq_ok ran
      exact ⟨room, .reserved ⟨size, align, purpose⟩ free admits⟩
  | release token =>
      refine settles_of_ledger (fun _ => .done) rfl rfl (release_atomic _) fun _ m ran => ?_
      obtain ⟨slot, record, used, rfl, room, rfl⟩ := release_eq_ok ran
      exact ⟨room, .released used⟩
  | copyInto token offset src =>
      refine settles_of_ledger (fun _ => .done) rfl rfl (copyInto_atomic _ _ _) fun _ m ran => ?_
      obtain ⟨record, writable, rfl, purpose, room, rfl⟩ := copyInto_eq_ok ran
      exact ⟨room, .copied writable purpose⟩
  | commitDeviceTree prepared =>
      refine settles_of_ledger (fun _ => .done) rfl rfl (commitDeviceTree_atomic _)
        fun _ m ran => ?_
      obtain ⟨record, writable, named, purpose, aligned, current, room, rfl⟩ :=
        commitDeviceTree_eq_ok ran
      obtain ⟨tree, stamp, destination⟩ := prepared
      cases named
      cases current
      exact ⟨room, .committed writable purpose aligned⟩
  | withGuestMemory loan =>
      unfold Settles step
      simp only [exec, on_bind, Session.withGuestMemory, on_look, on_write, on_pure]
      cases next : s.ledger.nextGeneration with
      | ok generation =>
          obtain ⟨room, rfl⟩ := nextGeneration_eq_ok.mp next
          exact .inr ⟨rfl, room, _, rfl, Effect.lent (loan.keepsLength ..)⟩
      | err e => exact .inl ⟨rfl, fun ok => by simp [isOk] at ok⟩
      | panic => exact .inl ⟨rfl, fun ok => by simp [isOk] at ok⟩
  | bindDeviceTree | read | snapshot =>
      exact .inl ⟨step_of_not_mutates rfl s, fun _ => rfl⟩

end Call

end Nextcore
