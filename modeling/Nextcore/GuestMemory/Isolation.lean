import Nextcore.GuestMemory.Commit

/-!
Isolation of reservations, and atomicity of errors.

Live records are apart, so a write that stays inside one of them reaches no other
(`Effect.contents_changed`). A call that fails leaves the session as it was, whatever it
had checked before (`error_atomicity`).
-/

namespace Nextcore

open Checked Checked.Outcome GuestMemory Machine

/-- The bytes that a reservation covers, as `read` returns them. -/
def GuestMemory.contents (m : GuestMemory) (record : ReservationRecord) : Bytes :=
  window m.backing.bytes (m.indexOf record 0) record.extent.bytes

variable {ω R : Type} {m m' : GuestMemory}

/-- A write through one record leaves the contents of every other live record. -/
theorem LedgerInv.contents_of_other (inv : LedgerInv m) {record other : ReservationRecord}
    {offset : Nat} {src : Bytes} (writable : m.Writable other offset src)
    (mem : record ∈ m.live) (ne : record ≠ other) :
    (m.overwrite (m.indexOf other offset) src).advance.contents record = m.contents record := by
  have apart := inv.apart.forall mem writable.live ne
  have above := (inv.within record mem).1
  have inside := writable.inside
  have above' := writable.above
  simp only [Span.Apart, Extent.span_start, Extent.span_stop, Extent.endAddress] at apart above
  simp only [contents, advance_backing, overwrite_bytes]
  refine window_overlay_of_apart ?_
  simp only [indexOf, advance_aperture, overwrite_aperture]
  omega

/-- The only effects that change what a live record covers: a copy through its token, a
commit to it, and a loan. -/
theorem Effect.contents_changed {c : Call ω R} {reply : Reply R} (effect : Effect m c reply m')
    (inv : LedgerInv m) {record : ReservationRecord} (mem : record ∈ m.live)
    (changed : m'.contents record ≠ m.contents record) :
    (∃ offset src, c = .copyInto record.token offset src ∧
        record.purpose ≠ .runtimeDeviceTree) ∨
      (∃ patch, c = .commitDeviceTree patch ∧ patch.destination = record.token) ∨
      ∃ loan, c = .withGuestMemory loan := by
  cases effect with
  | reserved | released => exact absurd rfl changed
  | @copied other offset src writable purpose =>
      by_cases same : record = other
      · subst same
        exact .inl ⟨offset, src, rfl, purpose⟩
      · exact absurd (inv.contents_of_other writable mem same) changed
  | @committed other tree writable purpose aligned =>
      by_cases same : record = other
      · subst same
        exact .inr (.inl ⟨_, rfl, rfl⟩)
      · exact absurd (inv.contents_of_other writable mem same) changed
  | @lent loan => exact .inr (.inr ⟨loan, rfl⟩)

/-- What a successful copy has met, and what it leaves. -/
theorem Effect.of_copy {token : ReservationToken} {offset : Nat} {src : Bytes} {reply : Reply R}
    (effect : Effect m (.copyInto token offset src : Call ω R) reply m') :
    ∃ record, m.Writable record offset src ∧ record.purpose ≠ .runtimeDeviceTree ∧
      record.token = token ∧ m' = (m.overwrite (m.indexOf record offset) src).advance := by
  cases effect with
  | reserved asked => exact asked.elim
  | copied writable purpose => exact ⟨_, writable, purpose, rfl, rfl⟩

/-- The calls that may write to the backing. -/
def Call.writes : Call ω R → Bool
  | .copyInto .. => true
  | .commitDeviceTree _ => true
  | .withGuestMemory _ => true
  | _ => false

/-- An effect of a call that does not write leaves the backing. -/
theorem Effect.backing_of_not_writes {c : Call ω R} {reply : Reply R}
    (effect : Effect m c reply m') (looks : c.writes = false) : m'.backing = m.backing := by
  cases effect with
  | reserved | released => rfl
  | copied | committed | lent => cases looks

/-- Reservation isolation. In every reachable session and for every call: the bytes of a live
reservation change only in a successful copy through its own token (unless it holds a
device tree), a successful commit to it, or a loan; a successful copy or commit changes
exactly the sub-range it addresses, inside one live reservation; and every other call
leaves the whole backing. -/
theorem reservation_isolation {s : Session ω} (reachable : s.Reachable R) (c : Call ω R) :
    (∀ record ∈ s.ledger.live,
        (c.step s).2.ledger.contents record ≠ s.ledger.contents record →
        (c.step s).1.isOk = true ∧
          ((∃ offset src, c = .copyInto record.token offset src ∧
              record.purpose ≠ .runtimeDeviceTree) ∨
            (∃ patch, c = .commitDeviceTree patch ∧ patch.destination = record.token) ∨
            ∃ loan, c = .withGuestMemory loan)) ∧
      (∀ token offset src, c = .copyInto token offset src → (c.step s).1.isOk = true →
        ∃ record ∈ s.ledger.live, record.token = token ∧ record.purpose ≠ .runtimeDeviceTree ∧
          s.ledger.aperture.address ≤ record.extent.address ∧
          offset + src.length ≤ record.extent.bytes ∧
          Patched s.ledger.backing.bytes (c.step s).2.ledger.backing.bytes
            (record.extent.address - s.ledger.aperture.address + offset) src) ∧
      (∀ patch, c = .commitDeviceTree patch → (c.step s).1.isOk = true →
        ∃ record ∈ s.ledger.live, record.token = patch.destination ∧
          record.purpose = .runtimeDeviceTree ∧
          s.ledger.aperture.address ≤ record.extent.address ∧
          patch.tree.bytes.length ≤ record.extent.bytes ∧
          Patched s.ledger.backing.bytes (c.step s).2.ledger.backing.bytes
            (record.extent.address - s.ledger.aperture.address) patch.tree.bytes) ∧
      (c.writes = false → (c.step s).2.ledger.backing = s.ledger.backing) := by
  refine ⟨?_, ?_, ?_, ?_⟩
  · intro record mem changed
    rcases c.step_cases s with ⟨same, _⟩ | ⟨_, _, reply, ok, effect⟩
    · rw [same] at changed
      exact absurd rfl changed
    · exact ⟨isOk_iff.mpr ⟨reply, ok⟩, effect.contents_changed reachable.inv mem changed⟩
  · rintro token offset src rfl success
    obtain ⟨reply, ok⟩ := isOk_iff.mp success
    obtain ⟨record, writable, purpose, same, after⟩ := (effect_of_success rfl ok).of_copy
    refine ⟨record, writable.live, same, purpose, writable.above, writable.inside, ?_⟩
    rw [after]
    exact writable.patched
  · rintro patch rfl success
    obtain ⟨reply, ok⟩ := isOk_iff.mp success
    obtain ⟨record, writable, purpose, _, same, _, after⟩ := (effect_of_success rfl ok).of_commit
    refine ⟨record, writable.live, same, purpose, writable.above, ?_, ?_⟩
    · have inside := writable.inside
      rwa [Nat.zero_add] at inside
    · rw [after]
      exact writable.patched
  · intro looks
    rcases c.step_cases s with ⟨same, _⟩ | ⟨_, _, reply, _, effect⟩
    · rw [same]
    · exact effect.backing_of_not_writes looks

/-- Two neighbouring reservations, and a copy into the second. -/
theorem reservation_isolation_neighbours :
    let s : Session Unit := after Call.step ⟨sampleLedger, ()⟩
      [(.reserveAt 4096 16 16 .stack : Call Unit Unit), .reserveAt 4112 16 16 .stack]
    let s' := ((.copyInto ⟨1, 2⟩ 4 [1, 2, 3] : Call Unit Unit).step s).2
    ∃ record ∈ s.ledger.live, record.token = ⟨1, 2⟩ ∧ Patched s.ledger.backing.bytes
      s'.ledger.backing.bytes (record.extent.address - 4096 + 4) [1, 2, 3] := by
  intro s s'
  have reachable : s.Reachable Unit := ⟨4096, _, _, _, _, sampleLedger_built, rfl⟩
  obtain ⟨record, mem, same, _, _, _, patched⟩ :=
    (reservation_isolation reachable (.copyInto ⟨1, 2⟩ 4 [1, 2, 3])).2.1 _ _ _ rfl rfl
  exact ⟨record, mem, same, patched⟩

/-! ### Errors -/

/-- A call that fails leaves the session as it was, and a mutating call that succeeds moves it
one generation on. A loan is refused before its closure could run: whatever the closure,
the same error is returned and neither the ledger nor the environment moves. When the
generation is exhausted no mutating call succeeds. -/
theorem error_atomicity (s : Session ω) (c : Call ω R) :
    (∀ e, (c.step s).1 = .err e → (c.step s).2 = s) ∧
      (∀ loan e, ((Call.withGuestMemory loan : Call ω R).step s).1 = .err e →
        ∀ other : Loan ω R, (Call.withGuestMemory other).step s = (.err e, s)) ∧
      (c.mutates = true → ∀ reply, (c.step s).1 = .ok reply →
        (c.step s).2.ledger.generation = s.ledger.generation + 1) ∧
      (c.mutates = true → s.ledger.generation = 2 ^ 64 - 1 → (c.step s).1.isOk = false) := by
  refine ⟨?_, ?_, ?_, ?_⟩
  · intro e failed
    rcases c.step_cases s with ⟨same, _⟩ | ⟨_, _, reply, ok, _⟩
    · exact same
    · rw [failed] at ok
      cases ok
  · intro loan e refused other
    simp only [Call.step, Call.exec, Exec.on_bind, Session.withGuestMemory, Exec.on_look,
      Exec.on_write, Exec.on_pure] at refused ⊢
    cases next : s.ledger.nextGeneration with
    | ok generation => simp [next] at refused
    | err e' =>
        simp only [next, err.injEq] at refused
        rw [refused]
    | panic => simp [next] at refused
  · intro mutates reply success
    exact (effect_of_success mutates success).frame.2.2
  · intro mutates full
    rcases c.step_cases s with ⟨_, looks⟩ | ⟨_, room, _⟩
    · rw [mutates] at looks
      simpa using looks
    · omega

end Nextcore
