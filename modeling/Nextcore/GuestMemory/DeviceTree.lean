import Nextcore.GuestMemory.Refine
import Nextcore.RuntimeDt.Reordered

/-!
A prepared device tree in guest memory.

A reservation for a device tree takes no copies, so what is committed to it stays until it is
released, committed to again or lent out (`tree_of_run`). With what `prepare` returns, the
reservation holds the source's tree with the bindings in place (`committed_tree_stays`).
-/

namespace Nextcore

open Checked Checked.Outcome GuestMemory Machine Buffers
open FirmwareDt (FirmwareDeviceTree)

variable {ω R : Type}

/-- The calls that may change what a reservation for a device tree holds, or take it away. -/
def Call.Reaches (destination : ReservationToken) : Call ω R → Prop
  | .release token => token = destination
  | .commitDeviceTree prepared => prepared.destination = destination
  | .withGuestMemory _ => True
  | _ => False

/-- A call leaves a device tree alone, unless it succeeds in reaching it. -/
theorem tree_of_step {s : Session ω} (inv : LedgerInv s.ledger) {record : ReservationRecord}
    (mem : record ∈ s.ledger.live) (purpose : record.purpose = .runtimeDeviceTree) (c : Call ω R)
    (calm : (c.step s).1.isOk = true → ¬ c.Reaches record.token) :
    record ∈ (c.step s).2.ledger.live ∧
      (c.step s).2.ledger.contents record = s.ledger.contents record := by
  rcases c.step_cases s with ⟨same, _⟩ | ⟨_, _, reply, ok, effect⟩
  · rw [same]
    exact ⟨mem, rfl⟩
  · have apart := calm (isOk_iff.mpr ⟨reply, ok⟩)
    refine ⟨(effect.kept_or_released mem).resolve_right fun released => ?_, ?_⟩
    · rw [released] at apart
      exact apart rfl
    · by_contra changed
      rcases effect.contents_changed inv mem changed with
        ⟨_, _, _, other⟩ | ⟨patch, committed, here⟩ | ⟨loan, lent⟩
      · exact other purpose
      · rw [committed] at apart
        exact apart here
      · rw [lent] at apart
        exact apart trivial

theorem tree_of_run {s : Session ω} (inv : LedgerInv s.ledger) {record : ReservationRecord}
    (mem : record ∈ s.ledger.live) (purpose : record.purpose = .runtimeDeviceTree)
    (calls : List (Call ω R))
    (calm : ∀ e ∈ history Call.step s calls, e.reply.isOk = true → ¬ e.call.Reaches record.token) :
    record ∈ (after Call.step s calls).ledger.live ∧
      (after Call.step s calls).ledger.contents record = s.ledger.contents record := by
  induction calls generalizing s with
  | nil => exact ⟨mem, rfl⟩
  | cons c rest ih =>
      obtain ⟨here, later⟩ := List.forall_mem_cons.mp calm
      obtain ⟨live, same⟩ := tree_of_step inv mem purpose c here
      obtain ⟨live', same'⟩ := ih (step_keeps_inv c s inv) live later
      exact ⟨live', same'.trans same⟩

theorem Effect.done_of_commit {m m' : GuestMemory} {prepared : PreparedDeviceTree}
    {reply : Reply R} (effect : Effect m (.commitDeviceTree prepared : Call ω R) reply m') :
    reply = .done := by
  cases effect with
  | reserved asked => exact asked.elim
  | committed => rfl

/-- What is read of a live reservation. -/
theorem read_contents {m : GuestMemory} (inv : LedgerInv m) {record : ReservationRecord}
    (mem : record ∈ m.live) : m.read record.token = .ok (m.contents record) :=
  inv.read_of_live mem

/-- A prepared tree that is committed stays in its reservation. Until the reservation is released,
another tree is committed to it or the memory is lent out, it reads as the output of `prepare` with
what was there behind it; and that output is a runtime tree, the one of the source with the
bindings in place of its templates. -/
theorem committed_tree_stays [RuntimeDt.Sha256] {source : Bytes}
    {provided : List RuntimeDt.ProvidedValue} {maximumOutput : Nat}
    {tree : RuntimeDt.MaterializedTree}
    (prepared : RuntimeDt.prepare source provided maximumOutput = .ok tree) {s : Session ω}
    (reachable : s.Reachable R) {stamp : SnapshotStamp} {destination : ReservationToken}
    (committed : ((Call.commitDeviceTree ⟨⟨tree.bytes⟩, stamp, destination⟩ : Call ω R).step s).1 =
      .ok .done) :
    let left := ((Call.commitDeviceTree ⟨⟨tree.bytes⟩, stamp, destination⟩ : Call ω R).step s).2
    (∃ held, s.ledger.read destination = .ok held ∧ tree.bytes.length ≤ held.length ∧
      ∀ calls : List (Call ω R),
        (∀ e ∈ history Call.step left calls, e.reply.isOk = true →
          ¬ e.call.Reaches destination) →
        (after Call.step left calls).ledger.read destination =
          .ok (tree.bytes ++ held.drop tree.bytes.length)) ∧
      ∃ parsed output, FirmwareDeviceTree.parse source = .ok parsed ∧
        FirmwareDeviceTree.parse tree.bytes = .ok output ∧
        RuntimeDt.NodeSubstituted provided parsed.root output.root ∧
        FlatDt.validate tree.bytes = .ok () := by
  intro left
  refine ⟨?_, ?_⟩
  · obtain ⟨record, writable, purpose, _, same, _, leaves⟩ :=
      (effect_of_success rfl committed).of_commit
    dsimp only at same
    subst same
    have inv := reachable.inv
    have mem := writable.live
    refine ⟨s.ledger.contents record, read_contents inv mem, ?_, fun calls calm => ?_⟩
    · rw [inv.length_contents mem]
      simpa using writable.inside
    · have live : record ∈ left.ledger.live := by
        rw [show left.ledger = _ from leaves]
        exact mem
      have inv' : LedgerInv left.ledger := step_keeps_inv _ s inv
      obtain ⟨kept, same⟩ := tree_of_run inv' live purpose calls calm
      have written : left.ledger.contents record =
          patch (s.ledger.contents record) 0 tree.bytes := by
        rw [show left.ledger = _ from leaves]
        exact inv.contents_of_write writable
      rw [read_contents (after_keeps_inv inv' calls) kept, same, written, patch, List.take_zero,
        List.nil_append, Nat.zero_add]
  · obtain ⟨parsed, output, parse, parse', substituted⟩ := RuntimeDt.output_of_prepared prepared
    exact ⟨parsed, output, parse, parse', substituted, RuntimeDt.accepted_of_prepared prepared⟩

/-- A ledger over 128 bytes at 4096. -/
def roomyLedger : GuestMemory where
  backing := .owned (List.replicate 128 0)
  aperture := ⟨4096, 128, by decide⟩
  owner := 1
  generation := 0
  reservations := List.replicate maxReservations none
  nonempty := by decide
  backed := rfl
  slots := length_noReservations

/-- The sample with its template bound. -/
def sampleOutput : Bytes :=
  toLeBytes 4 2 ++ toLeBytes 4 0 ++ padded 32 (asBytes "name") ++ [1, 0, 0, 0, 0, 0, 0, 0] ++
    padded 32 (asBytes "model") ++ [2, 0, 0, 0, 7, 8, 0, 0]

/-- The sample is committed, and read after a reservation next to it. -/
theorem committed_tree_stays_sample :
    let s : Session Unit := after Call.step ⟨roomyLedger, ()⟩
      [(.reserveAt 4096 96 8 .runtimeDeviceTree : Call Unit Unit)]
    let left := ((Call.commitDeviceTree ⟨⟨sampleOutput⟩, ⟨1, 1⟩, ⟨1, 1⟩⟩ : Call Unit Unit).step s).2
    (after Call.step left [(.reserveAt 4192 8 8 .stack : Call Unit Unit),
        .copyInto ⟨1, 3⟩ 0 [1], .copyInto ⟨1, 1⟩ 0 [1]]).ledger.read ⟨1, 1⟩ =
      .ok (sampleOutput ++ List.replicate 8 0) := by
  intro s left
  obtain ⟨tree, prepared, bytes⟩ : ∃ tree, @RuntimeDt.prepare RuntimeDt.sampleSha256
      RuntimeDt.sampleSource [⟨⟨RuntimeDt.sampleSha256.digest RuntimeDt.sampleSource, 48⟩,
        "board", [7, 8]⟩] 4096 = .ok tree ∧ tree.bytes = sampleOutput := by
    have made : ((@RuntimeDt.prepare RuntimeDt.sampleSha256
        RuntimeDt.sampleSource [⟨⟨RuntimeDt.sampleSha256.digest RuntimeDt.sampleSource, 48⟩,
          "board", [7, 8]⟩] 4096).bind fun tree => .ok tree.bytes) = .ok sampleOutput := by
      decide +kernel
    obtain ⟨tree, prepared, same⟩ := bind_eq_ok.mp made
    exact ⟨tree, prepared, ok.inj same⟩
  have built : Built 4096 (List.replicate 128 0) roomyLedger := ⟨1, .inl (by decide +kernel)⟩
  have reachable : s.Reachable Unit := ⟨4096, _, _, _, _, built, rfl⟩
  have committed : ((Call.commitDeviceTree ⟨⟨tree.bytes⟩, ⟨1, 1⟩, ⟨1, 1⟩⟩ : Call Unit Unit).step
      s).1 = .ok .done := by
    rw [bytes]
    obtain ⟨reply, done⟩ := isOk_iff.mp (by decide +kernel : ((Call.commitDeviceTree
      ⟨⟨sampleOutput⟩, ⟨1, 1⟩, ⟨1, 1⟩⟩ : Call Unit Unit).step s).1.isOk = true)
    rw [done, (effect_of_success rfl done).done_of_commit]
  obtain ⟨⟨held, reads, _, stays⟩, _⟩ :=
    @committed_tree_stays _ _ RuntimeDt.sampleSha256 _ _ _ _ prepared _ reachable _ _ committed
  have zeros : s.ledger.read ⟨1, 1⟩ = .ok (List.replicate 96 0) := by decide +kernel
  rw [zeros] at reads
  cases reads
  rw [bytes] at stays
  refine stays _ ?_
  simp [history, Call.Reaches]

end Nextcore
