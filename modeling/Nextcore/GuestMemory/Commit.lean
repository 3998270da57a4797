import Nextcore.GuestMemory.Tokens

/-!
Device-tree patches are committed in the generation they were bound in.

A stamp is a reading of the generation. The generation never falls and every success of
a mutating call raises it (`generation_lt_of_success`), so a stamp that is current at the
commit was current at every step since the snapshot: nothing was mutated in between and
the commit meets the very session that the snapshot saw (`stale_patch_never_commits`).
-/

namespace Nextcore

open Checked Checked.Outcome GuestMemory Machine

variable {ω R : Type}

/-- A successful mutating call raises the generation. -/
theorem generation_lt_of_success {c : Call ω R} {s : Session ω} (mutates : c.mutates = true)
    (success : (c.step s).1.isOk = true) :
    s.ledger.generation < (c.step s).2.ledger.generation := by
  rcases c.step_cases s with ⟨_, looks⟩ | ⟨_, _, reply, _, effect⟩
  · rw [looks success] at mutates
    cases mutates
  · rw [effect.frame.2.2]
    exact Nat.lt_succ_self _

/-- A call that leaves the generation leaves the session. -/
theorem session_eq_of_generation_eq (c : Call ω R) (s : Session ω)
    (unmoved : (c.step s).2.ledger.generation = s.ledger.generation) : (c.step s).2 = s := by
  rcases c.step_cases s with ⟨same, _⟩ | ⟨_, _, reply, _, effect⟩
  · exact same
  · rw [effect.frame.2.2] at unmoved
    exact absurd unmoved (Nat.succ_ne_self _)

/-- What a successful commit has met, and what it leaves. -/
theorem Effect.of_commit {m m' : GuestMemory} {patch : PreparedDeviceTree} {reply : Reply R}
    (effect : Effect m (.commitDeviceTree patch : Call ω R) reply m') :
    ∃ record, m.Writable record 0 patch.tree.bytes ∧ record.purpose = .runtimeDeviceTree ∧
      record.extent.address % 4 = 0 ∧ record.token = patch.destination ∧
      patch.stamp = ⟨m.owner, m.generation⟩ ∧
      m' = (m.overwrite (m.indexOf record 0) patch.tree.bytes).advance := by
  cases effect with
  | reserved asked => exact asked.elim
  | committed writable purpose aligned => exact ⟨_, writable, purpose, aligned, rfl, rfl, rfl⟩

theorem effect_of_success {c : Call ω R} {s : Session ω} {reply : Reply R}
    (mutates : c.mutates = true) (success : (c.step s).1 = .ok reply) :
    Effect s.ledger c reply (c.step s).2.ledger := by
  rcases c.step_cases s with ⟨_, looks⟩ | ⟨_, _, reply', ok, effect⟩
  · rw [looks (isOk_iff.mpr ⟨reply, success⟩)] at mutates
    cases mutates
  · rw [success] at ok
    cases ok
    exact effect

/-- The stamp of a patch that an event committed. -/
def committedStamp (e : Event (Session ω) (Call ω R) (Outcome Error (Reply R))) :
    Option SnapshotStamp :=
  match e.call, e.reply with
  | .commitDeviceTree patch, .ok _ => some patch.stamp
  | _, _ => none

theorem committedStamp_eq_some {e : Event (Session ω) (Call ω R) (Outcome Error (Reply R))}
    {stamp : SnapshotStamp} (committed : committedStamp e = some stamp) :
    ∃ patch reply, e.call = .commitDeviceTree patch ∧ e.reply = .ok reply ∧
      patch.stamp = stamp := by
  unfold committedStamp at committed
  split at committed
  · cases committed
    exact ⟨_, _, ‹_›, ‹_›, rfl⟩
  · cases committed

/-- No two commits of a run carry the same stamp. -/
theorem committedStamp_nodup (s : Session ω) (calls : List (Call ω R)) :
    ((history Call.step s calls).filterMap committedStamp).Nodup := by
  have stays (c : Call ω R) (s : Session ω) (stamp : SnapshotStamp) (_ : True)
      (past : stamp.generation < s.ledger.generation) :
      stamp.generation < (c.step s).2.ledger.generation :=
    Nat.lt_of_lt_of_le past (generation_le_step c s)
  have fresh (c : Call ω R) (s : Session ω) (stamp : SnapshotStamp) (_ : True)
      (committed : committedStamp ⟨s, c, (c.step s).1⟩ = some stamp) :
      ¬ stamp.generation < s.ledger.generation ∧
        stamp.generation < (c.step s).2.ledger.generation := by
    obtain ⟨patch, reply, rfl, success, rfl⟩ := committedStamp_eq_some committed
    have raised := generation_lt_of_success rfl (isOk_iff.mpr ⟨reply, success⟩)
    obtain ⟨record, _, _, _, _, current, _⟩ := (effect_of_success rfl success).of_commit
    rw [current]
    exact ⟨Nat.lt_irrefl _, raised⟩
  exact (nodup_marks (P := fun _ => True) (fun _ _ _ => trivial) stays fresh trivial calls).1

/-- What a successful binding returns, and that its destination is there. -/
theorem bindDeviceTree_eq_ok {s : Session ω} {stamp : SnapshotStamp}
    {destination : ReservationToken} {tree : MaterializedTree} {patch : PreparedDeviceTree}
    (bound : ((Call.bindDeviceTree stamp destination tree : Call ω R).step s).1 =
      .ok (.prepared patch)) :
    patch = ⟨tree, stamp, destination⟩ ∧ stamp = ⟨s.ledger.owner, s.ledger.generation⟩ ∧
      ∃ record, s.ledger.record destination = .ok record := by
  have returned : s.ledger.bindDeviceTree stamp destination tree = .ok patch := by
    simp only [Call.step, Call.exec, Exec.on_bind, Exec.on_look, Exec.on_pure] at bound
    cases made : s.ledger.bindDeviceTree stamp destination tree with
    | ok patch' =>
        rw [made] at bound
        cases bound
        rfl
    | err e => simp [made] at bound
    | panic => simp [made] at bound
  simp only [GuestMemory.bindDeviceTree, bind_eq_ok, exists_const, validateStamp_eq_ok,
    dtRange_eq_ok, pure_eq, ok.injEq] at returned
  obtain ⟨⟨owner, generation⟩, _, ⟨record, found, _⟩, rfl⟩ := returned
  refine ⟨rfl, ?_, record, found⟩
  rw [← owner, ← generation]

/-- Stale device-tree patches are never committed. When a tree is bound to the stamp of a
snapshot and the patch is committed later, every mutating call since the snapshot has
failed; the destination's record and the backing are the ones seen then; the commit writes
the tree over the first bytes of the destination and nothing else; and no run commits two
patches with one stamp. -/
theorem stale_patch_never_commits {s : Session ω} (reachable : s.Reachable R)
    {mid post : List (Call ω R)} {destination : ReservationToken} {tree : MaterializedTree}
    {patch : PreparedDeviceTree}
    (bound : ((Call.bindDeviceTree s.ledger.snapshot.stamp destination tree : Call ω R).step
      (after Call.step s mid)).1 = .ok (.prepared patch))
    (committed : ((Call.commitDeviceTree patch : Call ω R).step (after Call.step s
      (mid ++ .bindDeviceTree s.ledger.snapshot.stamp destination tree :: post))).1 = .ok .done) :
    let between := mid ++ .bindDeviceTree s.ledger.snapshot.stamp destination tree :: post
    let seen := after Call.step s mid
    let met := after Call.step s between
    let left := ((Call.commitDeviceTree patch : Call ω R).step met).2
    (∀ e ∈ history Call.step s between, ¬ (e.call.mutates = true ∧ e.reply.isOk = true)) ∧
      met.ledger.backing = s.ledger.backing ∧
      (∃ record, seen.ledger.record destination = .ok record ∧
        met.ledger.record destination = .ok record ∧ record.purpose = .runtimeDeviceTree ∧
        record.extent.address % 4 = 0 ∧ met.ledger.aperture.address ≤ record.extent.address ∧
        tree.bytes.length ≤ record.extent.bytes ∧
        Patched met.ledger.backing.bytes left.ledger.backing.bytes
          (record.extent.address - met.ledger.aperture.address) tree.bytes) ∧
      ∀ (t : Session ω) (calls : List (Call ω R)),
        ((history Call.step t calls).filterMap committedStamp).Nodup := by
  intro between seen met left
  obtain ⟨rfl, at_bind, _⟩ := bindDeviceTree_eq_ok bound
  obtain ⟨record, writable, purpose, aligned, same, current, after⟩ :=
    (effect_of_success rfl committed).of_commit
  -- The generation at the commit is the one of the snapshot.
  have unmoved : met.ledger.generation = s.ledger.generation :=
    (congrArg SnapshotStamp.generation current).symm
  have unmoved_at_bind : seen.ledger.generation = s.ledger.generation :=
    (congrArg SnapshotStamp.generation at_bind).symm
  have met_eq : met = s :=
    after_eq_of_unmoved generation_le_step session_eq_of_generation_eq unmoved
  have seen_eq : seen = s :=
    after_eq_of_unmoved generation_le_step session_eq_of_generation_eq unmoved_at_bind
  have looked_up : met.ledger.record destination = .ok record := by
    rw [← show record.token = destination from same]
    exact (reachable.after between).inv.record_of_live writable.live
  refine ⟨?_, ?_, ⟨record, ?_, looked_up, purpose, aligned, writable.above, ?_, ?_⟩,
    committedStamp_nodup⟩
  · exact quiet_of_unmoved generation_le_step
      (fun c s success => generation_lt_of_success success.1 success.2) unmoved
  · rw [met_eq]
  · rw [seen_eq, ← met_eq]
    exact looked_up
  · have inside := writable.inside
    rwa [Nat.zero_add] at inside
  · have patched := writable.patched
    rw [← after] at patched
    exact patched

/-- A snapshot, a read, a binding, a refused release, and the commit. -/
theorem stale_patch_never_commits_fresh :
    ∃ record,
      (after Call.step (⟨sampleLedger, ()⟩ : Session Unit)
        [(.reserveAt 4096 16 8 .runtimeDeviceTree : Call Unit Unit),
          .read ⟨1, 1⟩]).ledger.record ⟨1, 1⟩ = .ok record ∧
        record.purpose = .runtimeDeviceTree := by
  have reachable : (after Call.step (⟨sampleLedger, ()⟩ : Session Unit)
      [(.reserveAt 4096 16 8 .runtimeDeviceTree : Call Unit Unit)]).Reachable Unit :=
    ⟨4096, _, _, _, _, sampleLedger_built, rfl⟩
  obtain ⟨record, seen, _, purpose, _⟩ := (@stale_patch_never_commits Unit Unit _ reachable
    [.read ⟨1, 1⟩] [.release ⟨1, 9⟩] ⟨1, 1⟩ ⟨[1, 2, 3]⟩
    ⟨⟨[1, 2, 3]⟩, ⟨1, 1⟩, ⟨1, 1⟩⟩ rfl rfl).2.2.1
  exact ⟨record, seen, purpose⟩

end Nextcore
