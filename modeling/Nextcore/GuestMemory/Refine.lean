import Nextcore.GuestMemory.Isolation
import Nextcore.GuestMemory.Tokens
import Nextcore.Lib.Buffers

/-!
The ledger as a heap of independent buffers.

`heapOf` forgets the backing, the slots and the generation: a token of a live reservation leads to
its record and the bytes it covers. Every call acts on that heap as its kind says (`opOf`), so no
run of calls can tell the shared backing from buffers that were never one (`heap_refines`).
-/

namespace Nextcore

open Checked Checked.Outcome GuestMemory Machine Buffers

namespace GuestMemory

/-- The live reservations as buffers, with their records for labels. -/
def heapOf (m : GuestMemory) : Heap ReservationToken ReservationRecord UInt8 := fun token =>
  (m.live.find? fun record => record.token = token).map fun record => ⟨record, m.contents record⟩

end GuestMemory

variable {ω R : Type}

/-- What a call does to the reservations, by what it has returned. -/
def opOf : Call ω R → Outcome Error (Reply R) → Op ReservationToken UInt8
  | _, .ok (.token token) => .create token
  | .release token, .ok _ => .destroy token
  | .copyInto token offset bytes, .ok _ => .write token offset bytes
  | .commitDeviceTree prepared, .ok _ => .write prepared.destination 0 prepared.tree.bytes
  | .withGuestMemory _, .ok _ => .scramble
  | _, _ => .look

/-- What an event of a history did to the reservations. -/
def opOfEvent (e : Event (Session ω) (Call ω R) (Outcome Error (Reply R))) :
    Op ReservationToken UInt8 := opOf e.call e.reply

variable {m m' : GuestMemory}

/-! ### The heap of a ledger -/

/-- Two live records with one token are one record. -/
theorem LedgerInv.eq_of_token (inv : LedgerInv m) {a b : ReservationRecord} (left : a ∈ m.live)
    (right : b ∈ m.live) (same : a.token = b.token) : a = b :=
  List.inj_on_of_nodup_map inv.serials left right (congrArg ReservationToken.serial same)

theorem heapOf_of_live (inv : LedgerInv m) {record : ReservationRecord} (mem : record ∈ m.live) :
    heapOf m record.token = some ⟨record, m.contents record⟩ := by
  have found : m.live.find? (fun other => other.token = record.token) = some record := by
    cases search : m.live.find? (fun other => other.token = record.token) with
    | none =>
        have absent := List.find?_eq_none.mp search record mem
        simp at absent
    | some other =>
        have same : other.token = record.token := by simpa using List.find?_some search
        rw [inv.eq_of_token (List.mem_of_find?_eq_some search) mem same]
  rw [heapOf, found, Option.map_some]

theorem heapOf_of_gone {token : ReservationToken} (gone : ∀ r ∈ m.live, r.token ≠ token) :
    heapOf m token = none := by
  rw [heapOf, Option.map_eq_none_iff, List.find?_eq_none]
  exact fun r mem => by simpa using gone r mem

theorem heapOf_of_fresh (none : m.live = []) : heapOf m = fun _ => Option.none :=
  funext fun _ => heapOf_of_gone fun r mem => by
    rw [none] at mem
    cases mem

/-- A token leads to a live record or to nothing. -/
theorem heapOf_cases (inv : LedgerInv m) (token : ReservationToken) :
    (∃ record ∈ m.live, record.token = token ∧
        heapOf m token = some ⟨record, m.contents record⟩) ∨
      (∀ r ∈ m.live, r.token ≠ token) ∧ heapOf m token = none := by
  by_cases live : ∃ record ∈ m.live, record.token = token
  · obtain ⟨record, mem, rfl⟩ := live
    exact .inl ⟨record, mem, rfl, heapOf_of_live inv mem⟩
  · have gone : ∀ r ∈ m.live, r.token ≠ token := fun r mem same => live ⟨r, mem, same⟩
    exact .inr ⟨gone, heapOf_of_gone gone⟩

/-- The heaps of two ledgers agree on a token when the ledgers do on its record. -/
theorem heapOf_congr (inv : LedgerInv m) (inv' : LedgerInv m') {token : ReservationToken}
    (live : ∀ r, r.token = token → (r ∈ m'.live ↔ r ∈ m.live))
    (contents : ∀ r ∈ m.live, r.token = token → m'.contents r = m.contents r) :
    heapOf m' token = heapOf m token := by
  rcases heapOf_cases inv token with ⟨record, mem, rfl, has⟩ | ⟨gone, has⟩
  · rw [has, heapOf_of_live inv' ((live record rfl).mpr mem), contents record mem rfl]
  · rw [has]
    exact heapOf_of_gone fun r mem same => gone r ((live r same).mp mem) same

/-- Reading a token is looking it up in the heap. -/
theorem read_eq_heapOf (inv : LedgerInv m) (token : ReservationToken) :
    m.read token = match heapOf m token with
      | some buffer => .ok buffer.cells
      | none => .err (if token.owner = m.owner then .releasedReservation else .foreignOwner) := by
  rcases heapOf_cases inv token with ⟨record, mem, rfl, has⟩ | ⟨gone, has⟩
  · rw [has, inv.read_of_live mem]
    rfl
  · rw [has]
    by_cases own : token.owner = m.owner
    · rw [if_pos own]
      exact (rejects_of_slot (slot_of_released own gone)).read
    · rw [if_neg own]
      exact (rejects_of_slot (slot_of_foreign own)).read

/-! ### One call -/

/-- A window that is written inside is the window with the write put in. -/
theorem window_overlay_inside {bytes src : Bytes} {start size offset : Nat}
    (backed : start + size ≤ bytes.length) (inside : offset + src.length ≤ size) :
    window (overlay bytes (start + offset) src) start size =
      patch (window bytes start size) offset src := by
  have sized := length_window backed
  rw [patch, List.append_assoc, ← overlay_eq_append (by rw [sized]; exact inside)]
  apply List.ext_getElem?
  intro i
  rw [getElem?_window, getElem?_overlay, getElem?_overlay, getElem?_window, sized]
  by_cases small : i < size
  · rw [if_pos small, if_pos small, show start + i - (start + offset) = i - offset by omega]
    congr 1
    rw [eq_iff_iff]
    omega
  · rw [if_neg small, if_neg small, if_neg (by omega)]

/-- A live record lies in the backing. -/
theorem LedgerInv.backed_of_live (inv : LedgerInv m) {record : ReservationRecord}
    (mem : record ∈ m.live) :
    m.indexOf record 0 + record.extent.bytes ≤ m.backing.bytes.length := by
  have range := inv.range_of_live mem (Nat.le_of_eq (Nat.zero_add record.extent.bytes))
  obtain ⟨_, _, backed, _⟩ := range_eq_ok.mp range
  rwa [m.backed] at backed

theorem LedgerInv.length_contents (inv : LedgerInv m) {record : ReservationRecord}
    (mem : record ∈ m.live) : (m.contents record).length = record.extent.bytes :=
  length_window (inv.backed_of_live mem)

/-- The contents of a reservation behind a write to it. -/
theorem LedgerInv.contents_of_write (inv : LedgerInv m) {record : ReservationRecord}
    {offset : Nat} {src : Bytes} (writable : m.Writable record offset src) :
    (m.overwrite (m.indexOf record offset) src).advance.contents record =
      patch (m.contents record) offset src := by
  rw [contents, advance_backing, overwrite_bytes]
  exact window_overlay_inside (inv.backed_of_live writable.live) writable.inside

/-- A write to one reservation, seen in the heap. -/
theorem heapOf_write (inv : LedgerInv m) {record : ReservationRecord} {offset : Nat} {src : Bytes}
    (writable : m.Writable record offset src) :
    heapOf (m.overwrite (m.indexOf record offset) src).advance =
      Function.update (heapOf m) record.token
        (some ⟨record, patch (m.contents record) offset src⟩) := by
  have mem := writable.live
  have inv' : LedgerInv (m.overwrite (m.indexOf record offset) src).advance := inv.write _
  funext token
  by_cases same : token = record.token
  · rw [same, Function.update_self, heapOf_of_live inv' mem,
      inv.contents_of_write writable]
  · rw [Function.update_of_ne same]
    refine heapOf_congr inv inv' (fun _ _ => Iff.rfl) fun r live named => ?_
    exact inv.contents_of_other writable live fun equal => same (by rw [← named, equal])

/-- A call that has mutated the ledger has done its operation to the heap. -/
theorem Effect.step_heap {c : Call ω R} {reply : Reply R} (effect : Effect m c reply m')
    (inv : LedgerInv m) : Step (heapOf m) (opOf c (.ok reply)) (heapOf m') := by
  have inv' := effect.keeps inv
  cases effect with
  | @reserved _ slot record asked free admits =>
      have perm := live_putReservation free record
      -- The serial of the new record is above every serial in use.
      have unused : ∀ r ∈ m.live, r.token ≠ record.token := by
        intro r mem same
        have bound := inv.current r mem
        rw [same, admits.token] at bound
        exact absurd bound (Nat.not_succ_le_self _)
      have filled : heapOf (m.putReservation slot (some record)).advance =
          Function.update (heapOf m) record.token (some ⟨record, m.contents record⟩) := by
        funext token
        by_cases same : token = record.token
        · rw [same, Function.update_self, heapOf_of_live inv' (perm.mem_iff.mpr List.mem_cons_self)]
          rfl
        · rw [Function.update_of_ne same]
          refine heapOf_congr inv inv' (fun r named => ?_) fun _ _ _ => rfl
          rw [advance_live, perm.mem_iff, List.mem_cons]
          exact or_iff_right fun equal => same (by rw [← named, equal])
      rw [filled]
      exact .create (heapOf_of_gone unused) _
  | @released slot record used =>
      have perm := live_of_used used
      have live : record ∈ m.live := perm.mem_iff.mpr List.mem_cons_self
      have kept : ∀ r, r ∈ (m.putReservation slot none).live → r ∈ m.live :=
        fun r mem => perm.mem_iff.mpr (List.mem_cons_of_mem _ mem)
      have fresh := (perm.map (·.token.serial)).nodup_iff.mp inv.serials
      have gone : ∀ r ∈ (m.putReservation slot none).live, r.token ≠ record.token :=
        fun r mem same => (List.nodup_cons.mp fresh).1
          (List.mem_map.mpr ⟨r, mem, congrArg ReservationToken.serial same⟩)
      have freed : heapOf (m.putReservation slot none).advance =
          Function.update (heapOf m) record.token none := by
        funext token
        by_cases same : token = record.token
        · rw [same, Function.update_self]
          exact heapOf_of_gone gone
        · rw [Function.update_of_ne same]
          refine heapOf_congr inv inv' (fun r named => ⟨kept r, fun mem => ?_⟩) fun _ _ _ => rfl
          refine (List.mem_cons.mp (perm.mem_iff.mp mem)).resolve_left fun equal => same ?_
          rw [← named, equal]
      rw [freed]
      exact .destroy (heapOf_of_live inv live)
  | @copied record offset src writable purpose =>
      rw [heapOf_write inv writable]
      refine .write (heapOf_of_live inv writable.live) ?_
      rw [inv.length_contents writable.live]
      exact writable.inside
  | @committed record tree writable purpose aligned =>
      rw [heapOf_write inv writable]
      refine .write (heapOf_of_live inv writable.live) ?_
      rw [inv.length_contents writable.live]
      exact writable.inside
  | @lent loan result bytes same =>
      refine .scramble fun token => ?_
      rcases heapOf_cases inv token with ⟨record, mem, rfl, has⟩ | ⟨gone, has⟩
      · have mem' : record ∈ (m.setBytes bytes same).advance.live := mem
        rw [has, heapOf_of_live inv' mem', Option.map_some, Option.map_some, Buffer.shape,
          Buffer.shape, inv.length_contents mem, inv'.length_contents mem']
      · have gone' : ∀ r ∈ (m.setBytes bytes same).advance.live, r.token ≠ token := gone
        rw [has, heapOf_of_gone gone']

/-- A call that has not mutated the ledger only looks at the heap. -/
theorem opOf_of_looks {c : Call ω R} {s : Session ω}
    (looks : (c.step s).1.isOk = true → c.mutates = false) : opOf c (c.step s).1 = .look := by
  cases answer : (c.step s).1 with
  | err e => cases c <;> rfl
  | panic => cases c <;> rfl
  | ok reply =>
      have still := looks (isOk_iff.mpr ⟨reply, answer⟩)
      cases reply with
      | token token =>
          rw [Call.mutates_of_token answer] at still
          cases still
      | done | prepared | result | bytes | view =>
          cases c with
          | bindDeviceTree | read | snapshot => rfl
          | reserveAt | allocate | release | copyInto | commitDeviceTree | withGuestMemory =>
              cases still

/-- Every call, answered or refused, does its operation to the heap. -/
theorem step_heap (c : Call ω R) {s : Session ω} (inv : LedgerInv s.ledger) :
    Step (heapOf s.ledger) (opOf c (c.step s).1) (heapOf (c.step s).2.ledger) := by
  rcases c.step_cases s with ⟨same, looks⟩ | ⟨_, _, reply, ok, effect⟩
  · rw [same, opOf_of_looks looks]
    exact .look
  · rw [ok]
    exact effect.step_heap inv

/-! ### Whole runs -/

/-- Every run of calls is a run of the heap. -/
theorem run_heap {s : Session ω} (inv : LedgerInv s.ledger) (calls : List (Call ω R)) :
    Run (heapOf s.ledger) ((history Call.step s calls).map opOfEvent)
      (heapOf (after Call.step s calls).ledger) := by
  induction calls generalizing s with
  | nil => exact .nil
  | cons c rest ih => exact .cons (step_heap c inv) (ih (step_keeps_inv c s inv))

/-- The ledger refines the heap: from a ledger that has just been built every run of calls is a
run of independent buffers from none, and reading a token is looking it up among them. -/
theorem heap_refines {base : Nat} {bytes : Bytes} {m : GuestMemory} (built : Built base bytes m)
    (environment : ω) (calls : List (Call ω R)) :
    let s := after Call.step ⟨m, environment⟩ calls
    Run (fun _ => none) ((history Call.step ⟨m, environment⟩ calls).map opOfEvent)
        (heapOf s.ledger) ∧
      ∀ token, s.ledger.read token = match heapOf s.ledger token with
        | some buffer => .ok buffer.cells
        | none => .err
            (if token.owner = s.ledger.owner then .releasedReservation else .foreignOwner) := by
  intro s
  obtain ⟨_, _, empty, _⟩ := built.fresh
  have start : LedgerInv (Session.mk m environment).ledger := .of_live_nil empty
  refine ⟨?_, read_eq_heapOf (after_keeps_inv start calls)⟩
  rw [← heapOf_of_fresh (m := m) empty]
  exact run_heap start calls

/-- A refused reservation, a copy, a release and a token that is gone. -/
theorem heap_refines_sample :
    let calls : List (Call Unit Unit) := [.reserveAt 4096 16 16 .stack,
      .reserveAt 4104 16 8 .stack, .copyInto ⟨1, 1⟩ 4 [7], .release ⟨1, 1⟩]
    Run (fun _ => none) ((history Call.step ⟨sampleLedger, ()⟩ calls).map opOfEvent)
        (heapOf (after Call.step ⟨sampleLedger, ()⟩ calls).ledger) :=
  (heap_refines sampleLedger_built () _).1

/-- What a token that reads back has in the heap. -/
theorem heapOf_of_read (inv : LedgerInv m) {token : ReservationToken} {bytes : Bytes}
    (holds : m.read token = .ok bytes) : ∃ record, heapOf m token = some ⟨record, bytes⟩ := by
  rw [read_eq_heapOf inv] at holds
  cases has : heapOf m token with
  | none =>
      rw [has] at holds
      cases holds
  | some buffer =>
      rw [has] at holds
      cases holds
      exact ⟨buffer.label, rfl⟩

theorem read_of_heapOf (inv : LedgerInv m) {token : ReservationToken}
    {buffer : Buffer ReservationRecord UInt8} (has : heapOf m token = some buffer) :
    m.read token = .ok buffer.cells := by
  rw [read_eq_heapOf inv, has]

/-- Only a successful release of its token takes a reservation from the heap. -/
theorem release_of_destroy {c : Call ω R} {reply : Outcome Error (Reply R)}
    {token : ReservationToken} (gone : opOf c reply = .destroy token) :
    reply.isOk = true ∧ c = .release token := by
  unfold opOf at gone
  split at gone <;> cases gone
  exact ⟨rfl, rfl⟩

/-- Only a successful release of its token and a successful loan disturb a reservation. -/
theorem calm_of_event {c : Call ω R} {reply : Outcome Error (Reply R)} {token : ReservationToken}
    (kept : reply.isOk = true → c ≠ .release token)
    (alone : reply.isOk = true → ∀ loan, c ≠ .withGuestMemory loan) :
    ¬ (opOf c reply).Disturbs token := by
  unfold opOf
  split
  · exact id
  · exact fun same => kept rfl (by rw [show _ = token from same])
  · exact id
  · exact id
  · exact fun _ => alone rfl _ rfl
  · exact id

/-- The write to the reservation of a token that an event made, if it made one. -/
def ownWrite (token : ReservationToken)
    (e : Event (Session ω) (Call ω R) (Outcome Error (Reply R))) : Option (Nat × Bytes) :=
  (opOfEvent e).own token

/-- What is written to a reservation reads back. Whatever else happens to the ledger, a reservation
that is not released keeps its size, and without a loan it reads as it did with the payloads of its
own successful copies and commits put in, in order. -/
theorem reads_own_writes {s : Session ω} (reachable : s.Reachable R) {token : ReservationToken}
    {bytes : Bytes} (holds : s.ledger.read token = .ok bytes) (calls : List (Call ω R))
    (kept : ∀ e ∈ history Call.step s calls, e.reply.isOk = true → e.call ≠ .release token) :
    ∃ bytes', (after Call.step s calls).ledger.read token = .ok bytes' ∧
      bytes'.length = bytes.length ∧
      ((∀ e ∈ history Call.step s calls, e.reply.isOk = true →
          ∀ loan, e.call ≠ .withGuestMemory loan) →
        bytes' = patches bytes ((history Call.step s calls).filterMap (ownWrite token))) := by
  have inv := reachable.inv
  have inv' := after_keeps_inv inv calls
  have run := run_heap inv calls
  obtain ⟨record, has⟩ := heapOf_of_read inv holds
  obtain ⟨buffer, has', same⟩ : ∃ buffer,
      heapOf (after Call.step s calls).ledger token = some buffer ∧
        buffer.shape = (record, bytes.length) := by
    refine Option.map_eq_some_iff.mp (run.shape has fun op mem => ?_)
    obtain ⟨e, at_e, rfl⟩ := List.mem_map.mp mem
    intro gone
    obtain ⟨ok, released⟩ := release_of_destroy gone
    exact kept e at_e ok released
  refine ⟨buffer.cells, read_of_heapOf inv' has', congrArg Prod.snd same, fun alone => ?_⟩
  have calm : ∀ op ∈ (history Call.step s calls).map opOfEvent, ¬ op.Disturbs token := by
    intro op mem
    obtain ⟨e, at_e, rfl⟩ := List.mem_map.mp mem
    exact calm_of_event (kept e at_e) (alone e at_e)
  have own := run.cells has calm
  rw [has', List.filterMap_map, Option.some.injEq] at own
  rw [own]
  rfl

/-- Two reservations side by side, each written to. -/
theorem reads_own_writes_sample :
    let s : Session Unit := after Call.step ⟨sampleLedger, ()⟩
      [(.reserveAt 4096 16 16 .stack : Call Unit Unit), .reserveAt 4112 16 16 .stack]
    let calls : List (Call Unit Unit) := [.copyInto ⟨1, 1⟩ 4 [7, 8], .copyInto ⟨1, 2⟩ 0 [9],
      .copyInto ⟨1, 1⟩ 5 [6], .release ⟨1, 2⟩]
    (after Call.step s calls).ledger.read ⟨1, 1⟩ =
      .ok (patches (List.replicate 16 0)
        ((history Call.step s calls).filterMap (ownWrite ⟨1, 1⟩))) := by
  intro s calls
  have reachable : s.Reachable Unit := ⟨4096, _, _, _, _, sampleLedger_built, rfl⟩
  have reads : s.ledger.read ⟨1, 1⟩ = .ok (List.replicate 16 0) := by decide
  have kept : ∀ e ∈ history Call.step s calls, e.call ≠ .release ⟨1, 1⟩ ∧
      ∀ loan, e.call ≠ .withGuestMemory loan := by
    simp [history, calls]
  obtain ⟨bytes, read, _, written⟩ :=
    reads_own_writes reachable reads calls fun e mem _ => (kept e mem).1
  rw [read, written fun e mem _ => (kept e mem).2]

end Nextcore
