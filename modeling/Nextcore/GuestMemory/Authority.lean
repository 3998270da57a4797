import Nextcore.GuestMemory.Tokens

/-!
Token authority across the ledgers of a process.

A `Process` has every ledger made so far and the counter that their owners are minted
from; an `Action` makes a ledger or makes a call on one. Each owner is minted once and
each serial is a generation that its ledger reaches once, so no two reservations share a
token (`nodup_marks`), and what a ledger does with a token is settled by whether the
token's record is still live there (`token_authority`).

A closure that holds a loan of one ledger and calls another one is, as far as tokens go,
the loan followed by those calls: it cannot reach the ledger that it has the loan of.
-/

namespace Nextcore

open Checked Checked.Outcome GuestMemory Machine

/-- The ledgers of a process, in the order they were made, and what their callers share. -/
structure Process (ω : Type) where
  nextOwner : Nat
  ledgers : List GuestMemory
  environment : ω

/-- What a program does with ledgers: make one, or call one that was made. -/
inductive Action (ω R : Type) where
  | fromOwned (base : Nat) (bytes : Bytes)
  | fromBorrowed (base : Nat) (bytes : Bytes)
  | call (ledger : Nat) (c : Call ω R)

inductive Answer (R : Type) where
  | made (ledger : Nat)
  | replied (reply : Reply R)

namespace Process

variable {ω R : Type}

/-- `NEXT_OWNER` starts at one. -/
def start (environment : ω) : Process ω := ⟨1, [], environment⟩

/-- Take in what a constructor made of the owner counter. -/
def adopt (p : Process ω) :
    Outcome Error GuestMemory × Nat → Outcome Error (Answer R) × Process ω
  | (.ok m, next) =>
      (.ok (.made p.ledgers.length), { p with nextOwner := next, ledgers := p.ledgers ++ [m] })
  | (.err e, next) => (.err e, { p with nextOwner := next })
  | (.panic, next) => (.panic, { p with nextOwner := next })

/-- One action. A ledger that was never made cannot be called. -/
def step : Action ω R → Process ω → Outcome Error (Answer R) × Process ω
  | .fromOwned base bytes, p => p.adopt (GuestMemory.fromOwned base bytes p.nextOwner)
  | .fromBorrowed base bytes, p => p.adopt (GuestMemory.fromBorrowed base bytes p.nextOwner)
  | .call i c, p =>
    match p.ledgers[i]? with
    | none => (.panic, p)
    | some m =>
      let out := c.step ⟨m, p.environment⟩
      (do let reply ← out.1; pure (.replied reply),
        { p with ledgers := p.ledgers.set i out.2.ledger, environment := out.2.environment })

end Process

variable {ω R : Type}

/-- What an action comes to: the process is as it was and nothing was mutated, or a new ledger
joins with the next owner, or one ledger has the effect of a mutating call. -/
inductive Outcomes (p : Process ω) :
    Action ω R → Outcome Error (Answer R) → Process ω → Prop where
  | quiet {a : Action ω R} {out : Outcome Error (Answer R)}
      (looked : ∀ i c reply, a = .call i c → out = .ok (.replied reply) → c.mutates = false)
      (no_token : ∀ token, out ≠ .ok (.replied (.token token))) : Outcomes p a out p
  | made {a : Action ω R} {m : GuestMemory} (creates : ∀ i c, a ≠ .call i c)
      (owner : m.owner = p.nextOwner) (none : m.live = []) :
      Outcomes p a (.ok (.made p.ledgers.length))
        { p with nextOwner := p.nextOwner + 1, ledgers := p.ledgers ++ [m] }
  | called {i : Nat} {c : Call ω R} {m m' : GuestMemory} {reply : Reply R} {environment : ω}
      (found : p.ledgers[i]? = some m) (effect : Effect m c reply m') :
      Outcomes p (.call i c) (.ok (.replied reply))
        { p with ledgers := p.ledgers.set i m', environment }

/-- Making a ledger adds one with the next owner, or changes nothing. -/
private theorem adopt_outcomes (p : Process ω) {a : Action ω R} (creates : ∀ i c, a ≠ .call i c)
    (base : Nat) (backing : Backing) :
    Outcomes p a (p.adopt (R := R) (GuestMemory.new base backing p.nextOwner)).1
      (p.adopt (R := R) (GuestMemory.new base backing p.nextOwner)).2 := by
  have unmoved := new_eq_self_or_ok base backing p.nextOwner
  cases made : GuestMemory.new base backing p.nextOwner with
  | mk out next =>
      rw [made] at unmoved
      cases out with
      | ok m =>
          obtain ⟨_, _, _, owner, rfl, _, none⟩ := new_eq_ok made
          exact .made creates owner none
      | err e =>
          obtain ⟨m, ok⟩ | same := unmoved
          · cases ok
          · rw [Process.adopt, show next = p.nextOwner from same]
            refine .quiet (fun i c _ called => absurd called (creates i c)) fun token => ?_
            simp
      | panic =>
          obtain ⟨m, ok⟩ | same := unmoved
          · cases ok
          · rw [Process.adopt, show next = p.nextOwner from same]
            refine .quiet (fun i c _ called => absurd called (creates i c)) fun token => ?_
            simp

theorem Process.step_cases (a : Action ω R) (p : Process ω) :
    Outcomes p a (Process.step a p).1 (Process.step a p).2 := by
  cases a with
  | fromOwned base bytes => exact adopt_outcomes p (by simp) base _
  | fromBorrowed base bytes => exact adopt_outcomes p (by simp) base _
  | call i c =>
      simp only [Process.step]
      cases found : p.ledgers[i]? with
      | none => exact .quiet (by simp) (by simp)
      | some m =>
          rcases c.step_cases ⟨m, p.environment⟩ with ⟨same, looks⟩ | ⟨_, _, reply, ok, effect⟩
          · have unchanged : p.ledgers.set i m = p.ledgers := by
              obtain ⟨inside, rfl⟩ := List.getElem?_eq_some_iff.mp found
              exact List.set_getElem_self inside
            simp only [same, unchanged]
            refine .quiet ?_ ?_
            · rintro i' c' reply ⟨rfl, rfl⟩ replied
              obtain ⟨reply', ok, _⟩ := bind_eq_ok.mp replied
              exact looks (isOk_iff.mpr ⟨reply', ok⟩)
            · intro token replied
              obtain ⟨reply', ok, eq⟩ := bind_eq_ok.mp replied
              cases eq
              have mutates := Call.mutates_of_token ok
              rw [looks (isOk_iff.mpr ⟨_, ok⟩)] at mutates
              cases mutates
          · simp only [ok, bind_ok, pure_eq]
            exact .called found effect

/-- A ledger keeps its place, and has the effect of every mutating call on it. -/
theorem Outcomes.ledger {p p' : Process ω} {a : Action ω R} {out : Outcome Error (Answer R)}
    (outcome : Outcomes p a out p') {i : Nat} {m : GuestMemory}
    (found : p.ledgers[i]? = some m) :
    ∃ m', p'.ledgers[i]? = some m' ∧
      (m' = m ∧ (∀ c reply, a = .call i c → out = .ok (.replied reply) → c.mutates = false) ∨
        ∃ c reply, a = .call i c ∧ out = .ok (.replied reply) ∧ Effect m c reply m') := by
  have inside : i < p.ledgers.length := (List.getElem?_eq_some_iff.mp found).1
  cases outcome with
  | quiet looked no_token => exact ⟨m, found, .inl ⟨rfl, looked i⟩⟩
  | made creates owner none =>
      refine ⟨m, ?_, .inl ⟨rfl, fun c _ called => absurd called (creates i c)⟩⟩
      rw [List.getElem?_append_left inside, found]
  | @called j c n n' reply environment at_j effect =>
      by_cases here : j = i
      · subst here
        rw [found] at at_j
        cases at_j
        exact ⟨n', List.getElem?_set_self inside, .inr ⟨c, reply, rfl, rfl, effect⟩⟩
      · refine ⟨m, ?_, .inl ⟨rfl, ?_⟩⟩
        · rw [List.getElem?_set_ne here, found]
        · intro c' reply' called
          cases called
          exact absurd rfl here

/-! ### The invariant of a process -/

/-- Every ledger of a process satisfies its invariant, and no two have the same owner. -/
structure ProcessInv (p : Process ω) : Prop where
  ledgers : ∀ m ∈ p.ledgers, LedgerInv m
  minted : ∀ m ∈ p.ledgers, m.owner < p.nextOwner
  owners : (p.ledgers.map (·.owner)).Nodup

theorem ProcessInv.start (environment : ω) : ProcessInv (Process.start environment) := by
  constructor <;> simp [Process.start]

/-- One action keeps the invariant. -/
theorem Outcomes.keeps {p p' : Process ω} {a : Action ω R} {out : Outcome Error (Answer R)}
    (outcome : Outcomes p a out p') (inv : ProcessInv p) : ProcessInv p' := by
  cases outcome with
  | quiet => exact inv
  | @made _ m creates owner none =>
      constructor
      · intro n mem
        rcases List.mem_append.mp mem with old | new
        · exact inv.ledgers n old
        · cases List.mem_singleton.mp new
          exact .of_live_nil none
      · intro n mem
        rcases List.mem_append.mp mem with old | new
        · exact Nat.lt_succ_of_lt (inv.minted n old)
        · cases List.mem_singleton.mp new
          exact Nat.lt_succ_of_le (Nat.le_of_eq owner)
      · rw [List.map_append, List.nodup_append]
        refine ⟨inv.owners, List.nodup_singleton _, ?_⟩
        intro o old o' new same
        obtain ⟨n, mem, rfl⟩ := List.mem_map.mp old
        obtain rfl := List.mem_singleton.mp new
        exact absurd (same.trans owner) (Nat.ne_of_lt (inv.minted n mem))
  | @called i c m m' reply environment found effect =>
      have mem := List.mem_of_getElem? found
      obtain ⟨_, owner, _⟩ := effect.frame
      constructor
      · intro n changed
        rcases List.mem_or_eq_of_mem_set changed with old | rfl
        · exact inv.ledgers n old
        · exact effect.keeps (inv.ledgers m mem)
      · intro n changed
        rcases List.mem_or_eq_of_mem_set changed with old | rfl
        · exact inv.minted n old
        · rw [owner]
          exact inv.minted m mem
      · have at_i : (p.ledgers.map (·.owner))[i]? = some m'.owner := by
          rw [List.getElem?_map, found, Option.map_some, owner]
        have same : (p.ledgers.set i m').map (·.owner) = p.ledgers.map (·.owner) := by
          obtain ⟨_, value⟩ := List.getElem?_eq_some_iff.mp at_i
          rw [List.map_set, ← value, List.set_getElem_self]
        rw [same]
        exact inv.owners

theorem step_keeps_process (a : Action ω R) (p : Process ω) (inv : ProcessInv p) :
    ProcessInv (Process.step a p).2 :=
  (Process.step_cases a p).keeps inv

theorem ProcessInv.after (environment : ω) (actions : List (Action ω R)) :
    ProcessInv (Machine.after Process.step (Process.start environment) actions) :=
  invariant (P := ProcessInv) step_keeps_process (.start environment) actions

/-! ### No token is minted twice -/

/-- What happened at one step of a process. -/
abbrev ProcessEvent (ω R : Type) := Event (Process ω) (Action ω R) (Outcome Error (Answer R))

/-- The token that a step returned. -/
def mintedToken (e : ProcessEvent ω R) : Option ReservationToken :=
  match e.reply with
  | .ok (.replied (.token token)) => some token
  | _ => none

/-- The serial of the token has been reached by the ledger of its owner. -/
def Reached (p : Process ω) (token : ReservationToken) : Prop :=
  ∃ m ∈ p.ledgers, m.owner = token.owner ∧ token.serial ≤ m.generation

/-- A step that returns a token is an effect on the ledger it was called on. -/
theorem Outcomes.minted {p p' : Process ω} {a : Action ω R} {token : ReservationToken}
    (outcome : Outcomes p a (.ok (.replied (.token token))) p') :
    ∃ i c m m', a = .call i c ∧ p.ledgers[i]? = some m ∧ p'.ledgers[i]? = some m' ∧
      Effect m c (.token token) m' := by
  cases outcome with
  | quiet _ no_token => exact absurd rfl (no_token token)
  | @called i c m m' reply environment found effect =>
      have inside : i < p.ledgers.length := (List.getElem?_eq_some_iff.mp found).1
      exact ⟨i, c, m, m', rfl, found, List.getElem?_set_self inside, effect⟩

theorem Reached.step {p : Process ω} {token : ReservationToken} (reached : Reached p token)
    (a : Action ω R) : Reached (Process.step a p).2 token := by
  obtain ⟨m, mem, owner, serial⟩ := reached
  obtain ⟨i, found⟩ := List.mem_iff_getElem?.mp mem
  obtain ⟨m', found', ⟨rfl, _⟩ | ⟨c, reply, _, _, effect⟩⟩ := (Process.step_cases a p).ledger found
  · exact ⟨m', List.mem_of_getElem? found', owner, serial⟩
  · obtain ⟨_, same, next⟩ := effect.frame
    refine ⟨m', List.mem_of_getElem? found', same.trans owner, ?_⟩
    rw [next]
    exact Nat.le_succ_of_le serial

/-- A token is reached by the step that mints it, and not before. -/
theorem reached_of_minted {p : Process ω} (inv : ProcessInv p) {a : Action ω R}
    {token : ReservationToken} (minted : mintedToken ⟨p, a, (Process.step a p).1⟩ = some token) :
    ¬ Reached p token ∧ Reached (Process.step a p).2 token := by
  have returned : (Process.step a p).1 = .ok (.replied (.token token)) := by
    simp only [mintedToken] at minted
    split at minted
    · rename_i found
      cases minted
      exact found
    · cases minted
  have outcome := Process.step_cases a p
  rw [returned] at outcome
  obtain ⟨i, c, m, m', rfl, found, found', effect⟩ := outcome.minted
  obtain ⟨rfl, _⟩ := effect.minted
  obtain ⟨_, owner, next⟩ := effect.frame
  constructor
  · rintro ⟨n, mem, same, serial⟩
    have : n = m := List.inj_on_of_nodup_map inv.owners mem (List.mem_of_getElem? found) same
    subst this
    exact absurd serial (Nat.not_succ_le_self _)
  · exact ⟨m', List.mem_of_getElem? found', owner, Nat.le_of_eq next.symm⟩

/-- No two reservations of a process, on one ledger or on two, ever receive the same token. -/
theorem minted_nodup (environment : ω) (actions : List (Action ω R)) :
    ((history Process.step (Process.start environment) actions).filterMap mintedToken).Nodup := by
  have stays (a : Action ω R) (p : Process ω) (token : ReservationToken) (_ : ProcessInv p)
      (reached : Reached p token) : Reached (Process.step a p).2 token := reached.step a
  exact (nodup_marks step_keeps_process stays (fun _ _ _ inv minted => reached_of_minted inv minted)
    (.start environment) actions).1

/-! ### What becomes of a token -/

/-- The release of a token on the `i`-th ledger. -/
def Releases (i : Nat) (token : ReservationToken) (e : ProcessEvent ω R) : Prop :=
  e.call = .call i (.release token) ∧ e.reply = .ok (.replied .done)

/-- The token was minted by this ledger and no live record carries it. -/
structure Gone (token : ReservationToken) (m : GuestMemory) : Prop where
  owner : token.owner = m.owner
  serial : token.serial ≤ m.generation
  dead : ∀ r ∈ m.live, r.token ≠ token

/-- A token that is gone stays gone: new records have new serials. -/
theorem Effect.keeps_gone {m m' : GuestMemory} {c : Call ω R} {reply : Reply R}
    {token : ReservationToken} (effect : Effect m c reply m') (gone : Gone token m) :
    Gone token m' := by
  obtain ⟨_, owner, next⟩ := effect.frame
  refine ⟨gone.owner.trans owner.symm, ?_, ?_⟩
  · rw [next]
    exact Nat.le_succ_of_le gone.serial
  · intro r mem same
    rcases effect.live_or_new mem with old | new
    · exact gone.dead r old same
    · have serial := gone.serial
      rw [← same, new] at serial
      exact absurd serial (Nat.not_succ_le_self _)

theorem gone_after {p : Process ω} {i : Nat} {m : GuestMemory} {token : ReservationToken}
    (found : p.ledgers[i]? = some m) (gone : Gone token m) (later : List (Action ω R)) :
    ∃ m', (after Process.step p later).ledgers[i]? = some m' ∧ Gone token m' := by
  refine invariant (P := fun p : Process ω => ∃ m, p.ledgers[i]? = some m ∧ Gone token m)
    ?_ ⟨m, found, gone⟩ later
  rintro a p ⟨m, found, gone⟩
  obtain ⟨m', found', ⟨rfl, _⟩ | ⟨c, reply, _, _, effect⟩⟩ := (Process.step_cases a p).ledger found
  · exact ⟨m', found', gone⟩
  · exact ⟨m', found', effect.keeps_gone gone⟩

/-- A live record is live after a run in which its token is not released, and its token is
gone after a run in which it is. -/
theorem live_or_gone {p : Process ω} (inv : ProcessInv p) {i : Nat} {m : GuestMemory}
    (found : p.ledgers[i]? = some m) {record : ReservationRecord} (mem : record ∈ m.live)
    (later : List (Action ω R)) :
    ∃ m', (after Process.step p later).ledgers[i]? = some m' ∧
      ((∃ e ∈ history Process.step p later, Releases i record.token e) ∧ Gone record.token m' ∨
        (∀ e ∈ history Process.step p later, ¬ Releases i record.token e) ∧
          record ∈ m'.live) := by
  induction later generalizing p m with
  | nil => exact ⟨m, found, .inr ⟨by simp [history], mem⟩⟩
  | cons a rest ih =>
      have ledger := inv.ledgers m (List.mem_of_getElem? found)
      have outcome := Process.step_cases a p
      -- The record is live after the first step, or that step was its release.
      obtain ⟨m', found', now⟩ : ∃ m', (Process.step a p).2.ledgers[i]? = some m' ∧
          (¬ Releases i record.token ⟨p, a, (Process.step a p).1⟩ ∧ record ∈ m'.live ∨
            Releases i record.token ⟨p, a, (Process.step a p).1⟩ ∧ Gone record.token m') := by
        obtain ⟨m', found', ⟨rfl, looked⟩ | ⟨c, reply, rfl, replied, effect⟩⟩ :=
          outcome.ledger found
        · refine ⟨m', found', .inl ⟨?_, mem⟩⟩
          rintro ⟨called, done⟩
          cases looked _ _ called done
        · refine ⟨m', found', ?_⟩
          by_cases release : c = .release record.token
          · subst release
            have dead := effect.gone_of_release ledger
            have frame := effect.frame
            cases effect.done_of_release
            refine .inr ⟨⟨rfl, replied⟩, (ledger.owner record mem).trans frame.2.1.symm, ?_, dead⟩
            rw [frame.2.2]
            exact Nat.le_succ_of_le (ledger.current record mem)
          · refine .inl ⟨?_, (effect.kept_or_released mem).resolve_right release⟩
            rintro ⟨called, _⟩
            cases called
            exact release rfl
      rcases now with ⟨not_yet, live⟩ | ⟨released, gone⟩
      · obtain ⟨n, at_end, ⟨⟨e, later, released⟩, gone⟩ | ⟨never, live⟩⟩ :=
          ih (outcome.keeps inv) found' live
        · exact ⟨n, at_end, .inl ⟨⟨e, List.mem_cons_of_mem _ later, released⟩, gone⟩⟩
        · exact ⟨n, at_end, .inr ⟨List.forall_mem_cons.mpr ⟨not_yet, never⟩, live⟩⟩
      · obtain ⟨n, at_end, gone⟩ := gone_after found' gone rest
        exact ⟨n, at_end, .inl ⟨⟨_, List.mem_cons_self, released⟩, gone⟩⟩

/-- Token authority over whole runs of a process. A token that a reservation on the `i`-th
ledger returned is rejected as foreign by every other ledger; on its own ledger it is
good until it is released, and rejected as released for ever after; and it is equal to no
other token that the run has minted. -/
theorem token_authority (environment : ω) {before later : List (Action ω R)} {i : Nat}
    {c : Call ω R} {token : ReservationToken}
    (minted : (Process.step (.call i c)
      (after Process.step (Process.start environment) before)).1 =
        .ok (.replied (.token token))) :
    let made := (Process.step (.call i c)
      (after Process.step (Process.start environment) before)).2
    (∀ j m, j ≠ i → (after Process.step made later).ledgers[j]? = some m →
        Rejects m token .foreignOwner) ∧
      (∃ m, (after Process.step made later).ledgers[i]? = some m ∧
        ((∃ e ∈ history Process.step made later, Releases i token e) →
          Rejects m token .releasedReservation) ∧
        ((∀ e ∈ history Process.step made later, ¬ Releases i token e) →
          ∃ record, c.AsksFor record ∧ record.token = token ∧ Accepts m record)) ∧
      ((history Process.step (Process.start environment)
        (before ++ .call i c :: later)).filterMap mintedToken).Nodup := by
  intro made
  have inv : ProcessInv made := step_keeps_process _ _ (.after environment before)
  have inv_end : ProcessInv (after Process.step made later) :=
    invariant (P := ProcessInv) step_keeps_process inv later
  have outcome : Outcomes _ _ _ made := Process.step_cases _ _
  rw [minted] at outcome
  obtain ⟨_, _, m₀, m₁, called, _, found, effect⟩ := outcome.minted
  cases called
  obtain ⟨_, record, mem, asked, same⟩ := effect.minted
  obtain ⟨m, at_end, fate⟩ := live_or_gone inv found mem later
  rw [same] at fate
  have own : token.owner = m.owner := by
    rcases fate with ⟨_, gone⟩ | ⟨_, live⟩
    · exact gone.owner
    · rw [← same]
      exact (inv_end.ledgers m (List.mem_of_getElem? at_end)).owner record live
  refine ⟨?_, ⟨m, at_end, ?_, ?_⟩, minted_nodup environment _⟩
  · intro j n other at_j
    refine rejects_of_slot (slot_of_foreign fun same_owner => other ?_)
    -- Only one ledger has the token's owner.
    have inside := (List.getElem?_eq_some_iff.mp at_j).1
    refine (List.getElem?_inj (by rwa [List.length_map]) inv_end.owners).mp ?_
    rw [List.getElem?_map, List.getElem?_map, at_j, at_end, Option.map_some, Option.map_some,
      ← same_owner, own]
  · intro released
    rcases fate with ⟨_, gone⟩ | ⟨never, _⟩
    · exact rejects_of_slot (slot_of_released gone.owner gone.dead)
    · obtain ⟨e, mem, releases⟩ := released
      exact absurd releases (never e mem)
  · intro never
    rcases fate with ⟨⟨e, mem, releases⟩, _⟩ | ⟨_, live⟩
    · exact absurd releases (never e mem)
    · exact ⟨record, asked, same,
        (inv_end.ledgers m (List.mem_of_getElem? at_end)).accepts_of_live live⟩

/-- A token whose extent is released and reserved again, in the same slot, while another
ledger reserves the same addresses. -/
theorem token_authority_reuse :
    ∃ m, (after Process.step (Process.start ())
        [.fromOwned 4096 (List.replicate 64 0), .fromBorrowed 4096 (List.replicate 32 0),
          .call 0 (.reserveAt 4096 16 16 .stack : Call Unit Unit),
          .call 1 (.reserveAt 4096 16 16 .stack), .call 0 (.release ⟨1, 1⟩),
          .call 0 (.reserveAt 4096 16 16 .stack)]).ledgers[0]? = some m ∧
      Rejects m ⟨1, 1⟩ .releasedReservation := by
  obtain ⟨m, at_end, released, _⟩ := (@token_authority Unit Unit ()
    [.fromOwned 4096 (List.replicate 64 0), .fromBorrowed 4096 (List.replicate 32 0)]
    [.call 1 (.reserveAt 4096 16 16 .stack), .call 0 (.release ⟨1, 1⟩),
      .call 0 (.reserveAt 4096 16 16 .stack)]
    0 (.reserveAt 4096 16 16 .stack) ⟨1, 1⟩ rfl).2.1
  exact ⟨m, at_end, released ⟨_, List.mem_cons_of_mem _ List.mem_cons_self, rfl, rfl⟩⟩

end Nextcore
