import Mathlib.Logic.Basic
import Mathlib.Data.List.Forall2

/-!
Outcomes of checked code, and methods that hold their receiver mutably.

`Outcome ε α` is what one call of the modelled code can end in: a value, a
returned error, or a panic (an operation that leaves its integer type, an index
out of range, a failed `expect`). `Exec σ ε α` is the same for a method with a
mutable receiver `σ`. Its receiver is left in *some* state on every path, so an
early return is seen with whatever had been written before it; that errors are
atomic is therefore something to prove, not something the type gives away.

The inversion lemmas (`bind_eq_ok`, `rejectIf_eq_ok`, `forEach_eq_ok`, ...) are
the only way the rest of the development takes a successful call apart.
-/

namespace Checked

/-- The result of a call that may return an error or panic. -/
inductive Outcome (ε α : Type) where
  | ok (value : α)
  | err (error : ε)
  | panic
  deriving DecidableEq, Repr

/-- Each element of the one list is related to one of the other. -/
theorem exists_of_mem_forall₂ {α β : Type} {R : α → β → Prop} {list : List α} {out : List β}
    (each : List.Forall₂ R list out) {b : β} (mem : b ∈ out) : ∃ a ∈ list, R a b := by
  induction each with
  | nil => cases mem
  | cons first _ ih =>
      rcases List.mem_cons.mp mem with rfl | later
      · exact ⟨_, List.mem_cons_self, first⟩
      · obtain ⟨a, a_mem, known⟩ := ih later
        exact ⟨a, List.mem_cons_of_mem _ a_mem, known⟩

namespace Outcome

variable {ε ε' α β : Type}

/-- The `?` operator: go on with the value, return anything else. -/
protected def bind : Outcome ε α → (α → Outcome ε β) → Outcome ε β
  | .ok a, f => f a
  | .err e, _ => .err e
  | .panic, _ => .panic

instance : Monad (Outcome ε) where
  pure := .ok
  bind := Outcome.bind

@[simp] theorem bind_ok (a : α) (f : α → Outcome ε β) : (Outcome.ok a >>= f) = f a := rfl
@[simp] theorem bind_err (e : ε) (f : α → Outcome ε β) :
    ((Outcome.err e : Outcome ε α) >>= f) = .err e := rfl
@[simp] theorem bind_panic (f : α → Outcome ε β) :
    ((Outcome.panic : Outcome ε α) >>= f) = .panic := rfl
@[simp] theorem pure_eq (a : α) : (pure a : Outcome ε α) = .ok a := rfl

instance : LawfulMonad (Outcome ε) := LawfulMonad.mk' (Outcome ε)
  (by intro α x; cases x <;> rfl)
  (by intros; rfl)
  (by intro α β γ x f g; cases x <;> rfl)

/-- A sequence returns a value exactly when both parts do. -/
theorem bind_eq_ok {x : Outcome ε α} {f : α → Outcome ε β} {b : β} :
    (x >>= f) = .ok b ↔ ∃ a, x = .ok a ∧ f a = .ok b := by
  cases x <;> simp

/-- A check followed by the rest succeeds exactly when both do. -/
theorem seq_eq_ok {x : Outcome ε Unit} {f : Unit → Outcome ε β} {b : β} :
    (x >>= f) = .ok b ↔ x = .ok () ∧ f () = .ok b := by
  cases x <;> simp

/-- A sequence of parts that do not panic does not panic. -/
theorem bind_ne_panic {x : Outcome ε α} {f : α → Outcome ε β} (first : x ≠ .panic)
    (rest : ∀ a, x = .ok a → f a ≠ .panic) : (x >>= f) ≠ .panic := by
  cases x with
  | ok a => exact rest a rfl
  | err e => simp
  | panic => exact absurd rfl first

theorem bind_ne_panic_iff {x : Outcome ε α} {f : α → Outcome ε β} :
    (x >>= f) ≠ .panic ↔ x ≠ .panic ∧ ∀ a, x = .ok a → f a ≠ .panic := by
  cases x <;> simp

theorem ite_ne_panic {p : Prop} [Decidable p] {x y : Outcome ε α} (yes : x ≠ .panic)
    (no : y ≠ .panic) : (if p then x else y) ≠ .panic := by
  split
  · exact yes
  · exact no

@[simp] theorem ok_ne_panic (a : α) : (.ok a : Outcome ε α) ≠ .panic := by simp

/-- A sequence of parts that do not report an error does not report it. -/
theorem bind_ne_err {x : Outcome ε α} {f : α → Outcome ε β} {e : ε} (first : x ≠ .err e)
    (rest : ∀ a, x = .ok a → f a ≠ .err e) : (x >>= f) ≠ .err e := by
  cases x with
  | ok a => exact rest a rfl
  | err e' =>
      rintro ⟨rfl⟩
      exact first rfl
  | panic => simp

/-- `option.ok_or(e)`. -/
def ofOption (e : ε) : Option α → Outcome ε α
  | some a => .ok a
  | none => .err e

@[simp] theorem ofOption_some (e : ε) (a : α) : ofOption e (some a) = .ok a := rfl
@[simp] theorem ofOption_none (e : ε) : ofOption e (none : Option α) = .err e := rfl

@[simp] theorem ofOption_eq_ok {e : ε} {x : Option α} {a : α} :
    ofOption e x = .ok a ↔ x = some a := by
  cases x <;> simp [ofOption]

@[simp] theorem ofOption_eq_err {e e' : ε} {x : Option α} :
    ofOption e x = .err e' ↔ x = none ∧ e = e' := by
  cases x <;> simp [ofOption]

@[simp] theorem ofOption_ne_panic {e : ε} {x : Option α} : ofOption e x ≠ .panic := by
  cases x <;> simp [ofOption]

/-- `option.expect(..)`: an absent value is a panic. -/
def expect : Option α → Outcome ε α
  | some a => .ok a
  | none => .panic

@[simp] theorem expect_some (a : α) : (expect (some a) : Outcome ε α) = .ok a := rfl

@[simp] theorem expect_eq_ok {x : Option α} {a : α} :
    (expect x : Outcome ε α) = .ok a ↔ x = some a := by
  cases x <;> simp [expect]

@[simp] theorem expect_ne_err {x : Option α} {e : ε} : expect x ≠ .err e := by
  cases x <;> simp [expect]

@[simp] theorem expect_eq_panic {x : Option α} :
    (expect x : Outcome ε α) = .panic ↔ x = none := by
  cases x <;> simp [expect]

/-- `if p { return Err(e) }`. -/
def rejectIf (p : Prop) [Decidable p] (e : ε) : Outcome ε Unit :=
  if p then .err e else .ok ()

@[simp] theorem rejectIf_eq_ok {p : Prop} [Decidable p] {e : ε} {u : Unit} :
    rejectIf p e = .ok u ↔ ¬ p := by
  unfold rejectIf
  split <;> simp_all

@[simp] theorem rejectIf_eq_err {p : Prop} [Decidable p] {e e' : ε} :
    rejectIf p e = .err e' ↔ p ∧ e = e' := by
  unfold rejectIf
  split <;> simp_all

@[simp] theorem rejectIf_ne_panic {p : Prop} [Decidable p] {e : ε} :
    rejectIf p e ≠ .panic := by
  unfold rejectIf
  split <;> simp

theorem rejectIf_of {p : Prop} [Decidable p] (e : ε) (hit : p) : rejectIf p e = .err e :=
  if_pos hit

theorem rejectIf_of_not {p : Prop} [Decidable p] (e : ε) (clear : ¬ p) : rejectIf p e = .ok () :=
  if_neg clear

/-- A test that is rejected where it hits has not hit where the rest was run. -/
theorem bind_rejectIf_eq_ok {test : Outcome ε Bool} {e : ε} {rest : Outcome ε β} {b : β} :
    (test >>= fun hit => rejectIf (hit = true) e >>= fun _ => rest) = .ok b ↔
      test = .ok false ∧ rest = .ok b := by
  simp only [bind_eq_ok, rejectIf_eq_ok, Bool.not_eq_true, exists_const]
  constructor
  · rintro ⟨_, tested, rfl, done⟩
    exact ⟨tested, done⟩
  · rintro ⟨tested, done⟩
    exact ⟨false, tested, rfl, done⟩

/-- The conversion that `?` inserts between two error types. -/
def mapErr (f : ε → ε') : Outcome ε α → Outcome ε' α
  | .ok a => .ok a
  | .err e => .err (f e)
  | .panic => .panic

@[simp] theorem mapErr_eq_ok {f : ε → ε'} {x : Outcome ε α} {a : α} :
    x.mapErr f = .ok a ↔ x = .ok a := by
  cases x <;> simp [mapErr]

@[simp] theorem mapErr_eq_panic {f : ε → ε'} {x : Outcome ε α} :
    x.mapErr f = .panic ↔ x = .panic := by
  cases x <;> simp [mapErr]

/-- Whether the call returned a value. -/
def isOk : Outcome ε α → Bool
  | .ok _ => true
  | _ => false

theorem isOk_iff {x : Outcome ε α} : x.isOk = true ↔ ∃ a, x = .ok a := by
  cases x <;> simp [isOk]

/-- `result.is_ok_and(f)`. -/
def isOkAnd (f : α → Bool) : Outcome ε α → Bool
  | .ok a => f a
  | _ => false

theorem isOkAnd_iff {f : α → Bool} {x : Outcome ε α} :
    x.isOkAnd f = true ↔ ∃ a, x = .ok a ∧ f a = true := by
  cases x <;> simp [isOkAnd]

/-! ### Loops over a list -/

/-- `for a in list { f(a)? }`. -/
def forEach (f : α → Outcome ε Unit) : List α → Outcome ε Unit
  | [] => .ok ()
  | a :: rest => do
    f a
    forEach f rest

theorem forEach_eq_ok {f : α → Outcome ε Unit} {list : List α} {u : Unit} :
    forEach f list = .ok u ↔ ∀ a ∈ list, f a = .ok () := by
  induction list with
  | nil => simp [forEach]
  | cons a rest ih => simp [forEach, seq_eq_ok, ih]

/-- `for a in list { out.push(f(a)?) }`. -/
def collect (f : α → Outcome ε β) : List α → Outcome ε (List β)
  | [] => .ok []
  | a :: rest => do
    let b ← f a
    let bs ← collect f rest
    pure (b :: bs)

/-- The results are those of the elements, in their order. -/
theorem collect_eq_ok {f : α → Outcome ε β} {list : List α} {out : List β} :
    collect f list = .ok out ↔ List.Forall₂ (fun a b => f a = .ok b) list out := by
  induction list generalizing out with
  | nil => cases out <;> simp [collect]
  | cons a rest ih =>
      cases out with
      | nil => simp [collect, bind_eq_ok]
      | cons b bs => simp [collect, bind_eq_ok, ih]

/-- Every result is that of an element. -/
theorem exists_of_mem_collect {f : α → Outcome ε β} {list : List α} {out : List β}
    (collected : collect f list = .ok out) {b : β} (mem : b ∈ out) : ∃ a ∈ list, f a = .ok b :=
  exists_of_mem_forall₂ (collect_eq_ok.mp collected) mem

theorem collect_of {f : α → Outcome ε β} {g : α → β} {list : List α}
    (each : ∀ a ∈ list, f a = .ok (g a)) : collect f list = .ok (list.map g) := by
  rw [collect_eq_ok, List.forall₂_map_right_iff, List.forall₂_same]
  exact each

/-- `for pair in list.windows(2) { f(pair[0], pair[1])? }`. -/
def forWindows (f : α → α → Outcome ε Unit) : List α → Outcome ε Unit
  | a :: b :: rest => do
    f a b
    forWindows f (b :: rest)
  | _ => .ok ()

/-- A loop over neighbours succeeds when every neighbouring pair passes. -/
theorem forWindows_eq_ok {f : α → α → Outcome ε Unit} {list : List α} {u : Unit} :
    forWindows f list = .ok u ↔ List.IsChain (fun a b => f a b = .ok ()) list := by
  induction list with
  | nil => simp [forWindows]
  | cons a rest ih =>
      cases rest with
      | nil => simp [forWindows]
      | cons b rest => simp [forWindows, seq_eq_ok, ih]

/-- `list.iter().any(f)` for a test that may itself fail; it stops at the first hit. -/
def anyM (f : α → Outcome ε Bool) : List α → Outcome ε Bool
  | [] => .ok false
  | a :: rest => do
    let hit ← f a
    if hit then .ok true else anyM f rest

theorem anyM_of {f : α → Outcome ε Bool} {g : α → Bool} {list : List α}
    (each : ∀ a ∈ list, f a = .ok (g a)) : anyM f list = .ok (list.any g) := by
  induction list with
  | nil => rfl
  | cons a rest ih =>
      obtain ⟨first, others⟩ := List.forall_mem_cons.mp each
      rw [anyM, first, bind_ok, List.any_cons, ih others]
      cases g a <;> rfl

/-- `list.iter().find_map(f)` for a function that may itself fail. -/
def findMapM (f : α → Outcome ε (Option β)) : List α → Outcome ε (Option β)
  | [] => .ok none
  | a :: rest => do
    match ← f a with
    | some b => .ok (some b)
    | none => findMapM f rest

/-- A found value comes from an element of the list. -/
theorem exists_of_findMapM {f : α → Outcome ε (Option β)} {list : List α} {b : β}
    (found : findMapM f list = .ok (some b)) : ∃ a ∈ list, f a = .ok (some b) := by
  induction list with
  | nil => simp [findMapM] at found
  | cons a rest ih =>
      obtain ⟨hit, tested, remaining⟩ := bind_eq_ok.mp found
      cases hit with
      | some value =>
          cases remaining
          exact ⟨a, List.mem_cons_self, tested⟩
      | none =>
          obtain ⟨x, mem, eq⟩ := ih remaining
          exact ⟨x, List.mem_cons_of_mem a mem, eq⟩

theorem findMapM_of_none {f : α → Outcome ε (Option β)} {list : List α}
    (passed : ∀ a ∈ list, f a = .ok none) : findMapM f list = .ok none := by
  induction list with
  | nil => rfl
  | cons a rest ih =>
      obtain ⟨first, others⟩ := List.forall_mem_cons.mp passed
      rw [findMapM, first, bind_ok]
      exact ih others

/-- The search ends at the first hit. -/
theorem findMapM_of_first {f : α → Outcome ε (Option β)} {front rest : List α} {a : α} {b : β}
    (passed : ∀ x ∈ front, f x = .ok none) (hit : f a = .ok (some b)) :
    findMapM f (front ++ a :: rest) = .ok (some b) := by
  induction front with
  | nil => rw [List.nil_append, findMapM, hit, bind_ok]
  | cons x front ih =>
      obtain ⟨first, others⟩ := List.forall_mem_cons.mp passed
      rw [List.cons_append, findMapM, first, bind_ok]
      exact ih others

/-- `for _ in 0..n { s = f(s)? }`. -/
def iterate {σ : Type} (f : σ → Outcome ε σ) : Nat → σ → Outcome ε σ
  | 0, s => .ok s
  | n + 1, s => do
    let s ← f s
    iterate f n s

/-- `for (i, a) in list.iter().enumerate() { for b in &list[..i] { f(a, b)? } }`, behind the
elements that come before the list. -/
def forEarlier (f : α → α → Outcome ε Unit) : List α → List α → Outcome ε Unit
  | _, [] => .ok ()
  | before, a :: rest => do
    forEach (f a) before
    forEarlier f (before ++ [a]) rest

theorem forEarlier_eq_ok {f : α → α → Outcome ε Unit} {before list : List α} {u : Unit} :
    forEarlier f before list = .ok u ↔
      (∀ a ∈ list, ∀ b ∈ before, f a b = .ok ()) ∧ list.Pairwise fun b a => f a b = .ok () := by
  induction list generalizing before with
  | nil => simp [forEarlier]
  | cons a rest ih =>
      rw [forEarlier, seq_eq_ok, forEach_eq_ok, ih, List.forall_mem_cons, List.pairwise_cons]
      constructor
      · rintro ⟨first, others, pairs⟩
        refine ⟨⟨first, fun x mem b b_mem => ?_⟩, fun x mem => ?_, pairs⟩
        · exact others x mem b (List.mem_append_left _ b_mem)
        · exact others x mem a (List.mem_append_right _ List.mem_cons_self)
      · rintro ⟨⟨first, others⟩, head, pairs⟩
        refine ⟨first, fun x mem b b_mem => ?_, pairs⟩
        rcases List.mem_append.mp b_mem with old | new
        · exact others x mem b old
        · rw [List.mem_singleton.mp new]
          exact head x mem

/-- Every round of a loop that returned has returned. -/
theorem rounds_of_foldlM {σ : Type} {f : σ → α → Outcome ε σ} {list : List α} {s s' : σ}
    (done : list.foldlM f s = .ok s') : ∀ a ∈ list, ∃ t t', f t a = .ok t' := by
  induction list generalizing s with
  | nil =>
      intro a mem
      cases mem
  | cons a rest ih =>
      rw [List.foldlM_cons] at done
      obtain ⟨t, first, others⟩ := bind_eq_ok.mp done
      exact List.forall_mem_cons.mpr ⟨⟨s, t, first⟩, ih others⟩

/-! ### Loops that do not panic -/

theorem forEach_ne_panic {f : α → Outcome ε Unit} {list : List α}
    (each : ∀ a ∈ list, f a ≠ .panic) : forEach f list ≠ .panic := by
  induction list with
  | nil => simp [forEach]
  | cons a rest ih =>
      obtain ⟨first, others⟩ := List.forall_mem_cons.mp each
      exact bind_ne_panic first fun _ _ => ih others

theorem collect_ne_panic {f : α → Outcome ε β} {list : List α}
    (each : ∀ a ∈ list, f a ≠ .panic) : collect f list ≠ .panic := by
  induction list with
  | nil => simp [collect]
  | cons a rest ih =>
      obtain ⟨first, others⟩ := List.forall_mem_cons.mp each
      exact bind_ne_panic first fun b _ => bind_ne_panic (ih others) fun bs _ => by simp

theorem forWindows_ne_panic {f : α → α → Outcome ε Unit} {list : List α}
    (each : ∀ a ∈ list, ∀ b ∈ list, f a b ≠ .panic) : forWindows f list ≠ .panic := by
  induction list with
  | nil => simp [forWindows]
  | cons a rest ih =>
      cases rest with
      | nil => simp [forWindows]
      | cons b rest =>
          have first := each a List.mem_cons_self b (List.mem_cons_of_mem _ List.mem_cons_self)
          refine bind_ne_panic first fun _ _ => ih fun x x_mem y y_mem => ?_
          exact each x (List.mem_cons_of_mem _ x_mem) y (List.mem_cons_of_mem _ y_mem)

theorem anyM_ne_panic {f : α → Outcome ε Bool} {list : List α}
    (each : ∀ a ∈ list, f a ≠ .panic) : anyM f list ≠ .panic := by
  induction list with
  | nil => simp [anyM]
  | cons a rest ih =>
      obtain ⟨first, others⟩ := List.forall_mem_cons.mp each
      refine bind_ne_panic first fun hit _ => ?_
      cases hit with
      | true => simp
      | false => exact ih others

theorem findMapM_ne_panic {f : α → Outcome ε (Option β)} {list : List α}
    (each : ∀ a ∈ list, f a ≠ .panic) : findMapM f list ≠ .panic := by
  induction list with
  | nil => simp [findMapM]
  | cons a rest ih =>
      obtain ⟨first, others⟩ := List.forall_mem_cons.mp each
      refine bind_ne_panic first fun hit _ => ?_
      cases hit with
      | some b => simp
      | none => exact ih others

/-- A fold whose steps keep an invariant under which they do not panic. -/
theorem foldlM_calm {σ : Type} {inv : σ → Prop} {f : σ → α → Outcome ε σ} {list : List α} {s : σ}
    (start : inv s)
    (step : ∀ s, inv s → ∀ a ∈ list, f s a ≠ .panic ∧ ∀ s', f s a = .ok s' → inv s') :
    list.foldlM f s ≠ .panic ∧ ∀ s', list.foldlM f s = .ok s' → inv s' := by
  induction list generalizing s with
  | nil =>
      refine ⟨by simp, fun s' done => ?_⟩
      cases done
      exact start
  | cons a rest ih =>
      have later : ∀ t, inv t → ∀ b ∈ rest, f t b ≠ .panic ∧ ∀ s', f t b = .ok s' → inv s' :=
        fun t inv_t b mem => step t inv_t b (List.mem_cons_of_mem _ mem)
      obtain ⟨calm, keeps⟩ := step s start a List.mem_cons_self
      rw [List.foldlM_cons]
      refine ⟨bind_ne_panic calm fun s' next => (ih (keeps s' next) later).1, fun s' done => ?_⟩
      obtain ⟨t, next, done⟩ := bind_eq_ok.mp done
      exact (ih (keeps t next) later).2 s' done

theorem foldlM_ne_panic {σ : Type} {f : σ → α → Outcome ε σ} {list : List α} {s : σ}
    (each : ∀ s, ∀ a ∈ list, f s a ≠ .panic) : list.foldlM f s ≠ .panic := by
  have always : (fun _ : σ => True) s := trivial
  exact (foldlM_calm always fun s _ a mem => ⟨each s a mem, fun _ _ => trivial⟩).1

/-- An invariant of the rounds, under which no round panics. -/
theorem iterate_calm {σ : Type} {inv : Nat → σ → Prop} {f : σ → Outcome ε σ} {n k : Nat} {s : σ}
    (start : inv k s)
    (step : ∀ i, i < k + n → ∀ s, inv i s → f s ≠ .panic ∧ ∀ s', f s = .ok s' → inv (i + 1) s') :
    iterate f n s ≠ .panic ∧ ∀ s', iterate f n s = .ok s' → inv (k + n) s' := by
  induction n generalizing k s with
  | zero =>
      refine ⟨by simp [iterate], fun s' done => ?_⟩
      cases done
      exact start
  | succ n ih =>
      obtain ⟨calm, keeps⟩ := step k (by omega) s start
      have later : ∀ i, i < k + 1 + n → ∀ t, inv i t → f t ≠ .panic ∧
          ∀ s', f t = .ok s' → inv (i + 1) s' := fun i below => step i (by omega)
      refine ⟨bind_ne_panic calm fun t next => (ih (keeps t next) later).1, fun s' done => ?_⟩
      obtain ⟨t, next, done⟩ := bind_eq_ok.mp done
      have reached := (ih (keeps t next) later).2 s' done
      rwa [Nat.add_assoc, Nat.add_comm 1 n] at reached

theorem forEarlier_ne_panic {f : α → α → Outcome ε Unit} {before list : List α}
    (each : ∀ a ∈ list, ∀ b, b ∈ before ∨ b ∈ list → f a b ≠ .panic) :
    forEarlier f before list ≠ .panic := by
  induction list generalizing before with
  | nil => simp [forEarlier]
  | cons a rest ih =>
      refine bind_ne_panic (forEach_ne_panic fun b mem => ?_) fun _ _ => ih fun x mem b b_mem => ?_
      · exact each a List.mem_cons_self b (.inl mem)
      · refine each x (List.mem_cons_of_mem _ mem) b ?_
        rcases b_mem with earlier | later
        · rcases List.mem_append.mp earlier with old | new
          · exact .inl old
          · exact .inr (List.mem_singleton.mp new ▸ List.mem_cons_self)
        · exact .inr (List.mem_cons_of_mem _ later)

/-! ### Calls in lockstep -/

/-- Two calls end alike: with related values, with the same error, or in a panic. -/
inductive Tracks (R : α → β → Prop) : Outcome ε α → Outcome ε β → Prop where
  | ok {a : α} {b : β} : R a b → Tracks R (.ok a) (.ok b)
  | err (e : ε) : Tracks R (.err e) (.err e)
  | panic : Tracks R .panic .panic

section Tracks

variable {γ δ : Type} {R : α → β → Prop} {S : γ → δ → Prop} {x : Outcome ε α} {y : Outcome ε β}

theorem Tracks.bind {f : α → Outcome ε γ} {g : β → Outcome ε δ} (tracks : Tracks R x y)
    (rest : ∀ a b, R a b → Tracks S (f a) (g b)) : Tracks S (x >>= f) (y >>= g) := by
  cases tracks with
  | ok related => exact rest _ _ related
  | err e => exact .err e
  | panic => exact .panic

/-- Two calls that start with the same part. -/
theorem tracks_bind {x : Outcome ε α} {f : α → Outcome ε γ} {g : α → Outcome ε δ}
    (rest : ∀ a, x = .ok a → Tracks S (f a) (g a)) : Tracks S (x >>= f) (x >>= g) := by
  cases x with
  | ok a => exact rest a rfl
  | err e => exact .err e
  | panic => exact .panic

theorem Tracks.of_ok {a : α} (tracks : Tracks R x y) (done : x = .ok a) :
    ∃ b, y = .ok b ∧ R a b := by
  cases tracks with
  | ok related =>
      cases done
      exact ⟨_, rfl, related⟩
  | err e => cases done
  | panic => cases done

theorem Tracks.of_ok' {b : β} (tracks : Tracks R x y) (done : y = .ok b) :
    ∃ a, x = .ok a ∧ R a b := by
  cases tracks with
  | ok related =>
      cases done
      exact ⟨_, rfl, related⟩
  | err e => cases done
  | panic => cases done

/-- Two loops over one list, whose steps keep a relation. -/
theorem tracks_foldlM {σ τ : Type} {R : σ → τ → Prop} {f : σ → α → Outcome ε σ}
    {g : τ → α → Outcome ε τ} {list : List α} {s : σ} {t : τ} (start : R s t)
    (step : ∀ s t, R s t → ∀ a ∈ list, Tracks R (f s a) (g t a)) :
    Tracks R (list.foldlM f s) (list.foldlM g t) := by
  induction list generalizing s t with
  | nil => exact .ok start
  | cons a rest ih =>
      rw [List.foldlM_cons, List.foldlM_cons]
      refine (step s t start a List.mem_cons_self).bind fun s' t' related => ?_
      exact ih related fun s t later b mem => step s t later b (List.mem_cons_of_mem _ mem)

end Tracks

/-! ### Tests

A call that fails in one way only decides a proposition: it returns a value where the
proposition holds, and the error elsewhere. The rules follow a call part by part. -/

/-- The call returns a value as described where `p` holds, and the error where it does not. -/
def Decides (p : Prop) (e : ε) (post : α → Prop) (x : Outcome ε α) : Prop :=
  (p → ∃ a, x = .ok a ∧ post a) ∧ (¬ p → x = .err e)

section Decides

variable {p q : Prop} {e : ε} {post post' : α → Prop} {x : Outcome ε α}

theorem decides_rejectIf [Decidable p] (e : ε) :
    Decides (¬ p) e (fun _ => True) (rejectIf p e) :=
  ⟨fun clear => ⟨(), rejectIf_of_not e clear, trivial⟩, fun hit => rejectIf_of e (not_not.mp hit)⟩

theorem Decides.congr (same : p ↔ q) (tested : Decides p e post x) : Decides q e post x :=
  ⟨fun hq => tested.1 (same.mpr hq), fun hq => tested.2 (fun hp => hq (same.mp hp))⟩

theorem Decides.imp (weaken : ∀ a, post a → post' a) (tested : Decides p e post x) :
    Decides p e post' x := by
  refine ⟨fun hp => ?_, tested.2⟩
  obtain ⟨a, returned, known⟩ := tested.1 hp
  exact ⟨a, returned, weaken a known⟩

/-- What a test returns is as described, and it returns only where it holds. -/
theorem Decides.of_ok (tested : Decides p e post x) {a : α} (returned : x = .ok a) :
    p ∧ post a := by
  by_cases hp : p
  · obtain ⟨a', returned', known⟩ := tested.1 hp
    cases returned.symm.trans returned'
    exact ⟨hp, known⟩
  · cases returned.symm.trans (tested.2 hp)

/-- A test followed by a test decides both. -/
theorem Decides.bind {f : α → Outcome ε β} {after : β → Prop} (tested : Decides p e post x)
    (rest : p → ∀ a, post a → Decides q e after (f a)) : Decides (p ∧ q) e after (x >>= f) := by
  constructor
  · rintro ⟨hp, hq⟩
    obtain ⟨a, returned, known⟩ := tested.1 hp
    rw [returned]
    exact (rest hp a known).1 hq
  · intro fails
    by_cases hp : p
    · obtain ⟨a, returned, known⟩ := tested.1 hp
      rw [returned]
      exact (rest hp a known).2 fun hq => fails ⟨hp, hq⟩
    · rw [tested.2 hp, bind_err]

/-- What cannot fail after a test decides no more. -/
theorem Decides.then_ok {f : α → Outcome ε β} {after : β → Prop} (tested : Decides p e post x)
    (rest : p → ∀ a, post a → ∃ b, f a = .ok b ∧ after b) : Decides p e after (x >>= f) := by
  constructor
  · intro hp
    obtain ⟨a, returned, known⟩ := tested.1 hp
    rw [returned]
    exact rest hp a known
  · intro fails
    rw [tested.2 fails, bind_err]

/-- A part that cannot fail is no test. -/
theorem Decides.after_ok {f : α → Outcome ε β} {after : β → Prop} {a : α} (returned : x = .ok a)
    (rest : Decides q e after (f a)) : Decides q e after (x >>= f) := by
  rwa [returned, bind_ok]

end Decides

/-- The call returns a value exactly where `p` holds, and the value is then as described. It may
fail in any way elsewhere. -/
def Yields (p : Prop) (post : α → Prop) (x : Outcome ε α) : Prop :=
  (p → ∃ a, x = .ok a ∧ post a) ∧ ∀ a, x = .ok a → p

section Yields

variable {p q : Prop} {post post' : α → Prop} {x : Outcome ε α}

theorem yields_ok {a : α} (known : post a) : Yields True post (.ok a : Outcome ε α) :=
  ⟨fun _ => ⟨a, rfl, known⟩, fun _ _ => trivial⟩

theorem yields_rejectIf [Decidable p] (e : ε) :
    Yields (¬ p) (fun _ => True) (rejectIf p e) :=
  ⟨fun clear => ⟨(), rejectIf_of_not e clear, trivial⟩, fun _ => rejectIf_eq_ok.mp⟩

/-- What is known of a value that was returned. -/
theorem Yields.post_of_ok (yields : Yields p post x) {a : α} (returned : x = .ok a) :
    p ∧ post a := by
  have holds := yields.2 a returned
  obtain ⟨b, same, known⟩ := yields.1 holds
  rw [returned] at same
  cases same
  exact ⟨holds, known⟩

theorem Yields.congr (same : p ↔ q) (yields : Yields p post x) : Yields q post x :=
  ⟨fun hq => yields.1 (same.mpr hq), fun a returned => same.mp (yields.2 a returned)⟩

theorem Yields.imp (weaken : ∀ a, post a → post' a) (yields : Yields p post x) :
    Yields p post' x := by
  refine ⟨fun hp => ?_, yields.2⟩
  obtain ⟨a, returned, known⟩ := yields.1 hp
  exact ⟨a, returned, weaken a known⟩

theorem Yields.bind {f : α → Outcome ε β} {after : β → Prop} (yields : Yields p post x)
    (rest : p → ∀ a, post a → Yields q after (f a)) : Yields (p ∧ q) after (x >>= f) := by
  constructor
  · rintro ⟨hp, hq⟩
    obtain ⟨a, returned, known⟩ := yields.1 hp
    rw [returned]
    exact (rest hp a known).1 hq
  · intro b returned
    obtain ⟨a, first, second⟩ := bind_eq_ok.mp returned
    obtain ⟨hp, known⟩ := yields.post_of_ok first
    exact ⟨hp, (rest hp a known).2 b second⟩

/-- The rest after a part with one possible value. -/
theorem Yields.bind_eq {f : α → Outcome ε β} {after : β → Prop} {a : α}
    (yields : Yields p (fun b => b = a) x) (rest : p → Yields q after (f a)) :
    Yields (p ∧ q) after (x >>= f) := by
  refine yields.bind fun hp b known => ?_
  subst known
  exact rest hp

/-- The rest after a test. -/
theorem Yields.guard {c : Prop} [Decidable c] {e : ε} {f : Unit → Outcome ε β} {after : β → Prop}
    (rest : ¬ c → Yields q after (f ())) : Yields (¬ c ∧ q) after (rejectIf c e >>= f) :=
  (yields_rejectIf e).bind fun clear _ _ => rest clear

/-- The value where it is returned. -/
theorem Yields.eq_ok {a : α} (yields : Yields p (fun b => b = a) x) (holds : p) : x = .ok a := by
  obtain ⟨b, returned, rfl⟩ := yields.1 holds
  exact returned

/-- A part that cannot fail adds nothing. -/
theorem Yields.after_ok {f : α → Outcome ε β} {after : β → Prop} {a : α} (returned : x = .ok a)
    (rest : Yields q after (f a)) : Yields q after (x >>= f) := by
  rwa [returned, bind_ok]

end Yields

/-! ### Postconditions

`Ensures` is partial correctness: whatever is returned is as described. `Ends` says in addition
which errors may be returned, and rules a panic out. -/

/-- A value that is returned is as described. -/
def Ensures (post : α → Prop) (x : Outcome ε α) : Prop := ∀ a, x = .ok a → post a

section Ensures

variable {post post' : α → Prop} {x : Outcome ε α}

theorem ensures_ok {a : α} (known : post a) : Ensures post (.ok a : Outcome ε α) := by
  rintro _ ⟨rfl⟩
  exact known

theorem ensures_err {e : ε} : Ensures post (.err e : Outcome ε α) := nofun

theorem Ensures.imp (weaken : ∀ a, post a → post' a) (ensures : Ensures post x) :
    Ensures post' x :=
  fun a done => weaken a (ensures a done)

theorem Ensures.bind {f : α → Outcome ε β} {after : β → Prop} (ensures : Ensures post x)
    (rest : ∀ a, post a → Ensures after (f a)) : Ensures after (x >>= f) := by
  intro b done
  obtain ⟨a, first, second⟩ := bind_eq_ok.mp done
  exact rest a (ensures a first) b second

/-- What follows a part of which nothing is known but that it returned. -/
theorem ensures_bind {f : α → Outcome ε β} {after : β → Prop}
    (rest : ∀ a, x = .ok a → Ensures after (f a)) : Ensures after (x >>= f) := by
  intro b done
  obtain ⟨a, first, second⟩ := bind_eq_ok.mp done
  exact rest a first b second

/-- An invariant of the rounds of a loop. -/
theorem ensures_foldlM {σ : Type} {inv : σ → Prop} {f : σ → α → Outcome ε σ} {list : List α}
    {s : σ} (start : inv s) (step : ∀ s, inv s → ∀ a ∈ list, Ensures inv (f s a)) :
    Ensures inv (list.foldlM f s) := by
  induction list generalizing s with
  | nil => exact ensures_ok start
  | cons a rest ih =>
      rw [List.foldlM_cons]
      refine (step s start a List.mem_cons_self).bind fun s' known => ih known ?_
      exact fun t known b mem => step t known b (List.mem_cons_of_mem _ mem)

/-- `for (i, a) in list.iter().enumerate()`, with an invariant of the rounds. -/
theorem ensures_foldlM_zipIdx {σ : Type} {inv : Nat → σ → Prop} {f : σ → α × Nat → Outcome ε σ}
    {list : List α} {k : Nat} {s : σ} (start : inv k s)
    (step : ∀ i a s, (a, i) ∈ list.zipIdx k → inv i s → Ensures (inv (i + 1)) (f s (a, i))) :
    Ensures (inv (k + list.length)) ((list.zipIdx k).foldlM f s) := by
  induction list generalizing k s with
  | nil => exact ensures_ok start
  | cons a rest ih =>
      rw [List.zipIdx_cons] at step ⊢
      rw [List.foldlM_cons, List.length_cons, Nat.add_comm rest.length, ← Nat.add_assoc]
      refine (step k a s List.mem_cons_self start).bind fun s' known => ih known ?_
      intro i b t mem known
      exact step i b t (List.mem_cons_of_mem _ mem) known

end Ensures

/-- A value that is returned is as described, and so is an error; there is no panic. -/
def Ends (post : α → Prop) (fails : ε → Prop) : Outcome ε α → Prop
  | .ok a => post a
  | .err e => fails e
  | .panic => False

section Ends

variable {post post' : α → Prop} {fails : ε → Prop} {x : Outcome ε α}

theorem ends_ok {a : α} (known : post a) : Ends post fails (.ok a : Outcome ε α) := known

theorem ends_rejectIf {p : Prop} [Decidable p] {e : ε} (failed : p → fails e) :
    Ends (fun _ => ¬ p) fails (rejectIf p e) := by
  by_cases hit : p
  · rw [rejectIf_of e hit]
    exact failed hit
  · rw [rejectIf_of_not e hit]
    exact hit

theorem ends_ofOption {e : ε} {found : Option α} (failed : found = none → fails e) :
    Ends (fun a => found = some a) fails (ofOption e found) := by
  cases found with
  | none => exact failed rfl
  | some a => exact rfl

theorem Ends.imp (weaken : ∀ a, post a → post' a) (ends : Ends post fails x) :
    Ends post' fails x := by
  cases x with
  | ok a => exact weaken a ends
  | err e => exact ends
  | panic => exact ends

theorem Ends.mono {fails' : ε → Prop} (weaken : ∀ a, post a → post' a)
    (failed : ∀ e, fails e → fails' e) (ends : Ends post fails x) : Ends post' fails' x := by
  cases x with
  | ok a => exact weaken a ends
  | err e => exact failed e ends
  | panic => exact ends

theorem Ends.bind {f : α → Outcome ε β} {after : β → Prop} (ends : Ends post fails x)
    (rest : ∀ a, post a → Ends after fails (f a)) : Ends after fails (x >>= f) := by
  cases x with
  | ok a => exact rest a ends
  | err e => exact ends
  | panic => exact ends

/-- What follows a part that cannot fail. -/
theorem Ends.after_ok {f : α → Outcome ε β} {after : β → Prop} {a : α} (returned : x = .ok a)
    (rest : Ends after fails (f a)) : Ends after fails (x >>= f) := by
  rwa [returned, bind_ok]

theorem ends_foldlM {σ : Type} {inv : σ → Prop} {f : σ → α → Outcome ε σ} {list : List α} {s : σ}
    (start : inv s) (step : ∀ s, inv s → ∀ a ∈ list, Ends inv fails (f s a)) :
    Ends inv fails (list.foldlM f s) := by
  induction list generalizing s with
  | nil => exact start
  | cons a rest ih =>
      rw [List.foldlM_cons]
      refine (step s start a List.mem_cons_self).bind fun s' known => ih known ?_
      exact fun t known b mem => step t known b (List.mem_cons_of_mem _ mem)

/-- A loop whose rounds each do something for their element, which the later rounds keep. -/
theorem ends_foldlM_each {σ : Type} {inv : σ → Prop} {served : α → σ → Prop}
    {f : σ → α → Outcome ε σ} {list : List α} {s : σ} (start : inv s)
    (step : ∀ s, inv s → ∀ a ∈ list,
      Ends (fun s' => inv s' ∧ served a s' ∧ ∀ b, served b s → served b s') fails (f s a)) :
    Ends (fun s' => inv s' ∧ (∀ a ∈ list, served a s') ∧ ∀ b, served b s → served b s') fails
      (list.foldlM f s) := by
  induction list generalizing s with
  | nil =>
      refine ⟨start, ?_, fun _ => id⟩
      intro a mem
      cases mem
  | cons a rest ih =>
      rw [List.foldlM_cons]
      refine (step s start a List.mem_cons_self).bind ?_
      rintro s' ⟨known, now, kept⟩
      have later := ih known fun t known b mem => step t known b (List.mem_cons_of_mem _ mem)
      refine later.imp ?_
      rintro s'' ⟨known', others, kept'⟩
      exact ⟨known', List.forall_mem_cons.mpr ⟨kept' a now, others⟩,
        fun b before => kept' b (kept b before)⟩

/-- The value of a call that ends well in any case where it returns. -/
theorem Ends.of_ok {a : α} (ends : Ends post fails x) (done : x = .ok a) : post a := by
  rw [done] at ends
  exact ends

theorem Ends.of_err {e : ε} (ends : Ends post fails x) (failed : x = .err e) : fails e := by
  rw [failed] at ends
  exact ends

theorem Ends.ne_panic (ends : Ends post fails x) : x ≠ .panic := by
  rintro rfl
  exact ends

end Ends

end Outcome

/-! ### Methods with a mutable receiver -/

/-- A method on a mutable receiver: its outcome, and the receiver it leaves. -/
def Exec (σ ε α : Type) : Type := σ → Outcome ε α × σ

namespace Exec

variable {σ τ ε α β : Type}

/-- Run a method on a receiver. -/
def on (x : Exec σ ε α) (s : σ) : Outcome ε α × σ := x s

/-- The receiver written by the first part is the one the second part starts from,
and the one left behind when the first part returns early. -/
protected def bind (x : Exec σ ε α) (f : α → Exec σ ε β) : Exec σ ε β := fun s =>
  match x s with
  | (.ok a, s') => f a s'
  | (.err e, s') => (.err e, s')
  | (.panic, s') => (.panic, s')

instance : Monad (Exec σ ε) where
  pure a := fun s => (.ok a, s)
  bind := Exec.bind

/-- A call that only looks at the receiver. -/
def look (f : σ → Outcome ε α) : Exec σ ε α := fun s => (f s, s)

/-- A write to the receiver. -/
def write (f : σ → σ) : Exec σ ε Unit := fun s => (.ok (), f s)

/-- A write to the receiver that may fail, and then has written nothing. -/
def update (f : σ → Outcome ε σ) : Exec σ ε Unit := fun s =>
  match f s with
  | .ok s' => (.ok (), s')
  | .err e => (.err e, s)
  | .panic => (.panic, s)

/-- A method of a part of the receiver. -/
def zoom (get : τ → σ) (put : σ → τ → τ) (x : Exec σ ε α) : Exec τ ε α := fun t =>
  ((x.on (get t)).1, put (x.on (get t)).2 t)

@[simp] theorem on_pure (a : α) (s : σ) : (pure a : Exec σ ε α).on s = (.ok a, s) := rfl
@[simp] theorem on_look (f : σ → Outcome ε α) (s : σ) : (look f).on s = (f s, s) := rfl
@[simp] theorem on_write (f : σ → σ) (s : σ) : (write f : Exec σ ε Unit).on s = (.ok (), f s) :=
  rfl
@[simp] theorem on_zoom (get : τ → σ) (put : σ → τ → τ) (x : Exec σ ε α) (t : τ) :
    (zoom get put x).on t = ((x.on (get t)).1, put (x.on (get t)).2 t) := rfl

/-- The second part runs only when the first returned a value. -/
theorem on_bind (x : Exec σ ε α) (f : α → Exec σ ε β) (s : σ) :
    (x >>= f).on s =
      match x.on s with
      | (.ok a, t) => (f a).on t
      | (.err e, t) => (.err e, t)
      | (.panic, t) => (.panic, t) := rfl

theorem on_update_eq_ok {f : σ → Outcome ε σ} {s s' : σ} {u : Unit} :
    (update f).on s = (.ok u, s') ↔ f s = .ok s' := by
  simp only [on, update]
  cases f s <;> simp

theorem on_update_of_ok {f : σ → Outcome ε σ} {s s' : σ} (returned : f s = .ok s') :
    (update f).on s = (.ok (), s') :=
  on_update_eq_ok.mpr returned

/-- A sequence returns a value exactly when both parts do, the second where the first left off. -/
theorem on_bind_eq_ok {x : Exec σ ε α} {f : α → Exec σ ε β} {s s' : σ} {b : β} :
    (x >>= f).on s = (.ok b, s') ↔
      ∃ a t, x.on s = (.ok a, t) ∧ (f a).on t = (.ok b, s') := by
  rw [on_bind]
  rcases x.on s with ⟨a | e | _, t⟩ <;> simp

theorem on_look_bind_eq_ok {g : σ → Outcome ε α} {f : α → Exec σ ε β} {s s' : σ} {b : β} :
    (look g >>= f).on s = (.ok b, s') ↔ ∃ a, g s = .ok a ∧ (f a).on s = (.ok b, s') := by
  simp [on_bind_eq_ok]

/-- After a check that passes comes the rest. -/
theorem on_look_bind_of_ok {g : σ → Outcome ε α} {f : α → Exec σ ε β} {s : σ} {a : α}
    (passed : g s = .ok a) : (look g >>= f).on s = (f a).on s := by
  rw [on_bind, on_look, passed]

/-- A check that fails is where the call ends. -/
theorem on_look_bind_of_err {g : σ → Outcome ε α} {f : α → Exec σ ε β} {s : σ} {e : ε}
    (failed : g s = .err e) : (look g >>= f).on s = (.err e, s) := by
  rw [on_bind, on_look, failed]

/-- What follows a call that returns a value starts where that left off. -/
theorem on_bind_of_ok {x : Exec σ ε α} {f : α → Exec σ ε β} {s t : σ} {a : α}
    (returned : x.on s = (.ok a, t)) : (x >>= f).on s = (f a).on t := by
  rw [on_bind, returned]

theorem on_write_bind_eq_ok {g : σ → σ} {f : Unit → Exec σ ε β} {s s' : σ} {b : β} :
    (write g >>= f).on s = (.ok b, s') ↔ (f ()).on (g s) = (.ok b, s') := by
  rw [on_bind, on_write]

theorem on_update_bind_eq_ok {g : σ → Outcome ε σ} {f : Unit → Exec σ ε β} {s s' : σ} {b : β} :
    (update g >>= f).on s = (.ok b, s') ↔ ∃ t, g s = .ok t ∧ (f ()).on t = (.ok b, s') := by
  simp only [on_bind_eq_ok, on_update_eq_ok]
  exact ⟨fun ⟨_, t, h⟩ => ⟨t, h⟩, fun ⟨t, h⟩ => ⟨(), t, h⟩⟩

/-! Atomic methods: whatever is not a success leaves the receiver as it was. The rules cover
the discipline "check everything, then write": checks in front of an atomic method
(`Atomic.look_bind`), and writes that cannot fail behind one (`Atomic.bind`). -/

/-- The method returns a value from every receiver. -/
def Total (x : Exec σ ε α) : Prop := ∀ s, ∃ a, (x.on s).1 = .ok a

/-- The method returns a value, or leaves the receiver as it was. -/
def Atomic (x : Exec σ ε α) : Prop := ∀ s, (∃ a, (x.on s).1 = .ok a) ∨ (x.on s).2 = s

theorem total_pure (a : α) : Total (pure a : Exec σ ε α) := fun _ => ⟨a, rfl⟩

theorem total_write (f : σ → σ) : Total (write f : Exec σ ε Unit) := fun _ => ⟨(), rfl⟩

theorem Total.bind {x : Exec σ ε α} {f : α → Exec σ ε β} (hx : Total x)
    (hf : ∀ a, Total (f a)) : Total (x >>= f) := by
  intro s
  rw [on_bind]
  have returned := hx s
  generalize x.on s = out at returned
  obtain ⟨a | e | _, t⟩ := out
  · exact hf a t
  · simp at returned
  · simp at returned

theorem Total.atomic {x : Exec σ ε α} (hx : Total x) : Atomic x := fun s => .inl (hx s)

theorem atomic_look (g : σ → Outcome ε α) : Atomic (look g) := fun _ => .inr rfl

theorem atomic_update (f : σ → Outcome ε σ) : Atomic (update f) := by
  intro s
  simp only [on, update]
  cases f s <;> simp

/-- A check in front of an atomic method keeps it atomic. -/
theorem Atomic.look_bind {g : σ → Outcome ε α} {f : α → Exec σ ε β} (hf : ∀ a, Atomic (f a)) :
    Atomic (look g >>= f) := by
  intro s
  rw [on_bind, on_look]
  cases g s with
  | ok a => exact hf a s
  | err e => exact .inr rfl
  | panic => exact .inr rfl

/-- What cannot fail may follow an atomic method. -/
theorem Atomic.bind {x : Exec σ ε α} {f : α → Exec σ ε β} (hx : Atomic x)
    (hf : ∀ a, Total (f a)) : Atomic (x >>= f) := by
  intro s
  rw [on_bind]
  have kept := hx s
  generalize x.on s = out at kept
  obtain ⟨a | e | _, t⟩ := out
  · exact .inl (hf a t)
  · exact .inr (by simpa using kept)
  · exact .inr (by simpa using kept)

/-! What runs end in: a value, an error or a panic. The rules are those of a triple with one
postcondition for a value and one for an error; a panic is ruled out. -/

/-- A part that does not look at the receiver. -/
def lift (x : Outcome ε α) : Exec σ ε α := look fun _ => x

/-- From the receiver `s`, the method returns a value as described, or fails and leaves the
receiver as described. It does not panic. -/
def Runs (x : Exec σ ε α) (s : σ) (returns : α → σ → Prop) (fails : σ → Prop) : Prop :=
  match x.on s with
  | (.ok a, t) => returns a t
  | (.err _, t) => fails t
  | (.panic, _) => False

section Runs

variable {x : Exec σ ε α} {s : σ} {returns returns' : α → σ → Prop} {fails fails' : σ → Prop}

theorem Runs.ne_panic (runs : Runs x s returns fails) : (x.on s).1 ≠ .panic := by
  intro panics
  rw [Runs] at runs
  generalize x.on s = out at runs panics
  obtain ⟨a | e | _, t⟩ := out
  · cases panics
  · cases panics
  · exact runs

theorem Runs.of_ok (runs : Runs x s returns fails) {a : α} (done : (x.on s).1 = .ok a) :
    returns a (x.on s).2 := by
  rw [Runs] at runs
  generalize x.on s = out at runs done
  obtain ⟨b | e | _, t⟩ := out
  · cases done
    exact runs
  · cases done
  · cases done

theorem Runs.of_err (runs : Runs x s returns fails) {e : ε} (failed : (x.on s).1 = .err e) :
    fails (x.on s).2 := by
  rw [Runs] at runs
  generalize x.on s = out at runs failed
  obtain ⟨b | e | _, t⟩ := out
  · cases failed
  · exact runs
  · cases failed

/-- What holds however the run ends. -/
theorem Runs.always {always : σ → Prop} (runs : Runs x s returns always)
    (known : ∀ a t, returns a t → always t) : always (x.on s).2 := by
  rw [Runs] at runs
  generalize x.on s = out at runs
  obtain ⟨a | e | _, t⟩ := out
  · exact known a t runs
  · exact runs
  · exact runs.elim

theorem Runs.imp (runs : Runs x s returns fails) (known : ∀ a t, returns a t → returns' a t)
    (failed : ∀ t, fails t → fails' t) : Runs x s returns' fails' := by
  rw [Runs] at runs ⊢
  generalize x.on s = out at runs
  obtain ⟨a | e | _, t⟩ := out
  · exact known a t runs
  · exact failed t runs
  · exact runs

theorem runs_pure {a : α} (known : returns a s) : Runs (pure a : Exec σ ε α) s returns fails :=
  known

theorem Runs.bind {f : α → Exec σ ε β} {after : β → σ → Prop} (runs : Runs x s returns fails)
    (rest : ∀ a t, returns a t → Runs (f a) t after fails) : Runs (x >>= f) s after fails := by
  rw [Runs] at runs ⊢
  rw [on_bind]
  generalize x.on s = out at runs
  obtain ⟨a | e | _, t⟩ := out
  · exact rest a t runs
  · exact runs
  · exact runs

theorem runs_look {g : σ → Outcome ε α}
    (ends : Outcome.Ends (fun a => returns a s) (fun _ => fails s) (g s)) :
    Runs (look g) s returns fails := by
  rw [Runs, on_look]
  generalize g s = out at ends
  cases out with
  | ok a => exact ends
  | err e => exact ends
  | panic => exact ends

theorem runs_update {g : σ → Outcome ε σ} {returns : Unit → σ → Prop}
    (ends : Outcome.Ends (returns ()) (fun _ => fails s) (g s)) :
    Runs (update g) s returns fails := by
  have runs : (update g).on s = match g s with
      | .ok t => (.ok (), t)
      | .err e => (.err e, s)
      | .panic => (.panic, s) := rfl
  rw [Runs, runs]
  generalize g s = out at ends
  cases out with
  | ok t => exact ends
  | err e => exact ends
  | panic => exact ends

theorem runs_lift {x : Outcome ε α} (calm : x ≠ .panic) (failed : fails s)
    (known : ∀ a, x = .ok a → returns a s) : Runs (lift x : Exec σ ε α) s returns fails := by
  cases x with
  | ok a => exact known a rfl
  | err e => exact failed
  | panic => exact absurd rfl calm

/-- What follows a value that is known. -/
theorem Runs.after_ok {x : Outcome ε α} {f : α → Exec σ ε β} {after : β → σ → Prop} {a : α}
    (returned : x = .ok a) (rest : Runs (f a) s after fails) :
    Runs (lift x >>= f) s after fails := by
  rw [returned]
  exact rest

/-- A part that does not look at the receiver, and what follows it. -/
theorem Runs.lift_bind {x : Outcome ε α} {f : α → Exec σ ε β} {after : β → σ → Prop}
    (calm : x ≠ .panic) (failed : fails s) (rest : ∀ a, x = .ok a → Runs (f a) s after fails) :
    Runs (lift x >>= f) s after fails := by
  have first : Runs (lift x : Exec σ ε α) s (fun a t => x = .ok a ∧ t = s) fails :=
    runs_lift calm failed fun a done => ⟨done, rfl⟩
  refine first.bind ?_
  rintro a t ⟨done, rfl⟩
  exact rest a done

/-- From the receiver `s` the method does not fail, and returns a value as described if it returns
one. A panic is for `Runs` to rule out. -/
def Serves (x : Exec σ ε α) (s : σ) (returns : α → σ → Prop) : Prop :=
  match x.on s with
  | (.ok a, t) => returns a t
  | (.err _, _) => False
  | (.panic, _) => True

theorem serves_pure {a : α} (known : returns a s) : Serves (pure a : Exec σ ε α) s returns :=
  known

theorem Serves.bind {f : α → Exec σ ε β} {after : β → σ → Prop} (serves : Serves x s returns)
    (rest : ∀ a t, returns a t → Serves (f a) t after) : Serves (x >>= f) s after := by
  rw [Serves] at serves ⊢
  rw [on_bind]
  generalize x.on s = out at serves
  obtain ⟨a | e | _, t⟩ := out
  · exact rest a t serves
  · exact serves
  · trivial

/-- A part that does not look at the receiver and does not fail, and what follows it. -/
theorem Serves.lift_bind {x : Outcome ε α} {f : α → Exec σ ε β} {after : β → σ → Prop}
    (served : ∀ e, x ≠ .err e) (rest : ∀ a, x = .ok a → Serves (f a) s after) :
    Serves (lift x >>= f) s after := by
  cases x with
  | ok a => exact rest a rfl
  | err e => exact absurd rfl (served e)
  | panic => trivial

theorem Serves.after_ok {x : Outcome ε α} {f : α → Exec σ ε β} {after : β → σ → Prop} {a : α}
    (returned : x = .ok a) (rest : Serves (f a) s after) : Serves (lift x >>= f) s after := by
  rw [returned]
  exact rest

/-- What does not fail and does not panic returns a value. -/
theorem Serves.and_runs (serves : Serves x s returns) (runs : Runs x s returns' fails) :
    ∃ a t, x.on s = (.ok a, t) ∧ returns a t ∧ returns' a t := by
  rw [Serves] at serves
  rw [Runs] at runs
  generalize x.on s = out at serves runs
  obtain ⟨a | e | _, t⟩ := out
  · exact ⟨a, t, rfl, serves, runs⟩
  · exact serves.elim
  · exact runs.elim

end Runs

end Exec

end Checked
