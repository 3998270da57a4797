import Mathlib.Data.List.Basic

/-!
Runs of a deterministic machine that answers calls.

`step` gives every call a reply and a next state. `after` is the state a sequence
of calls leads to and `history` the sequence of what happened on the way. The
rules say once how an invariant, a fact about every event, and a counter that
never falls are carried along a run; `quiet_of_unmoved` is the optimistic
concurrency argument: a counter that is back where it was has not moved between.
-/

namespace Machine

variable {σ α β : Type}

/-- One entry of a history: the state a call met, the call, and its reply. -/
structure Event (σ α β : Type) where
  state : σ
  call : α
  reply : β

section Run

variable (step : α → σ → β × σ)

/-- The state after a sequence of calls. -/
def after (s : σ) : List α → σ
  | [] => s
  | c :: rest => after (step c s).2 rest

/-- What happened along a sequence of calls. -/
def history (s : σ) : List α → List (Event σ α β)
  | [] => []
  | c :: rest => ⟨s, c, (step c s).1⟩ :: history (step c s).2 rest

variable {step}

@[simp] theorem after_nil (s : σ) : after step s [] = s := rfl
@[simp] theorem after_cons (s : σ) (c : α) (rest : List α) :
    after step s (c :: rest) = after step (step c s).2 rest := rfl

theorem after_append (s : σ) (calls calls' : List α) :
    after step s (calls ++ calls') = after step (after step s calls) calls' := by
  induction calls generalizing s with
  | nil => rfl
  | cons c rest ih => exact ih _

/-- An invariant of every step holds after every run. -/
theorem invariant {P : σ → Prop} (keep : ∀ c s, P s → P (step c s).2) {s : σ} (start : P s)
    (calls : List α) : P (after step s calls) := by
  induction calls generalizing s with
  | nil => exact start
  | cons c rest ih => exact ih (keep c s start)

/-- A machine that follows an abstract one at every step follows it along every run. -/
theorem simulates {τ : Type} {P : σ → Prop} {view : σ → τ} {move : τ → α → τ}
    (keep : ∀ c s, P s → P (step c s).2)
    (follows : ∀ c s, P s → view (step c s).2 = move (view s) c) {s : σ} (start : P s)
    (calls : List α) : view (after step s calls) = calls.foldl move (view s) := by
  induction calls generalizing s with
  | nil => rfl
  | cons c rest ih => rw [after_cons, ih (keep c s start), follows c s start, List.foldl_cons]

section Counter

variable {counter : σ → Nat} (mono : ∀ c s, counter s ≤ counter (step c s).2)
include mono

/-- A counter that no step lowers is not lowered by a run. -/
theorem counter_le_after (s : σ) (calls : List α) : counter s ≤ counter (after step s calls) := by
  induction calls generalizing s with
  | nil => exact Nat.le_refl _
  | cons c rest ih => exact Nat.le_trans (mono c s) (ih _)

/-- A counter that is back at its value saw none of the events that raise it. -/
theorem quiet_of_unmoved {Q : Event σ α β → Prop}
    (raises : ∀ c s, Q ⟨s, c, (step c s).1⟩ → counter s < counter (step c s).2)
    {s : σ} {calls : List α} (unmoved : counter (after step s calls) = counter s) :
    ∀ e ∈ history step s calls, ¬ Q e := by
  induction calls generalizing s with
  | nil => simp [history]
  | cons c rest ih =>
      have up := mono c s
      have rest_up := counter_le_after mono (step c s).2 rest
      rw [after_cons] at unmoved
      simp only [history, List.forall_mem_cons]
      refine ⟨fun raised => ?_, ih (by omega)⟩
      have := raises c s raised
      omega

/-- Between two equal readings of the counter the state is the same, when a step that
leaves the counter leaves the state. -/
theorem after_eq_of_unmoved (still : ∀ c s, counter (step c s).2 = counter s → (step c s).2 = s)
    {s : σ} {calls : List α} (unmoved : counter (after step s calls) = counter s) :
    after step s calls = s := by
  induction calls generalizing s with
  | nil => rfl
  | cons c rest ih =>
      have up := mono c s
      have rest_up := counter_le_after mono (step c s).2 rest
      rw [after_cons] at unmoved ⊢
      have same := still c s (by omega)
      rw [same] at unmoved ⊢
      exact ih unmoved

end Counter

/-- Marks that are unused when they are made, and used from then on, are made once. -/
theorem nodup_marks {γ : Type} {P : σ → Prop} (keep : ∀ c s, P s → P (step c s).2)
    {mark : Event σ α β → Option γ} {Used : σ → γ → Prop}
    (stays : ∀ c s g, P s → Used s g → Used (step c s).2 g)
    (fresh : ∀ c s g, P s → mark ⟨s, c, (step c s).1⟩ = some g →
      ¬ Used s g ∧ Used (step c s).2 g) {s : σ} (start : P s) (calls : List α) :
    ((history step s calls).filterMap mark).Nodup ∧
      ∀ g ∈ (history step s calls).filterMap mark, ¬ Used s g := by
  induction calls generalizing s with
  | nil => simp [history]
  | cons c rest ih =>
      obtain ⟨nodup, unused⟩ := ih (keep c s start)
      -- What is unused after the first step was unused before it.
      have before : ∀ g ∈ (history step (step c s).2 rest).filterMap mark, ¬ Used s g :=
        fun g mem used => unused g mem (stays c s g start used)
      simp only [history, List.filterMap_cons]
      cases made : mark ⟨s, c, (step c s).1⟩ with
      | none => exact ⟨nodup, before⟩
      | some g =>
          obtain ⟨new, used⟩ := fresh c s g start made
          refine ⟨List.nodup_cons.mpr ⟨fun again => unused g again used, nodup⟩, ?_⟩
          intro g' mem
          rcases List.mem_cons.mp mem with rfl | later
          · exact new
          · exact before g' later

end Run

end Machine
