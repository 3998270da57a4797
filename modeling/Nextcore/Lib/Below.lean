import Nextcore.Lib.Outcome

/-!
Outcomes in the order of what they return.

`Below x y` holds where `y` returns whatever `x` does. A computation that only tests less than
another one is above it, and so one induction over the binds carries the order from the tests to
the whole computation.
-/

namespace Checked.Outcome

variable {ε α β : Type} {x y : Outcome ε α}

/-- `y` returns what `x` returns; where `x` does not return, `y` may do anything. -/
def Below (x y : Outcome ε α) : Prop := ∀ a, x = .ok a → y = .ok a

theorem Below.refl (x : Outcome ε α) : Below x x := fun _ done => done

theorem Below.bind {f g : α → Outcome ε β} (below : Below x y)
    (rest : ∀ a, x = .ok a → Below (f a) (g a)) : Below (x >>= f) (y >>= g) := by
  intro b done
  obtain ⟨a, first, second⟩ := bind_eq_ok.mp done
  rw [below a first, bind_ok]
  exact rest a first b second

/-- The rest behind the same step. -/
theorem below_bind {f g : α → Outcome ε β} (rest : ∀ a, x = .ok a → Below (f a) (g a)) :
    Below (x >>= f) (x >>= g) := (Below.refl x).bind rest

theorem below_rejectIf {p q : Prop} [Decidable p] [Decidable q] {e e' : ε} (weaken : q → p) :
    Below (rejectIf p e) (rejectIf q e') := by
  intro _ done
  exact rejectIf_eq_ok.mpr fun rejected => rejectIf_eq_ok.mp done (weaken rejected)

theorem below_ofOption {e e' : ε} {found found' : Option α}
    (kept : ∀ a, found = some a → found' = some a) :
    Below (ofOption e found) (ofOption e' found') := by
  intro a done
  exact ofOption_eq_ok.mpr (kept a (ofOption_eq_ok.mp done))

end Checked.Outcome
