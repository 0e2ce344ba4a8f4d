/-
Outcomes of steps that may fail.
-/
import Mathlib.Data.List.Basic

namespace CyclePatterns

variable {ε α β : Type}

/-- What comes of a step that may fail and the one behind it. -/
theorem ok_of_bind_eq_ok {r : Except ε α} {f : α → Except ε β} {b : β}
    (h : r >>= f = .ok b) : ∃ a, r = .ok a ∧ f a = .ok b := by
  cases r with
  | error e => cases h
  | ok a => exact ⟨a, rfl, h⟩

theorem ok_of_map_eq_ok {f : α → β} {r : Except ε α} {b : β}
    (h : r.map f = .ok b) : ∃ a, r = .ok a ∧ f a = b := by
  cases r with
  | error e => cases h
  | ok a => exact ⟨a, rfl, Except.ok.inj h⟩

theorem exists_of_isOk {r : Except ε α} (h : r.isOk = true) : ∃ a, r = .ok a := by
  cases r with
  | error e => cases h
  | ok a => exact ⟨a, rfl⟩

theorem exists_ok_of_any {r : Except ε α} {p : α → Prop} [DecidablePred p]
    (h : r.toOption.any p = true) : ∃ a, r = .ok a ∧ p a := by
  cases r with
  | error e => cases h
  | ok a => exact ⟨a, rfl, of_decide_eq_true h⟩

/-! ### Whether a step fails, and what it gives otherwise -/

theorem ok_of_toOption {r : Except ε α} {a : α} (h : r.toOption = some a) : r = .ok a := by
  cases r with
  | error e => cases h
  | ok b => exact congrArg _ (Option.some.inj h)

theorem toOption_bind (r : Except ε α) (f : α → Except ε β) :
    (r >>= f).toOption = r.toOption.bind fun a => (f a).toOption := by
  cases r <;> rfl

theorem toOption_map (r : Except ε α) (f : α → β) :
    (r.map f).toOption = r.toOption.map f := by
  cases r <;> rfl

theorem toOption_bind_congr {r r' : Except ε α} {f f' : α → Except ε β}
    (h : r.toOption = r'.toOption) (hf : ∀ a, (f a).toOption = (f' a).toOption) :
    (r >>= f).toOption = (r' >>= f').toOption := by
  rw [toOption_bind, toOption_bind, h]
  exact congrArg _ (funext hf)

end CyclePatterns
