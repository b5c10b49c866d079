import Mathlib.Data.List.Basic
import Mathlib.Tactic.Common

/-!
# Computations that may fail

A result or the reason for which there is none.  A computation of several steps that has a result has one after each
step, and what every round of a loop adds is there, in the order of the rounds, when the loop has ended.
-/

namespace JordyOS.Machine

variable {ε α σ ρ : Type}

@[simp]
theorem ok_bind {β : Type} (a : α) (f : α → Except ε β) : ((.ok a : Except ε α) >>= f) = f a := rfl

theorem of_bind_ok {β : Type} {x : Except ε α} {f : α → Except ε β} {b : β} (h : (x >>= f) = .ok b) :
    ∃ a, x = .ok a ∧ f a = .ok b := by
  cases x with
  | error stop => cases h
  | ok a => exact ⟨a, rfl, h⟩

/-- A loop whose rounds have a result: `progress` says of a state what the rounds before it have added. -/
theorem foldlM_trace {f : σ → α → Except ε σ} {added : α → List ρ} (progress : List ρ → σ → Prop) {l : List α}
    (hstep : ∀ a ∈ l, ∀ before s t, progress before s → f s a = .ok t → progress (before ++ added a) t)
    {before : List ρ} {s t : σ} (hstart : progress before s) (h : l.foldlM f s = .ok t) :
    progress (before ++ l.flatMap added) t := by
  induction l generalizing before s with
  | nil =>
    obtain rfl := Except.ok.inj h
    rw [List.flatMap_nil, List.append_nil]
    exact hstart
  | cons a l ih =>
    rw [List.foldlM_cons] at h
    obtain ⟨next, hround, hrest⟩ := of_bind_ok h
    rw [List.flatMap_cons, ← List.append_assoc]
    exact ih (fun b hb ↦ hstep b (List.mem_cons_of_mem a hb)) (hstep a List.mem_cons_self before s next hstart hround)
      hrest

end JordyOS.Machine
