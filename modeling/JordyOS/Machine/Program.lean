import Mathlib.Logic.Relation
import Mathlib.Tactic.Common

/-!
# Programs that may stop early

A program reads and changes a state, and either returns a value or stops for a reason; the state at
that moment is kept in both cases.  `Ensures` says what holds then, for one starting state.  The rules
follow the program text: one for each way of putting programs together.
-/

namespace JordyOS.Machine

/-- A program over states `σ` that returns an `α` or stops for a reason in `ε`. -/
abbrev Program (σ ε α : Type) := EStateM ε σ α

variable {σ ε α β : Type}

/-- From `s` the program returns with `post`, or stops with `halt`. -/
def Ensures (x : Program σ ε α) (s : σ) (post : α → σ → Prop) (halt : ε → σ → Prop) : Prop :=
  match x s with
  | .ok a t => post a t
  | .error e t => halt e t

namespace Ensures

variable {x : Program σ ε α} {f : α → Program σ ε β} {s : σ} {post other : α → σ → Prop}
  {result : β → σ → Prop} {halt : ε → σ → Prop}

theorem of_ok {a : α} {t : σ} (h : Ensures x s post halt) (hx : x s = .ok a t) : post a t := by
  unfold Ensures at h
  rw [hx] at h
  exact h

theorem of_error {e : ε} {t : σ} (h : Ensures x s post halt) (hx : x s = .error e t) : halt e t := by
  unfold Ensures at h
  rw [hx] at h
  exact h

theorem mono {stop : ε → σ → Prop} (h : Ensures x s other stop) (hpost : ∀ a t, other a t → post a t)
    (hhalt : ∀ e t, stop e t → halt e t) : Ensures x s post halt := by
  unfold Ensures at h ⊢
  cases hx : x s with
  | ok a t =>
    rw [hx] at h
    exact hpost a t h
  | error e t =>
    rw [hx] at h
    exact hhalt e t h

theorem pure {a : α} (h : post a s) : Ensures (Pure.pure a : Program σ ε α) s post halt := h

theorem throw {e : ε} (h : halt e s) : Ensures (MonadExcept.throw e : Program σ ε α) s post halt := h

theorem get {post : σ → σ → Prop} (h : post s s) :
    Ensures (MonadState.get : Program σ ε σ) s post halt := h

theorem set {t : σ} {post : PUnit → σ → Prop} (h : post ⟨⟩ t) :
    Ensures (MonadStateOf.set t : Program σ ε PUnit) s post halt := h

theorem modify {g : σ → σ} {post : PUnit → σ → Prop} (h : post ⟨⟩ (g s)) :
    Ensures (modify g : Program σ ε PUnit) s post halt := h

/-- What runs second starts where the first returned. -/
theorem bind (hx : Ensures x s (fun a t ↦ Ensures (f a) t result halt) halt) :
    Ensures (x >>= f) s result halt := by
  have hbind : (x >>= f) s = EStateM.bind x f s := rfl
  unfold Ensures at hx ⊢
  rw [hbind, EStateM.bind]
  cases h : x s with
  | ok a t =>
    rw [h] at hx
    exact hx
  | error e t =>
    rw [h] at hx
    exact hx

/-- A program with a known contract and what runs behind it. -/
theorem andThen (hx : Ensures x s other halt) (hf : ∀ a t, other a t → Ensures (f a) t result halt) :
    Ensures (x >>= f) s result halt :=
  bind (hx.mono hf fun _ _ h ↦ h)

theorem ite {y : Program σ ε α} {p : Prop} [Decidable p] (htrue : p → Ensures x s post halt)
    (hfalse : ¬ p → Ensures y s post halt) : Ensures (if p then x else y) s post halt := by
  by_cases h : p
  · rw [if_pos h]
    exact htrue h
  · rw [if_neg h]
    exact hfalse h

/-! ## Loops -/

/-- A loop over a list that carries a value: the invariant holds before every round. -/
theorem foldlM {step : β → α → Program σ ε β} {l : List α} {b : β} (invariant : β → σ → Prop)
    (hstart : invariant b s)
    (hstep : ∀ a ∈ l, ∀ c t, invariant c t → Ensures (step c a) t invariant halt) :
    Ensures (l.foldlM step b) s invariant halt := by
  induction l generalizing b s with
  | nil => exact hstart
  | cons a l ih =>
    rw [List.foldlM_cons]
    refine bind ((hstep a List.mem_cons_self b s hstart).mono ?_ fun _ _ h ↦ h)
    exact fun c t hc ↦ ih hc fun d hd ↦ hstep d (List.mem_cons_of_mem a hd)

theorem forM {body : α → Program σ ε PUnit} {l : List α} (invariant : σ → Prop) (hstart : invariant s)
    (hstep : ∀ a ∈ l, ∀ t, invariant t → Ensures (body a) t (fun _ ↦ invariant) halt) :
    Ensures (l.forM body) s (fun _ ↦ invariant) halt := by
  induction l generalizing s with
  | nil => exact hstart
  | cons a l ih =>
    refine bind ((hstep a List.mem_cons_self s hstart).mono ?_ fun _ _ h ↦ h)
    exact fun _ t ht ↦ ih ht fun d hd ↦ hstep d (List.mem_cons_of_mem a hd)

/-- A search that stops at the first `false`. -/
theorem allM {test : α → Program σ ε Bool} {l : List α} (invariant : σ → Prop) (hstart : invariant s)
    (hstep : ∀ a ∈ l, ∀ t, invariant t → Ensures (test a) t (fun _ ↦ invariant) halt) :
    Ensures (l.allM test) s (fun _ ↦ invariant) halt := by
  induction l generalizing s with
  | nil => exact hstart
  | cons a l ih =>
    refine bind ((hstep a List.mem_cons_self s hstart).mono ?_ fun _ _ h ↦ h)
    intro b t ht
    cases b with
    | true => exact ih ht fun d hd ↦ hstep d (List.mem_cons_of_mem a hd)
    | false => exact ht

end Ensures

/-! ## Definite results -/

/-- From `s` the program returns `a`, and the state then is `t`. -/
def Returns (x : Program σ ε α) (s : σ) (a : α) (t : σ) : Prop := x s = .ok a t

namespace Returns

variable {x : Program σ ε α} {f : α → Program σ ε β} {s t u : σ} {a : α} {b : β}

theorem ensures (h : Returns x s a t) {post : α → σ → Prop} {halt : ε → σ → Prop} (hpost : post a t) :
    Ensures x s post halt := by
  unfold Ensures
  rw [h]
  exact hpost

/-- What runs behind a program with a definite result starts with it. -/
theorem andThen (h : Returns x s a t) {result : β → σ → Prop} {halt : ε → σ → Prop}
    (hf : Ensures (f a) t result halt) : Ensures (x >>= f) s result halt :=
  Ensures.bind (h.ensures hf)

theorem pure : Returns (Pure.pure a : Program σ ε α) s a s := rfl

theorem pure_of_eq {c : α} (h : a = c) : Returns (Pure.pure a : Program σ ε α) s c s := by
  rw [h]
  exact pure

theorem get : Returns (MonadState.get : Program σ ε σ) s s s := rfl

theorem modify {g : σ → σ} : Returns (modify g : Program σ ε PUnit) s ⟨⟩ (g s) := rfl

theorem bind (hx : Returns x s a t) (hf : Returns (f a) t b u) : Returns (x >>= f) s b u := by
  change EStateM.bind x f s = _
  rw [EStateM.bind, hx]
  exact hf

/-- What runs first has returned. -/
theorem of_bind (h : Returns (x >>= f) s b u) : ∃ a t, Returns x s a t ∧ Returns (f a) t b u := by
  have hbind : EStateM.bind x f s = .ok b u := h
  rw [EStateM.bind] at hbind
  cases hx : x s with
  | ok a t =>
    rw [hx] at hbind
    exact ⟨a, t, hx, hbind⟩
  | error e t =>
    rw [hx] at hbind
    cases hbind

theorem ite_pos {y : Program σ ε α} {p : Prop} [Decidable p] (hp : p) (h : Returns x s a t) :
    Returns (if p then x else y) s a t := by
  rw [if_pos hp]
  exact h

theorem ite_neg {y : Program σ ε α} {p : Prop} [Decidable p] (hp : ¬ p) (h : Returns y s a t) :
    Returns (if p then x else y) s a t := by
  rw [if_neg hp]
  exact h

/-- Both branches, against a result that is a choice as well. -/
theorem ite {y : Program σ ε α} {c : α} {p q : Prop} [Decidable p] [Decidable q] (hpq : p ↔ q)
    (htrue : q → Returns x s a t) (hfalse : ¬ q → Returns y s c t) :
    Returns (if p then x else y) s (if q then a else c) t := by
  by_cases hq : q
  · rw [if_pos (hpq.mpr hq), if_pos hq]
    exact htrue hq
  · rw [if_neg (mt hpq.mp hq), if_neg hq]
    exact hfalse hq

/-- A loop whose rounds change only the value it carries. -/
theorem foldlM {step : β → α → Program σ ε β} {f : β → α → β} {l : List α}
    (hstep : ∀ c, ∀ a ∈ l, Returns (step c a) s (f c a) s) :
    Returns (l.foldlM step b) s (l.foldl f b) s := by
  induction l generalizing b with
  | nil => exact pure
  | cons a l ih =>
    rw [List.foldlM_cons, List.foldl_cons]
    exact bind (hstep b a List.mem_cons_self) (ih fun c d hd ↦ hstep c d (List.mem_cons_of_mem a hd))

theorem allM {test : α → Program σ ε Bool} {p : α → Bool} {l : List α}
    (htest : ∀ a ∈ l, Returns (test a) s (p a) s) : Returns (l.allM test) s (l.all p) s := by
  induction l with
  | nil => exact pure
  | cons a l ih =>
    refine bind (htest a List.mem_cons_self) ?_
    rw [List.all_cons]
    cases p a with
    | true => exact ih fun d hd ↦ htest d (List.mem_cons_of_mem a hd)
    | false => exact pure

theorem forM_append {body : α → Program σ ε PUnit} {l m : List α}
    (hl : Returns (l.forM body) s ⟨⟩ t) (hm : Returns (m.forM body) t ⟨⟩ u) :
    Returns ((l ++ m).forM body) s ⟨⟩ u := by
  induction l generalizing s with
  | nil =>
    obtain rfl : s = t := (EStateM.Result.ok.inj hl).2
    exact hm
  | cons a l ih =>
    obtain ⟨_, r, ha, hl⟩ := of_bind hl
    exact bind ha (ih hl)

end Returns

end JordyOS.Machine
