import JordyOS.Machine.Program

/-!
# Two runs of a program

Two programs, usually one program twice, run from related states, do the same: they return the same value or
stop for the same reason, and the states afterwards are related again.  The rules follow the program text.
-/

namespace JordyOS.Machine

variable {σ ε α β : Type}

/-- Both return one value with `post`, or both stop for one reason, in states related by `R`. -/
def Agree (R : σ → σ → Prop) (post : α → Prop) (x y : Program σ ε α) (s t : σ) : Prop :=
  match x s, y t with
  | .ok a u, .ok b v => a = b ∧ post a ∧ R u v
  | .error d u, .error e v => d = e ∧ R u v
  | _, _ => False

namespace Agree

variable {R : σ → σ → Prop} {post mid : α → Prop} {result : β → Prop} {x y : Program σ ε α} {s t : σ}

theorem pure {a : α} (h : R s t) (ha : post a) :
    Agree R post (Pure.pure a : Program σ ε α) (Pure.pure a) s t := ⟨rfl, ha, h⟩

theorem throw {e : ε} (h : R s t) :
    Agree R post (MonadExcept.throw e : Program σ ε α) (MonadExcept.throw e) s t := ⟨rfl, h⟩

theorem modify {f : σ → σ} (h : R (f s) (f t)) :
    Agree R (fun _ ↦ True) (modify f : Program σ ε PUnit) (modify f) s t := ⟨rfl, trivial, h⟩

theorem set {u v : σ} (h : R u v) :
    Agree R (fun _ ↦ True) (MonadStateOf.set u : Program σ ε PUnit) (MonadStateOf.set v) s t :=
  ⟨rfl, trivial, h⟩

/-- What follows may depend on the state that was read, which need not be the same. -/
theorem get {f g : σ → Program σ ε β} (h : Agree R result (f s) (g t) s t) :
    Agree R result (MonadState.get >>= f) (MonadState.get >>= g) s t := h

theorem bind {f g : α → Program σ ε β} (hx : Agree R mid x y s t)
    (hf : ∀ a u v, mid a → R u v → Agree R result (f a) (g a) u v) :
    Agree R result (x >>= f) (y >>= g) s t := by
  have hfirst : (x >>= f) s = EStateM.bind x f s := rfl
  have hsecond : (y >>= g) t = EStateM.bind y g t := rfl
  unfold Agree at hx ⊢
  rw [hfirst, hsecond, EStateM.bind, EStateM.bind]
  cases hxs : x s <;> cases hyt : y t <;> rw [hxs, hyt] at hx
  · obtain ⟨rfl, hmid, hrelated⟩ := hx
    exact hf _ _ _ hmid hrelated
  · exact hx.elim
  · exact hx.elim
  · exact hx

theorem ite {z w : Program σ ε α} {p q : Prop} [Decidable p] [Decidable q] (hpq : p ↔ q)
    (htrue : p → Agree R post x z s t) (hfalse : ¬ p → Agree R post y w s t) :
    Agree R post (if p then x else y) (if q then z else w) s t := by
  by_cases hp : p
  · rw [if_pos hp, if_pos (hpq.mp hp)]
    exact htrue hp
  · rw [if_neg hp, if_neg (mt hpq.mpr hp)]
    exact hfalse hp

/-! ## Loops -/

theorem foldlM {step : β → α → Program σ ε β} {l : List α} {b : β} (h : R s t) (hb : result b)
    (hstep : ∀ a ∈ l, ∀ c u v, result c → R u v → Agree R result (step c a) (step c a) u v) :
    Agree R result (l.foldlM step b) (l.foldlM step b) s t := by
  induction l generalizing b s t with
  | nil => exact pure h hb
  | cons a l ih =>
    rw [List.foldlM_cons]
    refine bind (hstep a List.mem_cons_self b s t hb h) fun c u v hc huv ↦ ?_
    exact ih huv hc fun d hd ↦ hstep d (List.mem_cons_of_mem a hd)

theorem forM {body : α → Program σ ε PUnit} {l : List α} (h : R s t)
    (hbody : ∀ a ∈ l, ∀ u v, R u v → Agree R (fun _ ↦ True) (body a) (body a) u v) :
    Agree R (fun _ ↦ True) (l.forM body) (l.forM body) s t := by
  induction l generalizing s t with
  | nil => exact pure h trivial
  | cons a l ih =>
    refine bind (hbody a List.mem_cons_self s t h) fun _ u v _ huv ↦ ?_
    exact ih huv fun d hd ↦ hbody d (List.mem_cons_of_mem a hd)

theorem allM {test : α → Program σ ε Bool} {l : List α} (h : R s t)
    (htest : ∀ a ∈ l, ∀ u v, R u v → Agree R (fun _ ↦ True) (test a) (test a) u v) :
    Agree R (fun _ ↦ True) (l.allM test) (l.allM test) s t := by
  induction l generalizing s t with
  | nil => exact pure h trivial
  | cons a l ih =>
    refine bind (htest a List.mem_cons_self s t h) fun b u v _ huv ↦ ?_
    cases b with
    | true => exact ih huv fun d hd ↦ htest d (List.mem_cons_of_mem a hd)
    | false => exact pure huv trivial

end Agree

end JordyOS.Machine
