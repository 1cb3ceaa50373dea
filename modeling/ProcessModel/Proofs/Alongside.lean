import ProcessModel.Proofs.Bodies

/-! Two runs of one body.

The same body is run in two contexts, from two frames that belong together. If reading a local or a
variable, writing to a target and calling a method all do the same on both sides, then so does the
body as a whole. -/

namespace ProcessModel

section Actions

variable {ε σ τ α β : Type} {R : σ → τ → Prop} {E : ε → ε → Prop}

/-- Two results belong together: both are the same value, or both are failures that belong
together. -/
inductive Agree (R : σ → τ → Prop) (E : ε → ε → Prop) :
    EStateM.Result ε σ α → EStateM.Result ε τ α → Prop
  | ok {a : α} {s : σ} {t : τ} (h : R s t) : Agree R E (.ok a s) (.ok a t)
  | error {e e' : ε} {s : σ} {t : τ} (he : E e e') (h : R s t) : Agree R E (.error e s) (.error e' t)

theorem Agree.mono {R' : σ → τ → Prop} (himp : ∀ {s t}, R s t → R' s t)
    {r : EStateM.Result ε σ α} {r' : EStateM.Result ε τ α} (h : Agree R E r r') : Agree R' E r r' := by
  cases h with
  | ok h => exact .ok (himp h)
  | error he h => exact .error he (himp h)

/-- Two actions do the same on states that belong together. -/
def Alongside (R : σ → τ → Prop) (E : ε → ε → Prop) (x : EStateM ε σ α) (y : EStateM ε τ α) : Prop :=
  ∀ s t, R s t → Agree R E (x s) (y t)

theorem alongside_pure (a : α) : Alongside R E (pure a : EStateM ε σ α) (pure a) :=
  fun _ _ h => .ok h

theorem alongside_throw {e e' : ε} (h : E e e') :
    Alongside R E (throw e : EStateM ε σ α) (throw e') :=
  fun _ _ hst => .error h hst

theorem alongside_bind_of {x : EStateM ε σ α} {y : EStateM ε τ α} {f : α → EStateM ε σ β}
    {g : α → EStateM ε τ β} (hxy : Alongside R E x y)
    (hfg : ∀ a, (∃ s s', x s = .ok a s') → Alongside R E (f a) (g a)) :
    Alongside R E (x >>= f) (y >>= g) := by
  intro s t hst
  have h := hxy s t hst
  generalize hx : x s = r, hy : y t = r' at h
  cases h with
  | ok h =>
    rw [run_bind_ok hx, run_bind_ok hy]
    exact hfg _ ⟨_, _, hx⟩ _ _ h
  | error he h =>
    rw [run_bind_error hx, run_bind_error hy]
    exact .error he h

theorem alongside_get {f : σ → EStateM ε σ α} {g : τ → EStateM ε τ α}
    (h : ∀ s t, R s t → Alongside R E (f s) (g t)) : Alongside R E (get >>= f) (get >>= g) := by
  intro s t hst
  rw [run_get, run_get]
  exact h s t hst s t hst

theorem alongside_set {s : σ} {t : τ} (h : R s t) :
    Alongside R E (set s : EStateM ε σ PUnit) (set t) :=
  fun _ _ _ => .ok h

end Actions

namespace Interpreter

variable {R : Frame → Frame → Prop} {E : Stop Error → Stop Error → Prop} {c c' : Context}

/-- Two contexts of one body. What may happen in every body happens on both sides alike. -/
structure Twin (E : Stop Error → Stop Error → Prop) (c c' : Context) : Prop where
  body : c'.body = c.body
  bound : c'.bound = c.bound
  notAnInteger : ∀ x, E (.failed (.run c.body.name (.notAnInteger x)))
    (.failed (.run c.body.name (.notAnInteger x)))
  exhausted : E .exhausted .exhausted

/-- Whether an expression itself, beside the expressions in it, does the same on both sides. -/
def NodeAlongside (R : Frame → Frame → Prop) (E : Stop Error → Stop Error → Prop)
    (c c' : Context) : Expr → Prop
  | .loc x => Alongside R E (eval c (.loc x)) (eval c' (.loc x))
  | .var path _ => ∀ index, Alongside R E (fetch c path index) (fetch c' path index)
  | .call (.method owner name) _ => ∀ values,
      Alongside R E (onStore (c.call (c.owner ++ owner) name values))
        (onStore (c'.call (c'.owner ++ owner) name values))
  | _ => True

def TargetAlongside (R : Frame → Frame → Prop) (E : Stop Error → Stop Error → Prop)
    (c c' : Context) : Target → Prop
  | .loc x => ∀ v, Alongside R E (assign c x v) (assign c' x v)
  | .var path _ => ∀ index v, Alongside R E (writeVar (path.below c.owner) index v)
      (writeVar (path.below c'.owner) index v)

theorem wholeNumber_alongside (h : Twin E c c') (v : Value) :
    Alongside R E (wholeNumber c v) (wholeNumber c' v) := by
  unfold wholeNumber fault
  rw [h.body]
  split
  · exact alongside_pure _
  · exact alongside_throw (h.notAnInteger _)

theorem compares_alongside (h : Twin E c c') : Compares (fun _ => Alongside R E) c c' where
  pure := alongside_pure
  bind := alongside_bind_of
  wholeNumber := wholeNumber_alongside h
  bound := Nat.le_of_eq h.bound.symm
  exhausted y hy := by
    rw [hy h.bound.symm]
    exact alongside_throw h.exhausted

theorem execAll_alongside (h : Twin E c c') (ss : List Stmt)
    (hs : Stmt.AllIn (NodeAlongside R E c c') (TargetAlongside R E c c') ss) :
    Alongside R E (execAll c ss) (execAll c' ss) := by
  refine execAll_compares (compares_alongside h) ss ⟨fun e he => ?_, fun t ht => ?_⟩
  · have hnode := hs.1 e he
    unfold NodeAlongside at hnode
    unfold NodeCompares
    split <;> simp_all
  · have htarget := hs.2 t ht
    cases t with
    | loc x => exact htarget
    | var path indices => exact fun index v _ => htarget index v

end Interpreter

end ProcessModel
