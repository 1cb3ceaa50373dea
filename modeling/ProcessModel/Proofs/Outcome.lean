import ProcessModel.Error

/-! Properties of what computations return.

`Yields` speaks about the value of a computation that may fail, `Keeps` about an action on a state:
what it leaves true of the state, and what holds of its value or of its failure. -/

namespace ProcessModel

section Yields

variable {ε ε' α β : Type}

/-- Whatever value a computation returns has property `P`. -/
def Yields (P : α → Prop) (r : Except ε α) : Prop := ∀ a, r = .ok a → P a

variable {P : α → Prop} {Q : β → Prop}

variable {a : α}

theorem yields_ok (h : P a) : Yields P (.ok a : Except ε α) := by
  intro b hb
  cases hb
  exact h

theorem yields_pure (h : P a) : Yields P (pure a : Except ε α) := yields_ok h

theorem yields_error (e : ε) : Yields P (.error e : Except ε α) := by
  intro a ha
  cases ha

theorem yields_throw (e : ε) : Yields P (throw e : Except ε α) := yields_error e

theorem yields_true (r : Except ε α) : Yields (fun _ => True) r := fun _ _ => trivial

variable {x : Except ε α} {f : α → Except ε β}

theorem yields_bind (hx : Yields P x) (hf : ∀ a, P a → Yields Q (f a)) : Yields Q (x >>= f) := by
  cases x with
  | error e => exact yields_error e
  | ok a => exact hf a (hx a rfl)

theorem yields_ite {c : Prop} [Decidable c] {y : Except ε α} (hx : Yields P x) (hy : Yields P y) :
    Yields P (if c then x else y) := by
  split
  · exact hx
  · exact hy

theorem yields_refuse {c : Prop} [Decidable c] {e : ε} {f : PUnit → Except ε β}
    (hf : Yields Q (f ⟨⟩)) : Yields Q (if c then throw e >>= f else f ⟨⟩) := by
  split
  · exact yields_error e
  · exact hf

theorem yields_mapError (f : ε → ε') (hx : Yields P x) : Yields P (x.mapError f) := by
  cases x with
  | error e => exact yields_error _
  | ok a => exact yields_ok (hx a rfl)

@[simp] theorem ok_bind (a : α) (f : α → Except ε β) : (Except.ok a : Except ε α) >>= f = f a := rfl

@[simp] theorem error_bind (e : ε) (f : α → Except ε β) :
    (Except.error e : Except ε α) >>= f = .error e := rfl

theorem bind_eq_ok {b : β} (h : x >>= f = .ok b) : ∃ a, x = .ok a ∧ f a = .ok b := by
  cases x with
  | error e => cases h
  | ok a => exact ⟨a, rfl, h⟩

theorem bind_eq_error {e : ε} (h : x >>= f = .error e) :
    x = .error e ∨ ∃ a, x = .ok a ∧ f a = .error e := by
  cases x with
  | error e' =>
    cases h
    exact .inl rfl
  | ok a => exact .inr ⟨a, rfl, h⟩

theorem mapM_eq_error {xs : List α} {e : ε} (h : xs.mapM f = .error e) :
    ∃ x ∈ xs, f x = .error e := by
  induction xs with
  | nil => cases h
  | cons x xs ih =>
    rw [List.mapM_cons] at h
    rcases bind_eq_error h with hx | ⟨_, -, h⟩
    · exact ⟨x, List.mem_cons_self, hx⟩
    · rcases bind_eq_error h with hxs | ⟨_, -, h⟩
      · obtain ⟨y, hy, hfails⟩ := ih hxs
        exact ⟨y, List.mem_cons_of_mem _ hy, hfails⟩
      · cases h

theorem map_eq_ok {f : α → β} {b : β} (h : x.map f = .ok b) : ∃ a, x = .ok a ∧ f a = b := by
  cases x with
  | error e => cases h
  | ok a => exact ⟨a, rfl, Except.ok.inj h⟩

theorem mapError_eq_ok {f : ε → ε'} (h : x.mapError f = .ok a) : x = .ok a := by
  cases x with
  | error e => cases h
  | ok b => exact congrArg Except.ok (Except.ok.inj h)

theorem toOption_eq_some (h : x.toOption = some a) : x = .ok a := by
  cases x with
  | error e => cases h
  | ok b => exact congrArg Except.ok (Option.some.inj h)

theorem exists_ok_of_any {p : α → Bool} (h : x.toOption.any p = true) :
    ∃ a, x = .ok a ∧ p a = true := by
  cases x with
  | error e => cases h
  | ok a => exact ⟨a, rfl, h⟩

theorem toOption_eq_none (h : x.toOption = none) : ∃ e, x = .error e := by
  cases x with
  | error e => exact ⟨e, rfl⟩
  | ok a => cases h

end Yields

section Keeps

variable {ε σ α β : Type}

/-- Started where `P` holds, an action ends where `P` holds. Its value has property `Q`, or its
failure has property `E`. -/
def Keeps (P : σ → Prop) (E : ε → Prop) (x : EStateM ε σ α) (Q : α → Prop) : Prop :=
  ∀ s, P s → match x s with
    | .ok a s' => P s' ∧ Q a
    | .error e s' => P s' ∧ E e

variable {P : σ → Prop} {E : ε → Prop} {Q : α → Prop} {R : β → Prop}

theorem keeps_pure {a : α} (h : Q a) : Keeps P E (pure a : EStateM ε σ α) Q :=
  fun _ hs => ⟨hs, h⟩

theorem keeps_throw {e : ε} (h : E e) : Keeps P E (throw e : EStateM ε σ α) Q :=
  fun _ hs => ⟨hs, h⟩

variable {x : EStateM ε σ α}

theorem keeps_bind {f : α → EStateM ε σ β} (hx : Keeps P E x Q)
    (hf : ∀ a, Q a → Keeps P E (f a) R) : Keeps P E (x >>= f) R := by
  intro s hs
  have h := hx s hs
  simp only [bind, EStateM.bind]
  cases hr : x s with
  | error e s' =>
    rw [hr] at h
    exact h
  | ok a s' =>
    rw [hr] at h
    exact hf a h.2 s' h.1

theorem keeps_ite {b : Prop} [Decidable b] {y : EStateM ε σ α} (hx : Keeps P E x Q)
    (hy : Keeps P E y Q) : Keeps P E (if b then x else y) Q := by
  split
  · exact hx
  · exact hy

theorem keeps_get {f : σ → EStateM ε σ β} (hf : ∀ s, P s → Keeps P E (f s) R) :
    Keeps P E (get >>= f) R := by
  intro s hs
  exact hf s hs s hs

theorem keeps_set {s : σ} (h : P s) : Keeps P E (set s : EStateM ε σ PUnit) fun _ => True :=
  fun _ _ => ⟨h, trivial⟩

theorem Keeps.failure (hx : Keeps P E x Q) {s s' : σ} {e : ε} (hs : P s) (h : x s = .error e s') :
    E e := by
  have hr := hx s hs
  rw [h] at hr
  exact hr.2

end Keeps

section Results

variable {ε σ α β : Type}

/-- A result with property `Q` of its value and the state it leaves, or with property `E` of its
failure and that state. -/
def Results (Q : α → σ → Prop) (E : ε → σ → Prop) : EStateM.Result ε σ α → Prop
  | .ok a s => Q a s
  | .error e s => E e s

variable {Q Q' : α → σ → Prop} {R : β → σ → Prop} {E E' : ε → σ → Prop}

instance [∀ a s, Decidable (Q a s)] [∀ e s, Decidable (E e s)] :
    (r : EStateM.Result ε σ α) → Decidable (Results Q E r)
  | .ok a s => inferInstanceAs (Decidable (Q a s))
  | .error e s => inferInstanceAs (Decidable (E e s))

theorem Results.exists_ok {r : EStateM.Result ε σ α} (h : Results Q (fun _ _ => False) r) :
    ∃ a s, r = .ok a s ∧ Q a s := by
  cases r with
  | ok a s => exact ⟨a, s, rfl, h⟩
  | error e s => exact h.elim

theorem Results.mono {r : EStateM.Result ε σ α} (h : Results Q E r) (hq : ∀ a s, Q a s → Q' a s)
    (he : ∀ e s, E e s → E' e s) : Results Q' E' r := by
  cases r with
  | ok a s => exact hq a s h
  | error e s => exact he e s h

variable {x : EStateM ε σ α} {f : α → EStateM ε σ β} {s : σ}

theorem Results.bind (h : Results (fun a t => Results R E (f a t)) E (x s)) :
    Results R E ((x >>= f) s) := by
  simp only [Bind.bind, EStateM.bind]
  cases hx : x s with
  | error e t =>
    rw [hx] at h
    exact h
  | ok a t =>
    rw [hx] at h
    exact h

theorem Results.andThen (hx : Results Q E (x s)) (hf : ∀ a t, Q a t → Results R E (f a t)) :
    Results R E ((x >>= f) s) :=
  .bind (hx.mono hf fun _ _ h => h)

theorem run_bind_ok {s' : σ} {a : α} (h : x s = .ok a s') : (x >>= f) s = f a s' := by
  simp only [Bind.bind, EStateM.bind, h]

theorem run_bind_error {s' : σ} {e : ε} (h : x s = .error e s') : (x >>= f) s = .error e s' := by
  simp only [Bind.bind, EStateM.bind, h]

theorem run_get (f : σ → EStateM ε σ α) (s : σ) : (get >>= f) s = f s s := rfl

theorem Keeps.results {P : σ → Prop} {F : ε → Prop} {G : α → Prop} (h : Keeps P F x G) (hs : P s) :
    Results (fun _ t => P t) (fun _ t => P t) (x s) := by
  have hx := h s hs
  cases hr : x s with
  | error e t =>
    rw [hr] at hx
    exact hx.1
  | ok a t =>
    rw [hr] at hx
    exact hx.1

end Results

end ProcessModel
