import ProcessModel.Proofs.Bodies

/-! The bound on loops and calls decides only whether a run ends.

What a run ends with under one bound it ends with under every greater bound. So the runs of a body
under all bounds together have at most one result. -/

namespace ProcessModel

namespace Interpreter

section Refines

variable {σ α β : Type}

/-- What can be seen of a run that ends: its value or its failure, and the state it leaves. -/
def effect : EStateM.Result (Stop Error) σ α → Option (Except Error α × σ)
  | .ok a s => some (.ok a, s)
  | .error (.failed e) s => some (.error e, s)
  | .error _ _ => none

/-- Wherever the first action ends, the second one does the same. -/
def Refines (x y : EStateM (Stop Error) σ α) : Prop := ∀ s, effect (x s) = none ∨ y s = x s

theorem Refines.refl (x : EStateM (Stop Error) σ α) : Refines x x := fun _ => .inr rfl

variable {x y : EStateM (Stop Error) σ α} {r : Except Error α × σ}

theorem Refines.effect (h : Refines x y) {s : σ} (hr : effect (x s) = some r) :
    effect (y s) = some r := by
  rcases h s with hnone | heq
  · simp [hnone] at hr
  · rw [heq, hr]

theorem refines_exhausted (y : EStateM (Stop Error) σ α) : Refines (throw .exhausted) y :=
  fun _ => .inl rfl

variable {f : α → EStateM (Stop Error) σ β}

theorem Refines.bind_of {g : α → EStateM (Stop Error) σ β} (h : Refines x y)
    (hf : ∀ a, (∃ s s', x s = .ok a s') → Refines (f a) (g a)) : Refines (x >>= f) (y >>= g) := by
  intro s
  simp only [Bind.bind, EStateM.bind]
  rcases h s with hnone | heq
  · left
    rcases hx : x s with ⟨a, s'⟩ | ⟨_ | _ | _, s'⟩ <;> simp_all [Interpreter.effect]
  · rw [heq]
    cases hx : x s with
    | error e s' => exact .inr rfl
    | ok a s' => exact hf a ⟨s, s', hx⟩ s'

theorem Refines.bind {g : α → EStateM (Stop Error) σ β} (h : Refines x y)
    (hf : ∀ a, Refines (f a) (g a)) : Refines (x >>= f) (y >>= g) :=
  h.bind_of fun a _ => hf a

variable {s s' : σ}

theorem effect_bind_ok {a : α} (h : effect (x s) = some (.ok a, s')) : (x >>= f) s = f a s' := by
  simp only [Bind.bind, EStateM.bind]
  rcases hx : x s with ⟨b, t⟩ | ⟨_ | _ | _, t⟩ <;> simp_all [effect]

theorem effect_bind_error {e : Error} (h : effect (x s) = some (.error e, s')) :
    effect ((x >>= f) s) = some (.error e, s') := by
  simp only [Bind.bind, EStateM.bind]
  rcases hx : x s with ⟨b, t⟩ | ⟨_ | _ | _, t⟩ <;> simp_all [effect]

theorem effect_bind_cases {r : Except Error β × σ} (h : effect ((x >>= f) s) = some r) :
    (∃ e s', effect (x s) = some (.error e, s') ∧ r = (.error e, s')) ∨
      ∃ a s', effect (x s) = some (.ok a, s') ∧ effect (f a s') = some r := by
  simp only [Bind.bind, EStateM.bind] at h
  rcases hx : x s with ⟨b, t⟩ | ⟨_ | _ | _, t⟩
  · rw [hx] at h
    exact .inr ⟨b, t, rfl, h⟩
  · rw [hx] at h
    cases h
    exact .inl ⟨_, t, rfl, rfl⟩
  all_goals
    rw [hx] at h
    cases h

theorem effect_bind_eq_ok {b : β} {t : σ} (h : effect ((x >>= f) s) = some (.ok b, t)) :
    ∃ a s', effect (x s) = some (.ok a, s') ∧ effect (f a s') = some (.ok b, t) := by
  rcases effect_bind_cases h with ⟨e, s', -, hr⟩ | hok
  · cases hr
  · exact hok

/-- A family of actions of which each one ends where those before it end, and as they do. -/
def Grows (x : Nat → EStateM (Stop Error) σ α) : Prop := ∀ n k, n ≤ k → Refines (x n) (x k)

/-- Some action of a family ends with the result `r`. -/
def Ends (x : Nat → EStateM (Stop Error) σ α) (s : σ) (r : Except Error α × σ) : Prop :=
  ∃ n, effect (x n s) = some r

def SameEnds (x y : Nat → EStateM (Stop Error) σ α) (s : σ) : Prop :=
  ∀ r, Ends x s r ↔ Ends y s r

variable {x y : Nat → EStateM (Stop Error) σ α} {f : Nat → α → EStateM (Stop Error) σ β}

theorem Grows.const (x : EStateM (Stop Error) σ α) : Grows fun _ => x := fun _ _ _ => .refl x

theorem Grows.bind (hx : Grows x) (hf : ∀ a, Grows fun n => f n a) : Grows fun n => x n >>= f n :=
  fun n k hn => (hx n k hn).bind fun a => hf a n k hn

theorem Ends.unique (hx : Grows x) {r' : Except Error α × σ} (h : Ends x s r) (h' : Ends x s r') :
    r = r' := by
  obtain ⟨n, hn⟩ := h
  obtain ⟨k, hk⟩ := h'
  have hr := (hx n (max n k) (Nat.le_max_left n k)).effect hn
  have hr' := (hx k (max n k) (Nat.le_max_right n k)).effect hk
  exact Option.some.inj (hr.symm.trans hr')

theorem Ends.of_succ (hx : Grows x) (h : ∀ n, x (n + 1) = y (n + 1)) (hr : Ends x s r) :
    Ends y s r := by
  obtain ⟨n, hn⟩ := hr
  exact ⟨n + 1, h n ▸ (hx n (n + 1) n.le_succ).effect hn⟩

theorem Ends.bind (hx : Grows x) (hf : ∀ a, Grows fun n => f n a) {a : α} {r : Except Error β × σ}
    (h : Ends x s (.ok a, s')) (hr : Ends (fun n => f n a) s' r) :
    Ends (fun n => x n >>= f n) s r := by
  obtain ⟨n, hn⟩ := h
  obtain ⟨k, hk⟩ := hr
  have hfirst := (hx n (max n k) (Nat.le_max_left n k)).effect hn
  have hsecond := (hf a k (max n k) (Nat.le_max_right n k)).effect hk
  exact ⟨max n k, (congrArg effect (effect_bind_ok hfirst)).trans hsecond⟩

theorem Ends.bind_error {e : Error} (h : Ends x s (.error e, s')) :
    Ends (fun n => x n >>= f n) s (.error e, s') := by
  obtain ⟨n, hn⟩ := h
  exact ⟨n, effect_bind_error hn⟩

end Refines

theorem onStore_refines {α : Type} {x y : OnStore α} (h : Refines x y) :
    Refines (onStore x) (onStore y) := by
  intro f
  unfold onStore
  rcases h f.store with hnone | heq
  · left
    rcases hx : x f.store with ⟨a, s⟩ | ⟨_ | _ | _, s⟩ <;> simp_all [effect]
  · rw [heq]
    exact .inr rfl

structure Context.Within (c c' : Context) : Prop where
  body : c.body = c'.body
  owner : c.owner = c'.owner
  call : ∀ owner name args, Refines (c.call owner name args) (c'.call owner name args)
  bound : c.bound ≤ c'.bound

variable {c c' : Context}

section

variable (h : c.Within c')
include h

theorem wholeNumber_within (v : Value) : wholeNumber c v = wholeNumber c' v := by
  simp only [wholeNumber, fault, h.body]

theorem assign_within (x : String) (v : Value) : assign c x v = assign c' x v := by
  simp only [assign, fault, h.body]

theorem compares_refines : Compares (fun _ => Refines) c c' where
  pure _ := .refl _
  bind := .bind_of
  wholeNumber v := wholeNumber_within h v ▸ .refl _
  bound := h.bound
  exhausted _ _ := refines_exhausted _

theorem nodeCompares_refines (e : Expr) : NodeCompares (fun _ => Refines) c c' e := by
  unfold NodeCompares
  split
  · simp only [eval, fault, h.body]
    exact .refl _
  · simp only [fetch, h.owner]
    exact fun _ _ => .refl _
  · rw [h.owner]
    exact fun _ _ => onStore_refines (h.call _ _ _)
  · trivial

theorem targetCompares_refines (t : Target) : TargetCompares (fun _ => Refines) c c' t := by
  cases t with
  | loc x => exact fun v => assign_within h x v ▸ .refl _
  | var path indices => exact fun _ _ _ => h.owner ▸ .refl _

theorem eval_refines (e : Expr) : Refines (eval c e) (eval c' e) :=
  eval_compares (compares_refines h) e fun x _ => nodeCompares_refines h x

theorem exec_refines (s : Stmt) : Refines (exec c s) (exec c' s) :=
  exec_compares (compares_refines h) s
    ⟨fun x _ => nodeCompares_refines h x, fun t _ => targetCompares_refines h t⟩

theorem execAll_refines (ss : List Stmt) : Refines (execAll c ss) (execAll c' ss) :=
  execAll_compares (compares_refines h) ss
    ⟨fun x _ => nodeCompares_refines h x, fun t _ => targetCompares_refines h t⟩

end

def inTree (m : Model) (owner : List String) (body : Body) (bound : Nat) : Context :=
  ⟨body, owner, call m bound, bound⟩

theorem call_refines (m : Model) {n k : Nat} (hn : n ≤ k) (owner : List String) (name : String)
    (args : List Value) : Refines (call m n owner name args) (call m k owner name args) := by
  induction n generalizing k owner name args with
  | zero => exact refines_exhausted _
  | succ n ih =>
    obtain ⟨k, rfl⟩ : ∃ j, k = j + 1 := ⟨k - 1, by omega⟩
    intro store
    simp only [call]
    split
    · exact .inr rfl
    · rename_i body hbody
      have hc : Context.Within ⟨body, owner, call m n, n⟩ ⟨body, owner, call m k, k⟩ :=
        ⟨rfl, rfl, fun o x a => ih (by omega) o x a, Nat.le_of_succ_le_succ hn⟩
      rcases execAll_refines hc body.stmts ⟨initialLocals body args, store⟩ with hnone | heq
      · left
        rcases hx : execAll ⟨body, owner, call m n, n⟩ body.stmts ⟨initialLocals body args, store⟩ with
          ⟨flow, f⟩ | ⟨_ | _ | _, f⟩ <;> simp_all [effect]
      · rw [heq]
        exact .inr rfl

theorem inTree_within (m : Model) (owner : List String) (body : Body) {n k : Nat} (hn : n ≤ k) :
    (inTree m owner body n).Within (inTree m owner body k) :=
  ⟨rfl, rfl, call_refines m hn, hn⟩

end Interpreter

end ProcessModel
