import ProcessModel.Interpreter
import ProcessModel.Proofs.Nodes
import ProcessModel.Proofs.Outcome

/-! What the run of a body keeps.

Two runs of a body are compared action by action: what sequences follow, and what reading a local or a
variable, writing to a target and calling a method have, is true of the body as a whole, whatever its
loops and choices do. -/

namespace ProcessModel

namespace Interpreter

/-- What may happen in every body: a number that is no integer where one is needed, and a loop or
call beyond the bound. -/
structure Tolerates (E : Stop Error → Prop) (c : Context) : Prop where
  notAnInteger : ∀ x, E (.failed (.run c.body.name (.notAnInteger x)))
  exhausted : E .exhausted

def fetch (c : Context) (path : VarPath) (index : List Int64) : Exec Value := do
  let (element, raw) ← ofExcept ((← get).store.read (path.below c.owner) index)
  return .ofElement element raw

def Gets {α : Type} (x : Exec α) (a : α) : Prop := ∃ f g, x f = .ok a g

/-- A relation between the actions of two runs of a body that sequences follow. A loop of the first
run may end at its bound while that of the second one goes on. -/
structure Compares (Rel : (α : Type) → Exec α → Exec α → Prop) (c c' : Context) : Prop where
  pure : ∀ {α : Type} (a : α), Rel α (pure a) (pure a)
  bind : ∀ {α β : Type} {x y : Exec α} {f g : α → Exec β}, Rel α x y →
    (∀ a, Gets x a → Rel β (f a) (g a)) → Rel β (x >>= f) (y >>= g)
  wholeNumber : ∀ v, Rel Int64 (wholeNumber c v) (wholeNumber c' v)
  bound : c.bound ≤ c'.bound
  exhausted : ∀ y, (c.bound = c'.bound → y = throw .exhausted) → Rel Flow (throw .exhausted) y

/-- What the two runs have to do at an expression itself, beside the expressions in it. -/
def NodeCompares (Rel : (α : Type) → Exec α → Exec α → Prop) (c c' : Context) : Expr → Prop
  | .loc x => Rel Value (eval c (.loc x)) (eval c' (.loc x))
  | .var path indices => ∀ index : List Int64, index.length = indices.length →
      Rel Value (fetch c path index) (fetch c' path index)
  | .call (.method owner name) args => ∀ values : List Value, values.length = args.length →
      Rel (Option Value) (onStore (c.call (c.owner ++ owner) name values))
        (onStore (c'.call (c'.owner ++ owner) name values))
  | _ => True

def TargetCompares (Rel : (α : Type) → Exec α → Exec α → Prop) (c c' : Context) : Target → Prop
  | .loc x => ∀ v, Rel Unit (assign c x v) (assign c' x v)
  | .var path indices => ∀ (index : List Int64) (v : Value), index.length = indices.length →
      Rel Unit (writeVar (path.below c.owner) index v) (writeVar (path.below c'.owner) index v)

theorem gets_of_bind {α β : Type} {x : Exec α} {f : α → Exec β} {b : β} (h : Gets (x >>= f) b) :
    ∃ a, Gets x a ∧ Gets (f a) b := by
  obtain ⟨g, g', h⟩ := h
  cases hx : x g with
  | error e t =>
    rw [run_bind_error hx] at h
    cases h
  | ok a t => exact ⟨a, ⟨g, t, hx⟩, t, g', (run_bind_ok hx).symm.trans h⟩

theorem gets_pure {α : Type} {a b : α} (h : Gets (pure a) b) : b = a := by
  obtain ⟨f, g, h⟩ := h
  cases h
  rfl

theorem Gets.length_evalAll {c : Context} {es : List Expr} {vs : List Value}
    (h : Gets (evalAll c es) vs) : vs.length = es.length := by
  induction es generalizing vs with
  | nil => rw [gets_pure h, List.length_nil, List.length_nil]
  | cons e es ih =>
    obtain ⟨v, -, h⟩ := gets_of_bind h
    obtain ⟨ws, hws, h⟩ := gets_of_bind h
    rw [gets_pure h, List.length_cons, List.length_cons, ih hws]

theorem Gets.length_evalIndices {c : Context} {es : List Expr} {is : List Int64}
    (h : Gets (evalIndices c es) is) : is.length = es.length := by
  induction es generalizing is with
  | nil => rw [gets_pure h, List.length_nil, List.length_nil]
  | cons e es ih =>
    obtain ⟨v, -, h⟩ := gets_of_bind h
    obtain ⟨i, -, h⟩ := gets_of_bind h
    obtain ⟨js, hjs, h⟩ := gets_of_bind h
    rw [gets_pure h, List.length_cons, List.length_cons, ih hjs]

section Compares

variable {Rel : (α : Type) → Exec α → Exec α → Prop} {c c' : Context}

theorem Compares.ite {α : Type} {p : Prop} [Decidable p] {x x' y y' : Exec α} (h : Rel α x y)
    (h' : Rel α x' y') : Rel α (if p then x else x') (if p then y else y') := by
  split
  · exact h
  · exact h'

mutual

theorem eval_compares (hr : Compares Rel c c') :
    ∀ e : Expr, e.All (NodeCompares Rel c c') → Rel Value (eval c e) (eval c' e)
  | .int n, _ => hr.pure _
  | .float x text, _ => hr.pure _
  | .bool b, _ => hr.pure _
  | .loc x, h => (Expr.all_loc x).1 h
  | .var path indices, h => by
    rw [Expr.all_var] at h
    exact hr.bind (evalIndices_compares hr indices h.2) fun index hi => h.1 index hi.length_evalIndices
  | .unary op e, h => by
    rw [Expr.all_unary] at h
    exact hr.bind (eval_compares hr e h.2) fun v _ => hr.pure _
  | .binary op l r, h => by
    rw [Expr.all_binary] at h
    have hleft := eval_compares hr l h.2.1
    have hright := eval_compares hr r h.2.2
    cases op
    case and =>
      refine hr.bind hleft fun a _ => ?_
      exact Compares.ite (hr.bind hright fun b _ => hr.pure _) (hr.pure _)
    case or =>
      refine hr.bind hleft fun a _ => ?_
      exact Compares.ite (hr.pure _) (hr.bind hright fun b _ => hr.pure _)
    all_goals
      exact hr.bind hleft fun a _ => hr.bind hright fun b _ => hr.pure _
  | .call (.builtin f) args, h => by
    rw [Expr.all_call] at h
    exact hr.bind (evalAll_compares hr args h.2) fun vs _ => hr.pure _
  | .call (.method owner name) args, h => by
    rw [Expr.all_call] at h
    refine hr.bind (evalAll_compares hr args h.2) fun vs hv => ?_
    exact hr.bind (h.1 vs hv.length_evalAll) fun v _ => hr.pure _

theorem evalAll_compares (hr : Compares Rel c c') :
    ∀ es : List Expr, Expr.AllIn (NodeCompares Rel c c') es →
      Rel (List Value) (evalAll c es) (evalAll c' es)
  | [], _ => hr.pure _
  | e :: es, h => by
    rw [Expr.allIn_cons] at h
    refine hr.bind (eval_compares hr e h.1) fun v _ => ?_
    exact hr.bind (evalAll_compares hr es h.2) fun vs _ => hr.pure _

theorem evalIndices_compares (hr : Compares Rel c c') :
    ∀ es : List Expr, Expr.AllIn (NodeCompares Rel c c') es →
      Rel (List Int64) (evalIndices c es) (evalIndices c' es)
  | [], _ => hr.pure _
  | e :: es, h => by
    rw [Expr.allIn_cons] at h
    refine hr.bind (eval_compares hr e h.1) fun v _ => ?_
    refine hr.bind (hr.wholeNumber v) fun i _ => ?_
    exact hr.bind (evalIndices_compares hr es h.2) fun is _ => hr.pure _

end

theorem countLoop_compares (hr : Compares Rel c c') {set set' : Int64 → Exec Unit}
    {body body' : Exec Flow} (hset : ∀ n, Rel Unit (set n) (set' n)) (hbody : Rel Flow body body')
    (step stop : Int64) {n k : Nat} (hn : n ≤ k) (hnk : c.bound = c'.bound → n = k)
    (counter : Int64) :
    Rel Flow (countLoop set body step stop n counter) (countLoop set' body' step stop k counter) := by
  induction n generalizing k counter with
  | zero =>
    refine hr.exhausted _ fun heq => ?_
    obtain rfl := hnk heq
    rfl
  | succ n ih =>
    obtain ⟨k, rfl⟩ : ∃ j, k = j + 1 := ⟨k - 1, by omega⟩
    refine hr.bind (hset counter) fun _ _ => Compares.ite (hr.bind hbody fun flow _ => ?_) (hr.pure _)
    cases flow with
    | ret v => exact hr.pure _
    | next => exact ih (by omega) (by omega) _

theorem testLoop_compares (hr : Compares Rel c c') {test test' : Exec Bool} {body body' : Exec Flow}
    (htest : Rel Bool test test') (hbody : Rel Flow body body') {n k : Nat} (hn : n ≤ k)
    (hnk : c.bound = c'.bound → n = k) :
    Rel Flow (testLoop test body n) (testLoop test' body' k) := by
  induction n generalizing k with
  | zero =>
    refine hr.exhausted _ fun heq => ?_
    obtain rfl := hnk heq
    rfl
  | succ n ih =>
    obtain ⟨k, rfl⟩ : ∃ j, k = j + 1 := ⟨k - 1, by omega⟩
    refine hr.bind htest fun _ _ => Compares.ite (hr.bind hbody fun flow _ => ?_) (hr.pure _)
    cases flow with
    | ret v => exact hr.pure _
    | next => exact ih (by omega) (by omega)

mutual

theorem exec_compares (hr : Compares Rel c c') : ∀ s : Stmt,
    s.All (NodeCompares Rel c c') (TargetCompares Rel c c') → Rel Flow (exec c s) (exec c' s)
  | .assign line (.loc x) e, h => by
    rw [Stmt.all_assign] at h
    refine hr.bind (eval_compares hr e h.2.2) fun v _ => ?_
    exact hr.bind (h.1 v) fun _ _ => hr.pure _
  | .assign line (.var path indices) e, h => by
    rw [Stmt.all_assign] at h
    refine hr.bind (eval_compares hr e h.2.2) fun v _ => ?_
    refine hr.bind (evalIndices_compares hr indices h.2.1) fun index hi => ?_
    exact hr.bind (h.1 index v hi.length_evalIndices) fun _ _ => hr.pure _
  | .count line x start stop step body, h => by
    rw [Stmt.all_count] at h
    refine hr.bind (eval_compares hr start h.2.1) fun v _ => ?_
    refine hr.bind (hr.wholeNumber v) fun first _ => ?_
    refine hr.bind (eval_compares hr stop h.2.2.1) fun v _ => ?_
    refine hr.bind (hr.wholeNumber v) fun last _ => ?_
    exact countLoop_compares hr (fun n => h.1 _) (execAll_compares hr body h.2.2.2) _ _ hr.bound id _
  | .choose line clauses otherwise, h => by
    rw [Stmt.all_choose] at h
    exact execClauses_compares hr clauses h.1 (execAll_compares hr otherwise h.2)
  | .loop line test body, h => by
    rw [Stmt.all_loop] at h
    refine testLoop_compares hr ?_ (execAll_compares hr body h.2) hr.bound id
    exact hr.bind (eval_compares hr test h.1) fun v _ => hr.pure _
  | .ret line none, _ => hr.pure _
  | .ret line (some e), h => by
    rw [Stmt.all_ret_some] at h
    exact hr.bind (eval_compares hr e h) fun v _ => hr.pure _
  | .pass, _ => hr.pure _
  | .call line e, h => by
    rw [Stmt.all_callStmt] at h
    exact hr.bind (eval_compares hr e h) fun v _ => hr.pure _

theorem execAll_compares (hr : Compares Rel c c') : ∀ ss : List Stmt,
    Stmt.AllIn (NodeCompares Rel c c') (TargetCompares Rel c c') ss →
      Rel Flow (execAll c ss) (execAll c' ss)
  | [], _ => hr.pure _
  | s :: ss, h => by
    rw [Stmt.allIn_cons] at h
    refine hr.bind (exec_compares hr s h.1) fun flow _ => ?_
    cases flow with
    | ret v => exact hr.pure _
    | next => exact execAll_compares hr ss h.2

theorem execClauses_compares (hr : Compares Rel c c') : ∀ cs : List Clause,
    Stmt.AllClauses (NodeCompares Rel c c') (TargetCompares Rel c c') cs →
      ∀ {otherwise otherwise' : Exec Flow}, Rel Flow otherwise otherwise' →
        Rel Flow (execClauses c cs otherwise) (execClauses c' cs otherwise')
  | [], _, _, _, ho => ho
  | ⟨test, body⟩ :: cs, h, _, _, ho => by
    rw [Stmt.allClauses_cons] at h
    refine hr.bind (eval_compares hr test h.1) fun v _ => ?_
    exact Compares.ite (execAll_compares hr body h.2.1) (execClauses_compares hr cs h.2.2 ho)

end

end Compares

/-- Whether `P` is kept by what an expression does itself, beside the expressions in it. -/
def NodeKeeps (P : Frame → Prop) (E : Stop Error → Prop) (c : Context) : Expr → Prop
  | .loc x => Keeps P E (eval c (.loc x)) fun _ => True
  | .var path indices => ∀ index : List Int64, index.length = indices.length →
      Keeps P E (fetch c path index) fun _ => True
  | .call (.method owner name) args => ∀ values : List Value, values.length = args.length →
      Keeps P E (onStore (c.call (c.owner ++ owner) name values)) fun _ => True
  | _ => True

def TargetKeeps (P : Frame → Prop) (E : Stop Error → Prop) (c : Context) : Target → Prop
  | .loc x => ∀ v, Keeps P E (assign c x v) fun _ => True
  | .var path indices => ∀ (index : List Int64) (v : Value), index.length = indices.length →
      Keeps P E (writeVar (path.below c.owner) index v) fun _ => True

variable {P : Frame → Prop} {E : Stop Error → Prop} {c : Context}

theorem wholeNumber_keeps (ht : Tolerates E c) (v : Value) :
    Keeps P E (wholeNumber c v) fun _ => True := by
  unfold wholeNumber
  split
  · exact keeps_pure trivial
  · exact keeps_throw (ht.notAnInteger _)

theorem compares_keeps (ht : Tolerates E c) :
    Compares (fun _ x _ => Keeps P E x fun _ => True) c c where
  pure _ := keeps_pure trivial
  bind {_ _ x _ _ _} hx hf := by
    have hgets : Keeps P E x (Gets x) := by
      intro f hf
      have h := hx f hf
      split at h
      · rename_i a g hr
        exact ⟨h.1, f, g, hr⟩
      · exact h
    exact keeps_bind hgets hf
  wholeNumber := wholeNumber_keeps ht
  bound := Nat.le_refl _
  exhausted _ _ := keeps_throw ht.exhausted

theorem nodeCompares_keeps {e : Expr} (h : NodeKeeps P E c e) :
    NodeCompares (fun _ x _ => Keeps P E x fun _ => True) c c e := by
  unfold NodeKeeps at h
  unfold NodeCompares
  split <;> simp_all

theorem targetCompares_keeps {t : Target} (h : TargetKeeps P E c t) :
    TargetCompares (fun _ x _ => Keeps P E x fun _ => True) c c t := by
  cases t <;> exact h

variable (ht : Tolerates E c)
include ht

theorem eval_keeps (e : Expr) (h : e.All (NodeKeeps P E c)) :
    Keeps P E (eval c e) fun _ => True :=
  eval_compares (compares_keeps ht) e fun x hx => nodeCompares_keeps (h x hx)

theorem evalAll_keeps (es : List Expr) (h : Expr.AllIn (NodeKeeps P E c) es) :
    Keeps P E (evalAll c es) fun _ => True :=
  evalAll_compares (compares_keeps ht) es fun x hx => nodeCompares_keeps (h x hx)

theorem evalIndices_keeps (es : List Expr) (h : Expr.AllIn (NodeKeeps P E c) es) :
    Keeps P E (evalIndices c es) fun _ => True :=
  evalIndices_compares (compares_keeps ht) es fun x hx => nodeCompares_keeps (h x hx)

theorem exec_keeps (s : Stmt) (h : s.All (NodeKeeps P E c) (TargetKeeps P E c)) :
    Keeps P E (exec c s) fun _ => True :=
  exec_compares (compares_keeps ht) s
    ⟨fun x hx => nodeCompares_keeps (h.1 x hx), fun t ht => targetCompares_keeps (h.2 t ht)⟩

theorem execAll_keeps (ss : List Stmt) (h : Stmt.AllIn (NodeKeeps P E c) (TargetKeeps P E c) ss) :
    Keeps P E (execAll c ss) fun _ => True :=
  execAll_compares (compares_keeps ht) ss
    ⟨fun x hx => nodeCompares_keeps (h.1 x hx), fun t ht => targetCompares_keeps (h.2 t ht)⟩

end Interpreter

end ProcessModel
