import Mathlib.Logic.Relation
import ProcessModel.Proofs.Bounds
import ProcessModel.Proofs.Storage

/-! The points of a run.

Running a part of a body starts with running the parts in it, one after the other, each in the frame
that those before it have left. The points of a run are what can be reached from its first one in this
way, also through the calls of methods. -/

namespace ProcessModel

namespace Expr

mutual

/-- The expressions in an expression that stand where an integer is needed: at the indices of a
variable. -/
def places : Expr → List Expr
  | .var _ indices => indices ++ placesAll indices
  | .unary _ e => places e
  | .binary _ l r => places l ++ places r
  | .call _ args => placesAll args
  | _ => []

def placesAll : List Expr → List Expr
  | [] => []
  | e :: es => places e ++ placesAll es

end

end Expr

namespace Stmt

mutual

/-- The expressions in a statement that stand where an integer is needed: at the indices of variables
and at the bounds of loops. -/
def places : Stmt → List Expr
  | .assign _ target value => target.indices ++ Expr.placesAll target.indices ++ value.places
  | .count _ _ start stop _ body => [start, stop] ++ Expr.placesAll [start, stop] ++ placesAll body
  | .choose _ clauses otherwise => clausePlaces clauses ++ placesAll otherwise
  | .loop _ test body => test.places ++ placesAll body
  | .ret _ (some e) => e.places
  | .ret _ none => []
  | .pass => []
  | .call _ e => e.places

def placesAll : List Stmt → List Expr
  | [] => []
  | s :: rest => places s ++ placesAll rest

def clausePlaces : List Clause → List Expr
  | [] => []
  | ⟨test, body⟩ :: rest => test.places ++ placesAll body ++ clausePlaces rest

end

end Stmt

/-- Whether the right operand is evaluated when the left one has the value `a`. -/
def BinaryOp.readsRight : BinaryOp → Value → Bool
  | .and, a => a.isTrue
  | .or, a => !a.isTrue
  | _, _ => true

namespace Interpreter

inductive Part
  | expr (e : Expr)
  | args (es : List Expr)
  /-- Expressions that have to be integers: the indices of a variable, or the bounds of a loop. -/
  | places (es : List Expr)
  | stmt (s : Stmt)
  | stmts (ss : List Stmt)
  | clauses (cs : List Clause) (otherwise : List Stmt)
  /-- The turns of a counting loop, from one value of its counter on. -/
  | turns (counter : String) (step : Int64) (body : List Stmt) (stop next : Int64)

/-- The expressions of a part that have to be integers. -/
def Part.integers : Part → List Expr
  | .expr e => e.places
  | .args es => Expr.placesAll es
  | .places es => es ++ Expr.placesAll es
  | .stmt s => s.places
  | .stmts ss => Stmt.placesAll ss
  | .clauses cs otherwise => Stmt.clausePlaces cs ++ Stmt.placesAll otherwise
  | .turns _ _ body _ _ => Stmt.placesAll body

/-- The targets that running a part may assign to. -/
def Part.targets : Part → List Target
  | .expr _ | .args _ | .places _ => []
  | .stmt s => s.targets
  | .stmts ss => Stmt.targetsAll ss
  | .clauses cs otherwise => Stmt.clauseTargets cs ++ Stmt.targetsAll otherwise
  | .turns counter _ body _ _ => .loc counter :: Stmt.targetsAll body

/-- In a running body, a part that starts in the frame `g` starts another part in the frame `h`. -/
inductive Inner (c : Context) : Part → Frame → Part → Frame → Prop
  | indices {path es g} : Inner c (.expr (.var path es)) g (.places es) g
  | operand {op e g} : Inner c (.expr (.unary op e)) g (.expr e) g
  | left {op l r g} : Inner c (.expr (.binary op l r)) g (.expr l) g
  | right {op l r a g h} : eval c l g = .ok a h → op.readsRight a = true →
    Inner c (.expr (.binary op l r)) g (.expr r) h
  | args {callee es g} : Inner c (.expr (.call callee es)) g (.args es) g
  | arg {e es g} : Inner c (.args (e :: es)) g (.expr e) g
  | argsRest {e es v g h} : eval c e g = .ok v h → Inner c (.args (e :: es)) g (.args es) h
  | place {e es g} : Inner c (.places (e :: es)) g (.expr e) g
  | placesRest {e es v i g h} : eval c e g = .ok v h → v.toInt? = some i →
    Inner c (.places (e :: es)) g (.places es) h
  | value {line target e g} : Inner c (.stmt (.assign line target e)) g (.expr e) g
  | targetIndices {line path es e v g h} : eval c e g = .ok v h →
    Inner c (.stmt (.assign line (.var path es) e)) g (.places es) h
  | bounds {line x start stop step body g} :
    Inner c (.stmt (.count line x start stop step body)) g (.places [start, stop]) g
  | firstTurn {line x start stop step body first last g h} :
    evalIndices c [start, stop] g = .ok [first, last] h →
    Inner c (.stmt (.count line x start stop step body)) g (.turns x step body last first) h
  | turn {x step body stop next g h} : assign c x (.int next) g = .ok () h →
    isBefore step stop next = true → Inner c (.turns x step body stop next) g (.stmts body) h
  | nextTurn {x step body stop next g h h'} : assign c x (.int next) g = .ok () h →
    isBefore step stop next = true → execAll c body h = .ok .next h' →
    Inner c (.turns x step body stop next) g (.turns x step body stop (next + step)) h'
  | choice {line cs otherwise g} :
    Inner c (.stmt (.choose line cs otherwise)) g (.clauses cs otherwise) g
  | clauseTest {test body cs otherwise g} :
    Inner c (.clauses (⟨test, body⟩ :: cs) otherwise) g (.expr test) g
  | clauseBody {test body cs otherwise v g h} : eval c test g = .ok v h → v.isTrue = true →
    Inner c (.clauses (⟨test, body⟩ :: cs) otherwise) g (.stmts body) h
  | clausesRest {test body cs otherwise v g h} : eval c test g = .ok v h → v.isTrue = false →
    Inner c (.clauses (⟨test, body⟩ :: cs) otherwise) g (.clauses cs otherwise) h
  | otherwise {otherwise g} : Inner c (.clauses [] otherwise) g (.stmts otherwise) g
  | loopTest {line test body g} : Inner c (.stmt (.loop line test body)) g (.expr test) g
  | loopBody {line test body v g h} : eval c test g = .ok v h → v.isTrue = true →
    Inner c (.stmt (.loop line test body)) g (.stmts body) h
  | loopAgain {line test body v g h h'} : eval c test g = .ok v h → v.isTrue = true →
    execAll c body h = .ok .next h' →
    Inner c (.stmt (.loop line test body)) g (.stmt (.loop line test body)) h'
  | returned {line e g} : Inner c (.stmt (.ret line (some e))) g (.expr e) g
  | called {line e g} : Inner c (.stmt (.call line e)) g (.expr e) g
  | stmt {s ss g} : Inner c (.stmts (s :: ss)) g (.stmt s) g
  | stmtsRest {s ss g h} : exec c s g = .ok .next h → Inner c (.stmts (s :: ss)) g (.stmts ss) h

/-- A point of a run: a part of a body that is about to be run, in a frame. Calls from there on are
limited by `bound`. -/
structure Point where
  bound : Nat
  /-- The model that owns the body, seen from the whole model. -/
  owner : List String
  body : Body
  part : Part
  frame : Frame

def Point.context (m : Model) (p : Point) : Context := inTree m p.owner p.body p.bound

def Point.entry (bound : Nat) (owner : List String) (b : Body) (args : List Value) (s : Store) :
    Point :=
  ⟨bound, owner, b, .stmts b.stmts, ⟨initialLocals b args, s⟩⟩

/-- At one point of a run another one is started: of the same body, or the start of the body that is
called. -/
inductive Starts (m : Model) : Point → Point → Prop
  | inner {n o b part part' g h} : Inner (inTree m o b n) part g part' h →
    Starts m ⟨n, o, b, part, g⟩ ⟨n, o, b, part', h⟩
  | call {n o b owner name es values b' g h} :
    evalAll (inTree m o b (n + 1)) es g = .ok values h →
    target m (o ++ owner) name values.length = .ok b' →
    Starts m ⟨n + 1, o, b, .expr (.call (.method owner name) es), g⟩
      (.entry n (o ++ owner) b' values h.store)

section Keeps

variable {P : Frame → Prop} {c : Context} {p q : Part} {g h : Frame}

theorem keeps_value {ε σ α : Type} {R : σ → Prop} {E : ε → Prop} {Q : α → Prop}
    {x : EStateM ε σ α} (hx : Keeps R E x Q) {s s' : σ} {a : α} (hs : R s) (h : x s = .ok a s') :
    R s' ∧ Q a := by
  have hr := hx s hs
  rw [h] at hr
  exact hr

theorem tolerates_anyStop (c : Context) : Tolerates AnyStop c := ⟨fun _ => trivial, trivial⟩

theorem Inner.keeps (hpq : Inner c p g q h) (hnode : ∀ e, NodeKeeps P AnyStop c e)
    (htarget : ∀ t ∈ p.targets, TargetKeeps P AnyStop c t) (hg : P g) : P h := by
  have heval (e : Expr) : Keeps P AnyStop (eval c e) fun _ => True :=
    eval_keeps (tolerates_anyStop c) e fun x _ => hnode x
  have hexec {ss : List Stmt} (hss : Stmt.targetsAll ss ⊆ p.targets) :
      Keeps P AnyStop (execAll c ss) fun _ => True :=
    execAll_keeps (tolerates_anyStop c) ss ⟨fun x _ => hnode x, fun t ht => htarget t (hss ht)⟩
  cases hpq with
  | indices | operand | left | args | arg | place | value | bounds | choice | clauseTest
  | otherwise | loopTest | returned | called | stmt => exact hg
  | right hl | argsRest hl | placesRest hl | targetIndices hl | clauseBody hl | clausesRest hl
  | loopBody hl => exact (keeps_value (heval _) hg hl).1
  | firstTurn hbounds =>
    exact (keeps_value (evalIndices_keeps (tolerates_anyStop c) _ fun x _ => hnode x) hg hbounds).1
  | turn hset => exact (keeps_value (htarget (.loc _) List.mem_cons_self _) hg hset).1
  | nextTurn hset _ hbody =>
    have hturn := (keeps_value (htarget (.loc _) List.mem_cons_self _) hg hset).1
    exact (keeps_value (hexec (List.subset_cons_self _ _)) hturn hbody).1
  | loopAgain htest _ hbody =>
    exact (keeps_value (hexec (List.Subset.refl _)) (keeps_value (heval _) hg htest).1 hbody).1
  | stmtsRest hs =>
    refine (keeps_value (exec_keeps (tolerates_anyStop c) _ ⟨fun x _ => hnode x, fun t ht => ?_⟩) hg
      hs).1
    exact htarget t (List.mem_append_left _ ht)

/-- A property of frames that all expressions and all targets keep. -/
structure Lasting (P : Frame → Prop) (c : Context) : Prop where
  node : ∀ e, NodeKeeps P AnyStop c e
  target : ∀ t, TargetKeeps P AnyStop c t

theorem Lasting.evalAll (hP : Lasting P c) (es : List Expr) :
    Keeps P AnyStop (evalAll c es) fun _ => True :=
  evalAll_keeps (tolerates_anyStop c) es fun x _ => hP.node x

theorem Lasting.evalIndices (hP : Lasting P c) (es : List Expr) :
    Keeps P AnyStop (evalIndices c es) fun _ => True :=
  evalIndices_keeps (tolerates_anyStop c) es fun x _ => hP.node x

theorem Lasting.inner (hP : Lasting P c) (hpq : Inner c p g q h) (hg : P g) : P h :=
  hpq.keeps hP.node (fun t _ => hP.target t) hg

end Keeps

theorem Inner.integers_subset {c : Context} {p q : Part} {g h : Frame} (hpq : Inner c p g q h) :
    q.integers ⊆ p.integers := by
  intro e he
  cases hpq <;> simp_all [Part.integers, Expr.places, Expr.placesAll, Stmt.places, Stmt.placesAll,
    Stmt.clausePlaces, Target.indices] <;> tauto

section Fault

variable {m : Model} {name : String} {x : Float}

def noInteger (name : String) (x : Float) : Stop Error := .failed (.run name (.notAnInteger x))

theorem run_bind_eq_error {ε σ α β : Type} {x : EStateM ε σ α} {f : α → EStateM ε σ β} {s t : σ}
    {e : ε} (h : (x >>= f) s = .error e t) :
    x s = .error e t ∨ ∃ a s', x s = .ok a s' ∧ f a s' = .error e t := by
  cases hx : x s with
  | error e' s' =>
    rw [run_bind_error hx] at h
    cases h
    exact .inl rfl
  | ok a s' =>
    rw [run_bind_ok hx] at h
    exact .inr ⟨a, s', rfl, h⟩

/-- From point `p` the run comes to a point of the method `name` where a number is needed that is an
integer, and the first expression there has the floating point value `x`. -/
def Blames (m : Model) (name : String) (x : Float) (p : Point) : Prop :=
  ∃ q e es g, Relation.ReflTransGen (Starts m) p q ∧ q.body.name = name ∧
    q.part = .places (e :: es) ∧ eval (q.context m) e q.frame = .ok (.float x) g

theorem Blames.of_starts {p q : Point} (hpq : Starts m p q) (h : Blames m name x q) :
    Blames m name x p := by
  obtain ⟨r, e, es, g, hr, hrest⟩ := h
  exact ⟨r, e, es, g, .head hpq hr, hrest⟩

theorem wholeNumber_eq_noInteger {c : Context} {v : Value} {g h : Frame}
    (hv : wholeNumber c v g = .error (noInteger name x) h) : c.body.name = name ∧ v = .float x := by
  cases v with
  | int n => cases hv
  | bool b => cases hv
  | float y =>
    cases hv
    exact ⟨rfl, rfl⟩

theorem wholeNumber_eq_ok {c : Context} {v : Value} {i : Int64} {g h : Frame}
    (hv : wholeNumber c v g = .ok i h) : v.toInt? = some i ∧ h = g := by
  cases v <;> cases hv <;> exact ⟨rfl, rfl⟩

/-- An action that does not fail for want of an integer. -/
def Spares {σ α : Type} (name : String) (x : Float) (action : EStateM (Stop Error) σ α) : Prop :=
  ∀ s t, action s ≠ .error (noInteger name x) t

theorem spares_local (c : Context) (y : String) : Spares name x (eval c (.loc y)) := by
  intro g t h
  simp only [eval, run_get] at h
  cases hy : g.locals.get? y <;> rw [hy] at h <;> cases h

theorem element_ne_run {α : Type} (s : Store) (key : String) (index : List Int64)
    (f : Slot → Nat → α) (fault : RunFault) :
    (do
      let slot ← s.slot key
      let i ← Store.offset key slot index
      return f slot i : Except Error α) ≠ .error (.run name fault) := by
  intro h
  rcases bind_eq_error h with hslot | ⟨slot, -, h⟩
  · unfold Store.slot at hslot
    split at hslot <;> cases hslot
  rcases bind_eq_error h with hoffset | ⟨i, -, h⟩
  · unfold Store.offset at hoffset
    split at hoffset <;> cases hoffset
  · cases h

theorem spares_ofExcept {σ α : Type} {r : Except Error α}
    (h : r ≠ .error (.run name (.notAnInteger x))) : Spares name x (ofExcept r : EStateM _ σ α) := by
  intro s t heq
  cases r <;> cases heq
  exact h rfl

theorem spares_fetch (c : Context) (path : VarPath) (index : List Int64) :
    Spares name x (fetch c path index) := by
  intro g t h
  rw [fetch, run_get] at h
  rcases run_bind_eq_error h with hread | ⟨r, g', -, h⟩
  · exact spares_ofExcept (element_ne_run _ _ _ _ _) _ _ hread
  · cases h

theorem spares_assign (c : Context) (y : String) (v : Value) : Spares name x (assign c y v) := by
  intro g t h
  simp only [assign, run_get] at h
  cases hy : c.body.typeOf? y <;> cases hg : g.locals.get? y <;> rw [hy, hg] at h <;> cases h

theorem spares_writeVar (path : VarPath) (index : List Int64) (v : Value) :
    Spares name x (writeVar path index v) := by
  intro g t h
  rw [writeVar, run_get] at h
  rcases run_bind_eq_error h with hwrite | ⟨r, g', -, h⟩
  · exact spares_ofExcept (element_ne_run _ _ _ _ _) _ _ hwrite
  · cases h

theorem onStore_eq_error {α : Type} {action : OnStore α} {e : Stop Error} {g t : Frame}
    (h : onStore action g = .error e t) : action g.store = .error e t.store := by
  unfold onStore at h
  split at h <;> cases h
  assumption

section Body

variable {o : List String} {b : Body} {n : Nat}

/-- Whether every call fails for want of an integer only where its own run comes to such a point. -/
def CallsBlame (m : Model) (name : String) (x : Float) (n : Nat) : Prop :=
  ∀ owner method values s t, call m n owner method values s = .error (noInteger name x) t →
    ∃ k b, n = k + 1 ∧ target m owner method values.length = .ok b ∧
      Blames m name x (.entry k owner b values s)

theorem Blames.of_inner {p q : Part} {g h : Frame} (hpq : Inner (inTree m o b n) p g q h)
    (hq : Blames m name x ⟨n, o, b, q, h⟩) : Blames m name x ⟨n, o, b, p, g⟩ :=
  hq.of_starts (.inner hpq)

theorem binary_eq_error {op : BinaryOp} {l r : Expr} {g t : Frame} {e : Stop Error}
    (h : eval (inTree m o b n) (.binary op l r) g = .error e t) :
    eval (inTree m o b n) l g = .error e t ∨
      ∃ a g', eval (inTree m o b n) l g = .ok a g' ∧ op.readsRight a = true ∧
        eval (inTree m o b n) r g' = .error e t := by
  cases op
  case and =>
    rcases run_bind_eq_error h with hl | ⟨a, g', ha, hrest⟩
    · exact .inl hl
    cases htrue : a.isTrue <;> rw [htrue] at hrest
    · cases hrest
    rcases run_bind_eq_error hrest with hr | ⟨v, g'', -, hv⟩
    · exact .inr ⟨a, g', ha, htrue, hr⟩
    · cases hv
  case or =>
    rcases run_bind_eq_error h with hl | ⟨a, g', ha, hrest⟩
    · exact .inl hl
    cases htrue : a.isTrue <;> rw [htrue] at hrest
    · rcases run_bind_eq_error hrest with hr | ⟨v, g'', -, hv⟩
      · exact .inr ⟨a, g', ha, by simp [BinaryOp.readsRight, htrue], hr⟩
      · cases hv
    · cases hrest
  all_goals
    rcases run_bind_eq_error h with hl | ⟨a, g', ha, hrest⟩
    · exact .inl hl
    rcases run_bind_eq_error hrest with hr | ⟨v, g'', -, hv⟩
    · exact .inr ⟨a, g', ha, rfl, hr⟩
    · cases hv

mutual

theorem eval_blames (hcalls : CallsBlame m name x n) : ∀ (e : Expr) {g t : Frame},
    eval (inTree m o b n) e g = .error (noInteger name x) t → Blames m name x ⟨n, o, b, .expr e, g⟩
  | .int _, _, _, h | .float _ _, _, _, h | .bool _, _, _, h => by cases h
  | .loc y, _, _, h => absurd h (spares_local _ y _ _)
  | .var path indices, g, t, h => by
    rcases run_bind_eq_error h with hindices | ⟨index, g', -, hfetch⟩
    · exact .of_inner .indices (evalIndices_blames hcalls indices hindices)
    · exact absurd hfetch (spares_fetch (inTree m o b n) path index _ _)
  | .unary op e, g, t, h => by
    rcases run_bind_eq_error h with he | ⟨v, g', -, hv⟩
    · exact .of_inner .operand (eval_blames hcalls e he)
    · cases hv
  | .binary op l r, g, t, h => by
    rcases binary_eq_error h with hl | ⟨a, g', ha, hreads, hr⟩
    · exact .of_inner .left (eval_blames hcalls l hl)
    · exact .of_inner (.right ha hreads) (eval_blames hcalls r hr)
  | .call (.builtin f) args, g, t, h => by
    rcases run_bind_eq_error h with hargs | ⟨values, g', -, hv⟩
    · exact .of_inner .args (evalAll_blames hcalls args hargs)
    · cases hv
  | .call (.method owner method) args, g, t, h => by
    rcases run_bind_eq_error h with hargs | ⟨values, g', hvalues, hcall⟩
    · exact .of_inner .args (evalAll_blames hcalls args hargs)
    rcases run_bind_eq_error hcall with hcall | ⟨v, g'', -, hv⟩
    · obtain ⟨k, b', rfl, hb, hblames⟩ := hcalls _ _ _ _ _ (onStore_eq_error hcall)
      exact hblames.of_starts (.call hvalues hb)
    · cases hv

theorem evalAll_blames (hcalls : CallsBlame m name x n) : ∀ (es : List Expr) {g t : Frame},
    evalAll (inTree m o b n) es g = .error (noInteger name x) t →
      Blames m name x ⟨n, o, b, .args es, g⟩
  | [], _, _, h => by cases h
  | e :: es, g, t, h => by
    rcases run_bind_eq_error h with he | ⟨v, g', hv, hrest⟩
    · exact .of_inner .arg (eval_blames hcalls e he)
    · rcases run_bind_eq_error hrest with hes | ⟨vs, g'', -, hvs⟩
      · exact .of_inner (.argsRest hv) (evalAll_blames hcalls es hes)
      · cases hvs

theorem evalIndices_blames (hcalls : CallsBlame m name x n) : ∀ (es : List Expr) {g t : Frame},
    evalIndices (inTree m o b n) es g = .error (noInteger name x) t →
      Blames m name x ⟨n, o, b, .places es, g⟩
  | [], _, _, h => by cases h
  | e :: es, g, t, h => by
    rcases run_bind_eq_error h with he | ⟨v, g', hv, hrest⟩
    · exact .of_inner .place (eval_blames hcalls e he)
    rcases run_bind_eq_error hrest with hwhole | ⟨i, g'', hi, hrest⟩
    · obtain ⟨hname, rfl⟩ := wholeNumber_eq_noInteger hwhole
      exact ⟨_, e, es, g', .refl, hname, rfl, hv⟩
    rcases run_bind_eq_error hrest with hes | ⟨is, g'', -, his⟩
    · obtain ⟨hint, rfl⟩ := wholeNumber_eq_ok hi
      exact .of_inner (.placesRest hv hint) (evalIndices_blames hcalls es hes)
    · cases his

end

theorem exec_count (c : Context) (line : Nat) (y : String) (start stop : Expr) (step : Int64)
    (body : List Stmt) :
    exec c (.count line y start stop step body) = evalIndices c [start, stop] >>= fun found =>
      countLoop (fun n => assign c y (.int n)) (execAll c body) step (found.getD 1 0) c.bound
        (found.getD 0 0) := by
  simp only [exec, evalIndices, bind_assoc, pure_bind]
  rfl

theorem countLoop_blames {y : String} {step stop : Int64} {body : List Stmt}
    (hbody : ∀ {g t : Frame}, execAll (inTree m o b n) body g = .error (noInteger name x) t →
      Blames m name x ⟨n, o, b, .stmts body, g⟩) (k : Nat) {next : Int64} {g t : Frame}
    (h : countLoop (fun i => assign (inTree m o b n) y (.int i)) (execAll (inTree m o b n) body)
      step stop k next g = .error (noInteger name x) t) :
    Blames m name x ⟨n, o, b, .turns y step body stop next, g⟩ := by
  induction k generalizing next g with
  | zero => cases h
  | succ k ih =>
    rcases run_bind_eq_error h with hset | ⟨⟨⟩, g', hset, hrest⟩
    · exact absurd hset (spares_assign _ _ _ _ _)
    split at hrest
    · rename_i hbefore
      rcases run_bind_eq_error hrest with hturn | ⟨flow, g'', hturn, hrest⟩
      · exact .of_inner (.turn hset hbefore) (hbody hturn)
      · cases flow with
        | ret v => cases hrest
        | next => exact .of_inner (.nextTurn hset hbefore hturn) (ih hrest)
    · cases hrest

theorem testLoop_blames {line : Nat} {test : Expr} {body : List Stmt}
    (htest : ∀ {g t : Frame}, eval (inTree m o b n) test g = .error (noInteger name x) t →
      Blames m name x ⟨n, o, b, .expr test, g⟩)
    (hbody : ∀ {g t : Frame}, execAll (inTree m o b n) body g = .error (noInteger name x) t →
      Blames m name x ⟨n, o, b, .stmts body, g⟩) (k : Nat) {g t : Frame}
    (h : testLoop (do return (← eval (inTree m o b n) test).isTrue) (execAll (inTree m o b n) body)
      k g = .error (noInteger name x) t) :
    Blames m name x ⟨n, o, b, .stmt (.loop line test body), g⟩ := by
  induction k generalizing g with
  | zero => cases h
  | succ k ih =>
    rw [testLoop, bind_assoc] at h
    rcases run_bind_eq_error h with hv | ⟨v, g', hv, hrest⟩
    · exact .of_inner .loopTest (htest hv)
    rw [pure_bind] at hrest
    split at hrest
    · rename_i htrue
      rcases run_bind_eq_error hrest with hturn | ⟨flow, g'', hturn, hrest⟩
      · exact .of_inner (.loopBody hv htrue) (hbody hturn)
      · cases flow with
        | ret v => cases hrest
        | next => exact .of_inner (.loopAgain hv htrue hturn) (ih hrest)
    · cases hrest

mutual

theorem exec_blames (hcalls : CallsBlame m name x n) : ∀ (s : Stmt) {g t : Frame},
    exec (inTree m o b n) s g = .error (noInteger name x) t → Blames m name x ⟨n, o, b, .stmt s, g⟩
  | .assign line (.loc y) e, g, t, h => by
    rcases run_bind_eq_error h with he | ⟨v, g', hv, hrest⟩
    · exact .of_inner .value (eval_blames hcalls e he)
    rcases run_bind_eq_error hrest with hset | ⟨-, g'', -, hrest⟩
    · exact absurd hset (spares_assign _ _ _ _ _)
    · cases hrest
  | .assign line (.var path indices) e, g, t, h => by
    rcases run_bind_eq_error h with he | ⟨v, g', hv, hrest⟩
    · exact .of_inner .value (eval_blames hcalls e he)
    rcases run_bind_eq_error hrest with hindices | ⟨index, g'', hindices, hrest⟩
    · exact .of_inner (.targetIndices hv) (evalIndices_blames hcalls indices hindices)
    rcases run_bind_eq_error hrest with hwrite | ⟨-, g'', -, hrest⟩
    · exact absurd hwrite (spares_writeVar _ _ _ _ _)
    · cases hrest
  | .count line y start stop step body, g, t, h => by
    rw [exec_count] at h
    rcases run_bind_eq_error h with hbounds | ⟨found, g', hfound, hrest⟩
    · exact .of_inner .bounds (evalIndices_blames hcalls _ hbounds)
    obtain ⟨first, last, rfl⟩ := List.length_eq_two.1 (Gets.length_evalIndices ⟨_, _, hfound⟩)
    exact .of_inner (.firstTurn hfound) (countLoop_blames (execAll_blames hcalls body) _ hrest)
  | .choose line clauses otherwise, g, t, h =>
    .of_inner .choice (execClauses_blames hcalls clauses (execAll_blames hcalls otherwise) h)
  | .loop line test body, g, t, h =>
    testLoop_blames (eval_blames hcalls test) (execAll_blames hcalls body) _ h
  | .ret line none, _, _, h => by cases h
  | .ret line (some e), g, t, h => by
    rcases run_bind_eq_error h with he | ⟨v, g', hv, hrest⟩
    · exact .of_inner .returned (eval_blames hcalls e he)
    · cases hrest
  | .pass, _, _, h => by cases h
  | .call line e, g, t, h => by
    rcases run_bind_eq_error h with he | ⟨v, g', hv, hrest⟩
    · exact .of_inner .called (eval_blames hcalls e he)
    · cases hrest

theorem execAll_blames (hcalls : CallsBlame m name x n) : ∀ (ss : List Stmt) {g t : Frame},
    execAll (inTree m o b n) ss g = .error (noInteger name x) t →
      Blames m name x ⟨n, o, b, .stmts ss, g⟩
  | [], _, _, h => by cases h
  | s :: ss, g, t, h => by
    rcases run_bind_eq_error h with hs | ⟨flow, g', hs, hrest⟩
    · exact .of_inner .stmt (exec_blames hcalls s hs)
    · cases flow with
      | ret v => cases hrest
      | next => exact .of_inner (.stmtsRest hs) (execAll_blames hcalls ss hrest)

theorem execClauses_blames (hcalls : CallsBlame m name x n) : ∀ (cs : List Clause)
    {otherwise : List Stmt}, (∀ {g t : Frame}, execAll (inTree m o b n) otherwise g =
      .error (noInteger name x) t → Blames m name x ⟨n, o, b, .stmts otherwise, g⟩) →
    ∀ {g t : Frame}, execClauses (inTree m o b n) cs (execAll (inTree m o b n) otherwise) g =
      .error (noInteger name x) t → Blames m name x ⟨n, o, b, .clauses cs otherwise, g⟩
  | [], _, ho, g, t, h => .of_inner .otherwise (ho h)
  | ⟨test, body⟩ :: cs, _, ho, g, t, h => by
    rcases run_bind_eq_error h with htest | ⟨v, g', hv, hrest⟩
    · exact .of_inner .clauseTest (eval_blames hcalls test htest)
    split at hrest
    · exact .of_inner (.clauseBody hv (by assumption)) (execAll_blames hcalls body hrest)
    · rename_i hfalse
      exact .of_inner (.clausesRest hv (by simpa using hfalse))
        (execClauses_blames hcalls cs ho hrest)

end

/-- A call that fails for want of an integer has come to a point where one is needed. -/
theorem call_blames (m : Model) (name : String) (x : Float) (n : Nat) : CallsBlame m name x n := by
  induction n with
  | zero =>
    intro owner method values s t h
    cases h
  | succ n ih =>
    intro owner method values s t h
    simp only [call] at h
    cases hb : target m owner method values.length with
    | error fault =>
      rw [hb] at h
      have hfault : fault ≠ .notAnInteger x := by
        rintro rfl
        unfold target at hb
        split at hb
        · cases hb
        · split at hb
          · cases hb
          · split_ifs at hb
            cases hb
      cases h
      exact absurd rfl hfault
    | ok b =>
      rw [hb] at h
      refine ⟨n, b, rfl, rfl, ?_⟩
      cases hrun : execAll (inTree m owner b n) b.stmts ⟨initialLocals b values, s⟩ with
      | ok flow frame =>
        simp only [show execAll ⟨b, owner, call m n, n⟩ = execAll (inTree m owner b n) from rfl,
          hrun] at h
        rcases flow with _ | (_ | v) <;> cases h
      | error e frame =>
        simp only [show execAll ⟨b, owner, call m n, n⟩ = execAll (inTree m owner b n) from rfl,
          hrun] at h
        cases h
        exact execAll_blames ih b.stmts hrun

end Body

end Fault

end Interpreter

end ProcessModel
