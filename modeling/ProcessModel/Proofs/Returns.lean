import ProcessModel.Proofs.Bounds
import ProcessModel.Proofs.Compiled

/-! Which calls yield a value.

A method counts as returning a value if there is a `return` with one anywhere in its body, and then
all its returns have one. So a call of it yields no value in one way only: the run passes the end of
the body. -/

namespace ProcessModel

namespace Stmt

mutual

/-- Whether a run may come to the end of a statement, if nothing is known about tests and bounds. -/
def passable : Stmt → Bool
  | .ret _ _ => false
  | .choose _ clauses otherwise => passableClause clauses || passableAll otherwise
  | _ => true

def passableAll : List Stmt → Bool
  | [] => true
  | s :: rest => passable s && passableAll rest

def passableClause : List Clause → Bool
  | [] => false
  | ⟨_, body⟩ :: rest => passableAll body || passableClause rest

end

def Valued (returns : List (Bool × Nat)) : Prop := ∀ r ∈ returns, r.1 = true

theorem valued_append (a b : List (Bool × Nat)) : Valued (a ++ b) ↔ Valued a ∧ Valued b := by
  simp only [Valued, List.mem_append, or_imp, forall_and]

end Stmt

theorem Body.valued_of_returnsOf {ss : List Stmt} (h : returnsOf ss = .ok true) :
    Stmt.Valued (Stmt.returnsAll ss) := by
  unfold returnsOf at h
  dsimp only at h
  split at h
  · split_ifs at h
    cases h
  · rename_i hnone
    intro r hr
    simpa using List.find?_eq_none.1 hnone r hr

theorem Body.ofNormal_valued (d : Definition) (name : String) (kind : MethodKind) (doc : String)
    (normal : NormalBody) :
    Yields (fun b => b.returnsValue = true → Stmt.Valued (Stmt.returnsAll b.stmts))
      (ofNormal d name kind doc normal) := by
  refine yields_bind (yields_true _) fun ss _ => ?_
  have hreturns : Yields (fun v => v = true → Stmt.Valued (Stmt.returnsAll ss)) (returnsOf ss) := by
    intro v hv hvalue
    subst hvalue
    exact valued_of_returnsOf hv
  exact yields_bind hreturns fun v hv => yields_pure hv

theorem Model.compile_valued {dialect : Dialect} {d : Definition} {m s : Model} {o : List String}
    {f : Method} (h : compile dialect d = .ok m) (hs : m.descend? o = some s) (hf : f ∈ s.methods)
    (hvalue : f.body.returnsValue = true) : Stmt.Valued (Stmt.returnsAll f.body.stmts) := by
  obtain ⟨d', -, hread⟩ := read_descend? (compile_eq_ok h).1 hs
  obtain ⟨entry, -, hcompiled⟩ := read_methods hread hf
  obtain ⟨resolved, normal, -, -, -, hbody⟩ := Method.compile_eq_ok hcompiled
  exact Body.ofNormal_valued d' entry.2 entry.1 f.source.doc normal f.body hbody hvalue

namespace Interpreter

/-- What a run of a statement comes to: its end if that can be reached, or a value. -/
def Flow.Through (passable : Bool) : Flow → Prop
  | .next => passable = true
  | .ret v => v.isSome = true

/-- Whatever value an action returns, from whatever state, has property `Q`. -/
def Gives {σ α : Type} (x : EStateM (Stop Error) σ α) (Q : α → Prop) : Prop :=
  Keeps (fun _ => True) (fun _ => True) x Q

section Gives

variable {σ α β : Type} {x : EStateM (Stop Error) σ α} {Q : α → Prop} {R : β → Prop}

theorem gives_true (x : EStateM (Stop Error) σ α) : Gives x fun _ => True := by
  intro s _
  cases x s <;> exact ⟨trivial, trivial⟩

theorem Gives.result (h : Gives x Q) {s s' : σ} {a : α} (hx : effect (x s) = some (.ok a, s')) :
    Q a := by
  have hs := h s trivial
  rcases hr : x s with ⟨b, t⟩ | ⟨e | _, t⟩ <;> rw [hr] at hs hx <;> cases hx
  exact hs.2

theorem gives_last {f : α → EStateM (Stop Error) σ β} (h : ∀ a, Gives (f a) R) :
    Gives (x >>= f) R :=
  keeps_bind (gives_true x) fun a _ => h a

theorem gives_pure {a : α} (h : Q a) : Gives (pure a : EStateM (Stop Error) σ α) Q := keeps_pure h

end Gives

variable {p : Bool}

theorem Flow.Through.mono {flow : Flow} {q : Bool} (h : flow.Through p)
    (hpq : p = true → q = true) : flow.Through q := by
  cases flow with
  | next => exact hpq h
  | ret v => exact h

theorem Gives.mono {σ α : Type} {x : EStateM (Stop Error) σ α} {Q R : α → Prop} (h : Gives x Q)
    (hqr : ∀ a, Q a → R a) : Gives x R := by
  intro s hs
  have hx := h s hs
  cases hr : x s with
  | ok a s' =>
    rw [hr] at hx
    exact ⟨trivial, hqr a hx.2⟩
  | error e s' => exact ⟨trivial, trivial⟩

theorem countLoop_through {body : Exec Flow} (hbody : Gives body (Flow.Through p))
    (set : Int64 → Exec Unit) (step stop : Int64) (n : Nat) (counter : Int64) :
    Gives (countLoop set body step stop n counter) (Flow.Through true) := by
  induction n generalizing counter with
  | zero => exact keeps_throw trivial
  | succ n ih =>
    refine gives_last fun _ => keeps_ite ?_ (gives_pure rfl)
    refine keeps_bind hbody fun flow hflow => ?_
    cases flow with
    | ret v => exact gives_pure hflow
    | next => exact ih _

theorem testLoop_through {body : Exec Flow} (hbody : Gives body (Flow.Through p)) (test : Exec Bool)
    (n : Nat) : Gives (testLoop test body n) (Flow.Through true) := by
  induction n with
  | zero => exact keeps_throw trivial
  | succ n ih =>
    refine gives_last fun _ => keeps_ite ?_ (gives_pure rfl)
    refine keeps_bind hbody fun flow hflow => ?_
    cases flow with
    | ret v => exact gives_pure hflow
    | next => exact ih

section Body

open Stmt

variable (c : Context)

mutual

theorem exec_through : ∀ s : Stmt, Valued (returns s) → Gives (exec c s) (Flow.Through (passable s))
  | .assign line (.loc x) e, _ => gives_last fun _ => gives_last fun _ => gives_pure rfl
  | .assign line (.var path indices) e, _ =>
    gives_last fun _ => gives_last fun _ => gives_last fun _ => gives_pure rfl
  | .count line x start stop step body, h =>
    gives_last fun _ => gives_last fun first => gives_last fun _ => gives_last fun last =>
      countLoop_through (execAll_through body h) _ _ _ _ _
  | .choose line clauses otherwise, h => by
    obtain ⟨hclauses, hotherwise⟩ := (valued_append _ _).1 h
    exact execClauses_through clauses hclauses (execAll_through otherwise hotherwise)
  | .loop line test body, h => testLoop_through (execAll_through body h) _ _
  | .ret line none, h => by
    have hvalue := h (false, line) (List.mem_singleton_self _)
    cases hvalue
  | .ret line (some e), _ => gives_last fun _ => gives_pure rfl
  | .pass, _ => gives_pure rfl
  | .call line e, _ => gives_last fun _ => gives_pure rfl

theorem execAll_through : ∀ ss : List Stmt, Valued (returnsAll ss) →
    Gives (execAll c ss) (Flow.Through (passableAll ss))
  | [], _ => gives_pure rfl
  | s :: rest, h => by
    obtain ⟨hs, hrest⟩ := (valued_append _ _).1 h
    refine keeps_bind (exec_through s hs) fun flow hflow => ?_
    cases flow with
    | ret v => exact gives_pure hflow
    | next =>
      have hpassed : passable s = true := hflow
      rw [passableAll, hpassed, Bool.true_and]
      exact execAll_through rest hrest

theorem execClauses_through : ∀ cs : List Clause, Valued (clauseReturns cs) →
    ∀ {otherwise : Exec Flow} {p : Bool}, Gives otherwise (Flow.Through p) →
      Gives (execClauses c cs otherwise) (Flow.Through (passableClause cs || p))
  | [], _, _, _, ho => ho
  | ⟨test, body⟩ :: rest, h, _, p, ho => by
    obtain ⟨hbody, hrest⟩ := (valued_append _ _).1 h
    have hthis := execAll_through body hbody
    have hlater := execClauses_through rest hrest ho
    refine gives_last fun _ => keeps_ite ?_ ?_
    · exact hthis.mono fun flow hflow => hflow.mono fun hp => by simp [passableClause, hp]
    · refine hlater.mono fun flow hflow => hflow.mono fun hp => ?_
      rw [passableClause, Bool.or_assoc, hp, Bool.or_true]

end

end Body

/-- What a call yields if the run of its body comes to `flow`. -/
def Flow.value : Flow → Option Value
  | .ret v => v.map fun v => .float v.toFloat
  | .next => none

/-- The run of a method's body on some arguments passes the end of the body. -/
def FallsOff (m : Model) (o : List String) (f : Method) (args : List Value) (store : Store) : Prop :=
  ∃ frame, Ends (fun n => execAll (inTree m o f.body n) f.body.stmts)
    ⟨initialLocals f.body args, store⟩ (.ok .next, frame)

section Call

variable {dialect : Dialect} {d : Definition} {m s : Model} {o : List String} {f : Method}
  {name : String} {args : List Value} {store left : Store} {v : Option Value}

theorem bodies_grow (m : Model) (o : List String) (b : Body) (ss : List Stmt) :
    Grows fun n => execAll (inTree m o b n) ss :=
  fun _ _ hn => execAll_refines (inTree_within m o b hn) ss

theorem effect_onStore {α : Type} (x : OnStore α) (g : Frame) :
    effect (onStore x g) = (effect (x g.store)).map fun r => (r.1, { g with store := r.2 }) := by
  unfold onStore
  rcases x g.store with ⟨a, t⟩ | ⟨e | _, t⟩ <;> rfl

theorem effect_call {b : Body} (hb : target m o name args.length = .ok b) (n : Nat) (store : Store) :
    effect (call m (n + 1) o name args store) =
      (effect (execAll (inTree m o b n) b.stmts ⟨initialLocals b args, store⟩)).map
        fun r => (r.1.map Flow.value, r.2.store) := by
  simp only [call, hb, inTree]
  rcases execAll ⟨b, o, call m n, n⟩ b.stmts ⟨initialLocals b args, store⟩ with
    ⟨_ | _ | v, frame⟩ | ⟨e | _, frame⟩ <;> rfl

theorem call_ends_ok (hs : m.descend? o = some s) (hf : s.method? name = some f)
    (h : Ends (fun n => call m n o name args) store (.ok v, left)) :
    ∃ flow frame, Ends (fun n => execAll (inTree m o f.body n) f.body.stmts)
      ⟨initialLocals f.body args, store⟩ (.ok flow, frame) ∧ flow.value = v := by
  obtain ⟨n, hn⟩ := h
  cases n with
  | zero => cases hn
  | succ n =>
    by_cases hlength : f.body.args.length = args.length
    · have htarget : target m o name args.length = .ok f.body := by simp [target, hs, hf, hlength]
      rw [effect_call htarget] at hn
      obtain ⟨⟨result, frame⟩, hrun, hr⟩ := Option.map_eq_some_iff.1 hn
      cases result with
      | error e => cases hr
      | ok flow =>
        cases hr
        exact ⟨flow, frame, ⟨n, hrun⟩, rfl⟩
    · simp [call, target, hs, hf, hlength, effect] at hn

theorem eval_call_ends_ok {q owner : List String} {b : Body} {es : List Expr} {g g' : Frame}
    {w : Value} (h : Ends (fun n => eval (inTree m q b n) (.call (.method owner name) es)) g
      (.ok w, g')) :
    ∃ values mid v, Ends (fun n => evalAll (inTree m q b n) es) g (.ok values, mid) ∧
      Ends (fun n => call m n (q ++ owner) name values) mid.store (.ok v, g'.store) ∧
      w = v.getD (.float 0.0) := by
  obtain ⟨n, hn⟩ := h
  simp only [eval] at hn
  obtain ⟨values, mid, hvalues, hrest⟩ := effect_bind_eq_ok hn
  obtain ⟨v, last, hcall, hlast⟩ := effect_bind_eq_ok hrest
  cases hlast
  rw [effect_onStore] at hcall
  obtain ⟨⟨result, left⟩, hleft, hr⟩ := Option.map_eq_some_iff.1 hcall
  cases hr
  exact ⟨values, mid, v, ⟨n, hvalues⟩, ⟨n, hleft⟩, rfl⟩

variable (hm : Model.compile dialect d = .ok m) (hs : m.descend? o = some s)
  (hf : s.method? name = some f) (hvalue : f.body.returnsValue = true)

include hm hs hf hvalue

/-- A run of the body of a method that returns a value passes its end or comes to a value. -/
theorem through_of_ends {g g' : Frame} {flow : Flow}
    (h : Ends (fun n => execAll (inTree m o f.body n) f.body.stmts) g (.ok flow, g')) :
    flow.Through (Stmt.passableAll f.body.stmts) := by
  obtain ⟨n, hn⟩ := h
  have hvalued := Model.compile_valued hm hs (Model.method?_mem hf).1 hvalue
  exact (execAll_through (inTree m o f.body n) f.body.stmts hvalued).result hn

theorem isSome_iff_not_fallsOff (h : Ends (fun n => call m n o name args) store (.ok v, left)) :
    v.isSome ↔ ¬FallsOff m o f args store := by
  obtain ⟨flow, frame, hrun, rfl⟩ := call_ends_ok hs hf h
  have hthrough := through_of_ends hm hs hf hvalue hrun
  constructor
  · rintro hsome ⟨frame', hend⟩
    have heq := Ends.unique (bodies_grow m o f.body f.body.stmts) hrun hend
    cases heq
    cases hsome
  · intro hnot
    cases flow with
    | next => exact absurd ⟨frame, hrun⟩ hnot
    | ret w =>
      have hw : w.isSome = true := hthrough
      rw [Flow.value, Option.isSome_map]
      exact hw

/-- A call of a method that returns a value, if it ends well, yields one exactly if the run does
not pass the end of the body. Where it is used as a value, zero takes the place of the value that is
missing. If every way through the body meets a return, none is ever missing. -/
theorem returning_call_yields_value :
    (∀ args store v left, Ends (fun n => call m n o name args) store (.ok v, left) →
      (v.isSome ↔ ¬FallsOff m o f args store)) ∧
    (∀ q owner b es g g' w, q ++ owner = o →
      Ends (fun n => eval (inTree m q b n) (.call (.method owner name) es)) g (.ok w, g') →
      ∃ values mid, Ends (fun n => evalAll (inTree m q b n) es) g (.ok values, mid) ∧
        (¬FallsOff m o f values mid.store ∧
            Ends (fun n => call m n o name values) mid.store (.ok (some w), g'.store) ∨
          FallsOff m o f values mid.store ∧ w = .float 0.0)) ∧
    (Stmt.passableAll f.body.stmts = false → ∀ args store, ¬FallsOff m o f args store) := by
  refine ⟨fun args store v left h => isSome_iff_not_fallsOff hm hs hf hvalue h, ?_, ?_⟩
  · rintro q owner b es g g' w rfl h
    obtain ⟨values, mid, v, hvalues, hcall, rfl⟩ := eval_call_ends_ok h
    have hiff := isSome_iff_not_fallsOff hm hs hf hvalue hcall
    refine ⟨values, mid, hvalues, ?_⟩
    cases v with
    | none => exact .inr ⟨not_not.1 fun hnot => absurd (hiff.2 hnot) (by simp), rfl⟩
    | some w => exact .inl ⟨hiff.1 rfl, hcall⟩
  · rintro hblocked args store ⟨frame, hend⟩
    have hpassed : Stmt.passableAll f.body.stmts = true := through_of_ends hm hs hf hvalue hend
    rw [hblocked] at hpassed
    cases hpassed

end Call

def gauge (rest : String) : Definition where
  name := "gauge"
  sources := [⟨"gauge.mdl", "def read(model, d_level):\n    if d_level > 0.0:\n" ++
    "        return d_level\n" ++ rest⟩]
  methods := { add := ["read"] }

/-- With a second return behind the choice every call of the gauge that ends well yields a value. -/
theorem gauge_yields_value :
    ∃ m f, Model.compile {} (gauge "    return 0.0\n") = .ok m ∧ m.method? "read" = some f ∧
      f.body.returnsValue = true ∧ Stmt.passableAll f.body.stmts = false ∧
      ∀ args store v left, Ends (fun n => call m n [] "read" args) store (.ok v, left) → v.isSome := by
  have hrun : ((Model.compile {} (gauge "    return 0.0\n")).toOption.any fun m =>
      (m.method? "read").any fun f =>
        f.body.returnsValue = true ∧ Stmt.passableAll f.body.stmts = false) := by
    decide +kernel
  obtain ⟨m, hcompile, h⟩ := exists_ok_of_any hrun
  obtain ⟨f, hf, h⟩ := (Option.any_eq_true _ _).1 h
  obtain ⟨hvalue, hblocked⟩ := of_decide_eq_true h
  obtain ⟨hyields, -, hnever⟩ :=
    returning_call_yields_value hcompile (o := []) (s := m) rfl hf hvalue
  refine ⟨m, f, hcompile, hf, hvalue, hblocked, fun args store v left h => ?_⟩
  exact (hyields args store v left h).2 (hnever hblocked args store)

/-- Without one the gauge still counts as returning a value, but a call on a dry gauge ends well and
yields none. -/
theorem gauge_yields_none :
    ∃ m f left, Model.compile {} (gauge "") = .ok m ∧ m.method? "read" = some f ∧
      f.body.returnsValue = true ∧
      call m 1 [] "read" [.float 0.0] (Store.ofDefinition (gauge "")) = .ok none left := by
  have hrun : ((Model.compile {} (gauge "")).toOption.any fun m =>
      (m.method? "read").any fun f => f.body.returnsValue = true ∧
        Results (fun v _ => v.isNone = true) (fun _ _ => False)
          (call m 1 [] "read" [.float 0.0] (Store.ofDefinition (gauge "")))) := by
    decide +kernel
  obtain ⟨m, hm, h⟩ := exists_ok_of_any hrun
  obtain ⟨f, hf, h⟩ := (Option.any_eq_true _ _).1 h
  obtain ⟨hvalue, hcall⟩ := of_decide_eq_true h
  obtain ⟨v, left, hcall, hnone⟩ := hcall.exists_ok
  obtain rfl := Option.isNone_iff_eq_none.1 hnone
  exact ⟨m, f, left, hm, hf, hvalue, hcall⟩

end Interpreter

end ProcessModel
