import Mathlib.Tactic.Common
import ProcessModel.Tree.Stmt

/-! Properties of all parts of a tree.

`Expr.All` and `Stmt.All` say that every part of a tree has a property; the lemmas of this module
take such a statement apart along the constructors. -/

namespace ProcessModel

namespace Expr

mutual

/-- The expression and all expressions in it, outer ones first. -/
def nodes : Expr → List Expr
  | .int n => [.int n]
  | .float x text => [.float x text]
  | .bool b => [.bool b]
  | .loc x => [.loc x]
  | .var path indices => .var path indices :: nodesAll indices
  | .unary op e => .unary op e :: nodes e
  | .binary op l r => .binary op l r :: (nodes l ++ nodes r)
  | .call callee args => .call callee args :: nodesAll args

def nodesAll : List Expr → List Expr
  | [] => []
  | e :: es => nodes e ++ nodesAll es

end

/-- Whether an expression and all expressions in it have a property. -/
def All (A : Expr → Prop) (e : Expr) : Prop := ∀ x ∈ e.nodes, A x

def AllIn (A : Expr → Prop) (es : List Expr) : Prop := ∀ x ∈ nodesAll es, A x

variable {A : Expr → Prop}

attribute [local simp] nodes nodesAll

@[simp] theorem all_int (n : Int64) : All A (.int n) ↔ A (.int n) := by simp [All]

@[simp] theorem all_float (x : Float) (text : String) :
    All A (.float x text) ↔ A (.float x text) := by simp [All]

@[simp] theorem all_bool (b : Bool) : All A (.bool b) ↔ A (.bool b) := by simp [All]

@[simp] theorem all_loc (x : String) : All A (.loc x) ↔ A (.loc x) := by simp [All]

@[simp] theorem all_var (p : VarPath) (indices : List Expr) :
    All A (.var p indices) ↔ A (.var p indices) ∧ AllIn A indices := by simp [All, AllIn]

@[simp] theorem all_unary (op : UnaryOp) (e : Expr) :
    All A (.unary op e) ↔ A (.unary op e) ∧ All A e := by simp [All]

@[simp] theorem all_binary (op : BinaryOp) (l r : Expr) :
    All A (.binary op l r) ↔ A (.binary op l r) ∧ All A l ∧ All A r := by
  simp [All, or_imp, forall_and]

@[simp] theorem all_call (callee : Callee) (args : List Expr) :
    All A (.call callee args) ↔ A (.call callee args) ∧ AllIn A args := by
  simp [All, AllIn]

@[simp] theorem allIn_nil : AllIn A [] := by simp [AllIn]

@[simp] theorem allIn_cons (e : Expr) (es : List Expr) :
    AllIn A (e :: es) ↔ All A e ∧ AllIn A es := by
  simp [All, AllIn, or_imp, forall_and]

@[simp] theorem allIn_append (es fs : List Expr) :
    AllIn A (es ++ fs) ↔ AllIn A es ∧ AllIn A fs := by
  induction es with
  | nil => simp
  | cons e es ih => simp [ih, and_assoc]

theorem all_mono {B : Expr → Prop} {e : Expr} (h : All A e) (hAB : ∀ x, A x → B x) : All B e :=
  fun x hx => hAB x (h x hx)

theorem allIn_iff {es : List Expr} : AllIn A es ↔ ∀ e ∈ es, All A e := by
  induction es with
  | nil => simp
  | cons e es ih => simp [ih]

theorem nodesAll_eq_flatMap (es : List Expr) : nodesAll es = es.flatMap nodes := by
  induction es with
  | nil => rfl
  | cons e es ih => rw [nodesAll, ih, List.flatMap_cons]

mutual

theorem map_expr_walk : ∀ (e : Expr) (place : List Nat), (e.walk place).map (·.expr) = e.nodes
  | .int _, _ | .float _ _, _ | .bool _, _ | .loc _, _ => by simp [walk]
  | .var _ indices, _ => by simp [walk, map_expr_walkAll indices]
  | .unary _ e, _ => by simp [walk, map_expr_walk e]
  | .binary _ l r, _ => by simp [walk, map_expr_walk l, map_expr_walk r]
  | .call _ args, _ => by simp [walk, map_expr_walkAll args]

theorem map_expr_walkAll : ∀ (es : List Expr) (place : List Nat) (i : Nat),
    (walkAll place i es).map (·.expr) = nodesAll es
  | [], _, _ => by simp [walkAll]
  | e :: es, _, _ => by simp [walkAll, map_expr_walk e, map_expr_walkAll es]

end

theorem nodesAll_append (es fs : List Expr) : nodesAll (es ++ fs) = nodesAll es ++ nodesAll fs := by
  simp only [nodesAll_eq_flatMap, List.flatMap_append]

end Expr

namespace Stmt

mutual

/-- The expressions of a statement and of those in it, from first to last. -/
def exprs : Stmt → List Expr
  | .assign _ target value => target.indices ++ [value]
  | .count _ _ start stop _ body => start :: stop :: exprsAll body
  | .choose _ clauses otherwise => clauseExprs clauses ++ exprsAll otherwise
  | .loop _ test body => test :: exprsAll body
  | .ret _ value => value.toList
  | .pass => []
  | .call _ e => [e]

def exprsAll : List Stmt → List Expr
  | [] => []
  | s :: rest => exprs s ++ exprsAll rest

def clauseExprs : List Clause → List Expr
  | [] => []
  | ⟨test, body⟩ :: rest => test :: exprsAll body ++ clauseExprs rest

end

/-- All expressions of a list of statements, outer ones first. -/
def nodes (body : List Stmt) : List Expr := (exprsAll body).flatMap Expr.nodes

mutual

/-- Where a statement and those in it write; a loop writes to its counter. -/
def targets : Stmt → List Target
  | .assign _ target _ => [target]
  | .count _ counter _ _ _ body => .loc counter :: targetsAll body
  | .choose _ clauses otherwise => clauseTargets clauses ++ targetsAll otherwise
  | .loop _ _ body => targetsAll body
  | _ => []

def targetsAll : List Stmt → List Target
  | [] => []
  | s :: rest => targets s ++ targetsAll rest

def clauseTargets : List Clause → List Target
  | [] => []
  | ⟨_, body⟩ :: rest => targetsAll body ++ clauseTargets rest

end

/-- Whether all expressions in a statement have property `A` and all its targets property `B`. -/
def All (A : Expr → Prop) (B : Target → Prop) (s : Stmt) : Prop :=
  Expr.AllIn A (exprs s) ∧ ∀ t ∈ targets s, B t

def AllIn (A : Expr → Prop) (B : Target → Prop) (ss : List Stmt) : Prop :=
  Expr.AllIn A (exprsAll ss) ∧ ∀ t ∈ targetsAll ss, B t

def AllClauses (A : Expr → Prop) (B : Target → Prop) (cs : List Clause) : Prop :=
  Expr.AllIn A (clauseExprs cs) ∧ ∀ t ∈ clauseTargets cs, B t

variable {A : Expr → Prop} {B : Target → Prop}

attribute [local simp] exprs exprsAll clauseExprs targets targetsAll clauseTargets

@[simp] theorem all_assign (line : Nat) (target : Target) (value : Expr) :
    All A B (.assign line target value) ↔
      B target ∧ Expr.AllIn A target.indices ∧ Expr.All A value := by
  simp only [All, exprs, targets, Expr.allIn_append, Expr.allIn_cons, Expr.allIn_nil,
    List.mem_singleton, forall_eq, and_true]
  exact and_comm

@[simp] theorem all_count (line : Nat) (x : String) (start stop : Expr) (step : Int64)
    (body : List Stmt) :
    All A B (.count line x start stop step body) ↔
      B (.loc x) ∧ Expr.All A start ∧ Expr.All A stop ∧ AllIn A B body := by
  simp only [All, AllIn, exprs, targets, Expr.allIn_cons, List.mem_cons, forall_eq_or_imp]
  tauto

@[simp] theorem all_choose (line : Nat) (clauses : List Clause) (otherwise : List Stmt) :
    All A B (.choose line clauses otherwise) ↔
      AllClauses A B clauses ∧ AllIn A B otherwise := by
  simp only [All, AllIn, AllClauses, exprs, targets, Expr.allIn_append, List.mem_append, or_imp,
    forall_and]
  tauto

@[simp] theorem all_loop (line : Nat) (test : Expr) (body : List Stmt) :
    All A B (.loop line test body) ↔ Expr.All A test ∧ AllIn A B body := by
  simp only [All, AllIn, exprs, targets, Expr.allIn_cons, and_assoc]

@[simp] theorem all_ret_none (line : Nat) : All A B (.ret line none) := by
  simp [All]

@[simp] theorem all_ret_some (line : Nat) (e : Expr) :
    All A B (.ret line (some e)) ↔ Expr.All A e := by
  simp [All]

@[simp] theorem all_pass : All A B .pass := by simp [All]

@[simp] theorem all_callStmt (line : Nat) (e : Expr) :
    All A B (.call line e) ↔ Expr.All A e := by
  simp [All]

@[simp] theorem allIn_nil : AllIn A B [] := by simp [AllIn]

@[simp] theorem allIn_cons (s : Stmt) (ss : List Stmt) :
    AllIn A B (s :: ss) ↔ All A B s ∧ AllIn A B ss := by
  simp only [All, AllIn, exprsAll, targetsAll, Expr.allIn_append, List.mem_append, or_imp,
    forall_and]
  tauto

@[simp] theorem allClauses_nil : AllClauses A B [] := by
  simp [AllClauses]

@[simp] theorem allClauses_cons (test : Expr) (body : List Stmt) (cs : List Clause) :
    AllClauses A B (⟨test, body⟩ :: cs) ↔
      Expr.All A test ∧ AllIn A B body ∧ AllClauses A B cs := by
  simp only [AllIn, AllClauses, clauseExprs, clauseTargets, List.cons_append, Expr.allIn_cons,
    Expr.allIn_append, List.mem_append, or_imp, forall_and]
  tauto

theorem allIn_iff_nodes (ss : List Stmt) :
    AllIn A B ss ↔ (∀ x ∈ nodes ss, A x) ∧ ∀ t ∈ targetsAll ss, B t := by
  simp only [AllIn, Expr.AllIn, Expr.nodesAll_eq_flatMap, nodes]

mutual

theorem map_expr_walk : ∀ (s : Stmt) (place : List Nat),
    (s.walk place).map (·.expr) = Expr.nodesAll (exprs s)
  | .assign _ _ _, _ | .ret _ _, _ | .pass, _ | .call _ _, _ => by
    simp [walk, Expr.map_expr_walkAll, Expr.nodesAll]
  | .count _ _ _ _ _ body, _ => by
    simp [walk, Expr.map_expr_walkAll, Expr.nodesAll, map_expr_walkAll body]
  | .choose _ clauses otherwise, _ => by
    simp [walk, Expr.nodesAll_append, map_expr_clauseWalk clauses, map_expr_walkAll otherwise]
  | .loop _ _ body, _ => by
    simp [walk, Expr.map_expr_walkAll, Expr.nodesAll, map_expr_walkAll body]

theorem map_expr_walkAll : ∀ (ss : List Stmt) (place : List Nat) (i : Nat),
    (walkAll place i ss).map (·.expr) = Expr.nodesAll (exprsAll ss)
  | [], _, _ => by simp [walkAll, Expr.nodesAll]
  | s :: ss, _, _ => by
    simp [walkAll, Expr.nodesAll_append, map_expr_walk s, map_expr_walkAll ss]

theorem map_expr_clauseWalk : ∀ (cs : List Clause) (place : List Nat) (i : Nat),
    (clauseWalk place i cs).map (·.expr) = Expr.nodesAll (clauseExprs cs)
  | [], _, _ => by simp [clauseWalk, Expr.nodesAll]
  | ⟨_, body⟩ :: cs, _, _ => by
    simp [clauseWalk, Expr.map_expr_walkAll, Expr.nodesAll, Expr.nodesAll_append,
      map_expr_walkAll body, map_expr_clauseWalk cs]

end

end Stmt

namespace Body

theorem map_expr_occurrences (b : Body) : b.occurrences.map (·.expr) = Stmt.nodes b.stmts := by
  rw [occurrences, Stmt.map_expr_walkAll, Expr.nodesAll_eq_flatMap, Stmt.nodes]

theorem exists_methodCall {b : Body} {e : Expr} (he : e ∈ Stmt.nodes b.stmts)
    (hcall : e.isMethodCall = true) : ∃ o ∈ b.methodCalls, o.expr = e := by
  rw [← map_expr_occurrences] at he
  obtain ⟨o, ho, rfl⟩ := List.mem_map.1 he
  exact ⟨o, List.mem_filter.2 ⟨ho, hcall⟩, rfl⟩

end Body

end ProcessModel
