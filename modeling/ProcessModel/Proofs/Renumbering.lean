import Mathlib.Tactic.Common
import ProcessModel.Proofs.Outcome
import ProcessModel.Tree.StmtParser

/-! Statements without the numbers of their lines.

Lines that differ in their numbers only are read as trees that differ in these numbers only. -/

namespace ProcessModel

open Script

def LogicalLine.unnumbered (l : LogicalLine) : LogicalLine := { l with line := 0 }

namespace Stmt

mutual

def unnumbered : Stmt → Stmt
  | .assign _ target value => .assign 0 target value
  | .count _ counter start stop step body => .count 0 counter start stop step (unnumberedAll body)
  | .choose _ clauses otherwise => .choose 0 (unnumberedClauses clauses) (unnumberedAll otherwise)
  | .loop _ test body => .loop 0 test (unnumberedAll body)
  | .ret _ value => .ret 0 value
  | .pass => .pass
  | .call _ e => .call 0 e

def unnumberedAll : List Stmt → List Stmt
  | [] => []
  | s :: rest => unnumbered s :: unnumberedAll rest

def unnumberedClauses : List Clause → List Clause
  | [] => []
  | ⟨test, body⟩ :: rest => ⟨test, unnumberedAll body⟩ :: unnumberedClauses rest

end

end Stmt

def Body.unnumbered (b : Body) : Body := { b with stmts := Stmt.unnumberedAll b.stmts }

section Unplaced

variable {α β α' β' : Type}

/-- A result with `f` applied to its value, or a failure without its place. -/
def unplaced (f : α → β) : Except Unsupported α → Except Unsupported β
  | .ok a => .ok (f a)
  | .error e => .error { e with line := 0 }

variable {f : α → α'} {g : β → β'}

theorem unplaced_bind {x : Except Unsupported α} {x' : Except Unsupported α'}
    {k : α → Except Unsupported β} {k' : α' → Except Unsupported β'} (hx : x' = unplaced f x)
    (hk : ∀ a, k' (f a) = unplaced g (k a)) : x' >>= k' = unplaced g (x >>= k) := by
  subst hx
  cases x with
  | error e => rfl
  | ok a => exact hk a

theorem onLine_unplaced (line : Nat) (x : Except Construct α) :
    onLine 0 x = unplaced id (onLine line x) := by
  cases x <;> rfl

end Unplaced

namespace Stmt

variable {names : Names} {n : Nat}

theorem simple_unnumbered (names : Names) (l : LogicalLine) :
    simple names l.unnumbered = (simple names l).map unnumbered := by
  have htokens : l.unnumbered.tokens = l.tokens := rfl
  have hheader : l.unnumbered.isHeader = l.isHeader := rfl
  have hrender : l.unnumbered.render = l.render := rfl
  simp only [simple, htokens, hheader, hrender]
  split_ifs
  · cases Expr.ofTokens names (l.tokens.drop 1) <;> rfl
  · rfl
  · rfl
  · rfl
  · split
    · rename_i i hi
      cases target names (l.tokens.take i) with
      | error e => rfl
      | ok t => cases Expr.ofTokens names (l.tokens.drop (i + 1)) <;> rfl
    · cases Expr.ofTokens names l.tokens with
      | error e => rfl
      | ok e =>
        simp only [ok_bind]
        split_ifs <;> rfl

/-- What the functions of the reader return at depth `n` for lines without numbers. -/
structure ReaderUnnumbered (names : Names) (n : Nat) : Prop where
  block : ∀ indent ls, block names n indent (ls.map LogicalLine.unnumbered) =
    unplaced (fun r => (unnumberedAll r.1, r.2.map LogicalLine.unnumbered))
      (block names n indent ls)
  statement : ∀ l ls, statement names n l.unnumbered (ls.map LogicalLine.unnumbered) =
    unplaced (fun r => (r.1.unnumbered, r.2.map LogicalLine.unnumbered)) (statement names n l ls)
  suite : ∀ l ls, suite names n l.unnumbered (ls.map LogicalLine.unnumbered) =
    unplaced (fun r => (unnumberedAll r.1, r.2.map LogicalLine.unnumbered)) (suite names n l ls)
  clauses : ∀ indent ls, clauses names n indent (ls.map LogicalLine.unnumbered) =
    unplaced (fun r => (unnumberedClauses r.1, unnumberedAll r.2.1,
      r.2.2.map LogicalLine.unnumbered)) (clauses names n indent ls)

section

variable (h : ReaderUnnumbered names n)
include h

theorem block_unnumbered (indent : Nat) (ls : List LogicalLine) :
    block names (n + 1) indent (ls.map LogicalLine.unnumbered) =
      unplaced (fun r => (unnumberedAll r.1, r.2.map LogicalLine.unnumbered))
        (block names (n + 1) indent ls) := by
  cases ls with
  | nil => rfl
  | cons l ls =>
    have hindent : l.unnumbered.indent = l.indent := rfl
    simp only [List.map_cons, Stmt.block, hindent]
    split_ifs
    · rfl
    · rfl
    · refine unplaced_bind (h.statement l ls) fun r => ?_
      refine unplaced_bind (h.block indent r.2) fun q => ?_
      rfl

theorem suite_unnumbered (l : LogicalLine) (ls : List LogicalLine) :
    suite names (n + 1) l.unnumbered (ls.map LogicalLine.unnumbered) =
      unplaced (fun r => (unnumberedAll r.1, r.2.map LogicalLine.unnumbered))
        (suite names (n + 1) l ls) := by
  cases ls with
  | nil => rfl
  | cons next ls =>
    have hindent : l.unnumbered.indent = l.indent := rfl
    have hnext : next.unnumbered.indent = next.indent := rfl
    simp only [List.map_cons, Stmt.suite, hindent, hnext]
    split_ifs
    · exact h.block next.indent (next :: ls)
    · rfl

theorem statement_unnumbered (l : LogicalLine) (ls : List LogicalLine) :
    statement names (n + 1) l.unnumbered (ls.map LogicalLine.unnumbered) =
      unplaced (fun r => (r.1.unnumbered, r.2.map LogicalLine.unnumbered))
        (statement names (n + 1) l ls) := by
  have htokens : l.unnumbered.tokens = l.tokens := rfl
  have hline : l.unnumbered.line = 0 := rfl
  have hindent : l.unnumbered.indent = l.indent := rfl
  have htest : test names l.unnumbered = test names l := rfl
  simp only [Stmt.statement, htokens, hline, hindent, htest]
  generalize (l.tokens.head?.filter fun t => decide (t.kind = .name)) = head
  split
  · refine unplaced_bind (onLine_unplaced l.line _) fun e => ?_
    refine unplaced_bind (h.suite l ls) fun r => ?_
    refine unplaced_bind (h.clauses l.indent r.2) fun q => ?_
    rfl
  · refine unplaced_bind (onLine_unplaced l.line _) fun e => ?_
    refine unplaced_bind (h.suite l ls) fun r => ?_
    rfl
  · refine unplaced_bind (onLine_unplaced l.line _) fun e => ?_
    refine unplaced_bind (h.suite l ls) fun r => ?_
    rfl
  · rfl
  · rfl
  · have hsimple : onLine 0 (simple names l.unnumbered) =
        unplaced unnumbered (onLine l.line (simple names l)) := by
      rw [simple_unnumbered]
      cases simple names l <;> rfl
    refine unplaced_bind hsimple fun s => ?_
    rfl

theorem clauses_unnumbered (indent : Nat) (ls : List LogicalLine) :
    clauses names (n + 1) indent (ls.map LogicalLine.unnumbered) =
      unplaced (fun r => (unnumberedClauses r.1, unnumberedAll r.2.1,
        r.2.2.map LogicalLine.unnumbered)) (clauses names (n + 1) indent ls) := by
  cases ls with
  | nil => rfl
  | cons l ls =>
    have htokens : l.unnumbered.tokens = l.tokens := rfl
    have hheader : l.unnumbered.isHeader = l.isHeader := rfl
    have hline : l.unnumbered.line = 0 := rfl
    have hindent : l.unnumbered.indent = l.indent := rfl
    have htest : test names l.unnumbered = test names l := rfl
    simp only [List.map_cons, Stmt.clauses, htokens, hheader, hline, hindent, htest]
    split_ifs
    · rfl
    · refine unplaced_bind (onLine_unplaced l.line _) fun e => ?_
      refine unplaced_bind (h.suite l ls) fun r => ?_
      refine unplaced_bind (h.clauses indent r.2) fun q => ?_
      rfl
    · refine unplaced_bind (h.suite l ls) fun r => ?_
      rfl
    · rfl
    · rfl

end

theorem reader_unnumbered (names : Names) (n : Nat) : ReaderUnnumbered names n := by
  induction n with
  | zero => exact ⟨fun _ _ => rfl, fun _ _ => rfl, fun _ _ => rfl, fun _ _ => rfl⟩
  | succ n ih =>
    exact ⟨block_unnumbered ih, statement_unnumbered ih, suite_unnumbered ih, clauses_unnumbered ih⟩

theorem ofLines_unnumbered (names : Names) (ls : List LogicalLine) :
    ofLines names (ls.map LogicalLine.unnumbered) = unplaced unnumberedAll (ofLines names ls) := by
  have hdepth : parseDepth (ls.map LogicalLine.unnumbered) = parseDepth ls := by simp [parseDepth]
  have hindent : (((ls.map LogicalLine.unnumbered).head?.map (·.indent)).getD 0) =
      (ls.head?.map (·.indent)).getD 0 := by
    cases ls <;> rfl
  unfold ofLines
  rw [hdepth, hindent]
  refine unplaced_bind ((reader_unnumbered names _).block _ ls) fun r => ?_
  obtain ⟨ss, rest⟩ := r
  cases rest <;> rfl

mutual

theorem returns_unnumbered : ∀ s : Stmt, returns s.unnumbered = (returns s).map fun r => (r.1, 0)
  | .count _ _ _ _ _ body => returnsAll_unnumbered body
  | .choose _ clauses otherwise => by
    rw [unnumbered, returns, returns, List.map_append, clauseReturns_unnumbered,
      returnsAll_unnumbered]
  | .loop _ _ body => returnsAll_unnumbered body
  | .ret _ _ => rfl
  | .assign .. => rfl
  | .pass => rfl
  | .call .. => rfl

theorem returnsAll_unnumbered : ∀ ss : List Stmt,
    returnsAll (unnumberedAll ss) = (returnsAll ss).map fun r => (r.1, 0)
  | [] => rfl
  | s :: rest => by
    rw [unnumberedAll, returnsAll, returnsAll, List.map_append, returns_unnumbered s,
      returnsAll_unnumbered rest]

theorem clauseReturns_unnumbered : ∀ cs : List Clause,
    clauseReturns (unnumberedClauses cs) = (clauseReturns cs).map fun r => (r.1, 0)
  | [] => rfl
  | ⟨_, body⟩ :: rest => by
    rw [unnumberedClauses, clauseReturns, clauseReturns, List.map_append,
      returnsAll_unnumbered body, clauseReturns_unnumbered rest]

end

end Stmt

namespace Body

theorem returnsOf_unnumbered (ss : List Stmt) :
    returnsOf (Stmt.unnumberedAll ss) = unplaced id (returnsOf ss) := by
  have hany : ((Stmt.returnsAll ss).map fun r => (r.1, 0)).any (·.1) =
      (Stmt.returnsAll ss).any (·.1) := List.any_map
  have hfind : ((Stmt.returnsAll ss).map fun r => (r.1, 0)).find? (fun r => !r.1) =
      ((Stmt.returnsAll ss).find? fun r => !r.1).map fun r => (r.1, 0) := List.find?_map
  simp only [returnsOf, Stmt.returnsAll_unnumbered, hany, hfind]
  cases (Stmt.returnsAll ss).find? fun r => !r.1 with
  | none => rfl
  | some r =>
    simp only [Option.map_some]
    split_ifs <;> rfl

theorem ofNormal_unnumbered (d : Definition) (name : String) (kind : MethodKind) (doc : String)
    (normal : NormalBody) :
    ofNormal d name kind doc { normal with lines := normal.lines.map LogicalLine.unnumbered } =
      unplaced unnumbered (ofNormal d name kind doc normal) := by
  refine unplaced_bind (Stmt.ofLines_unnumbered _ normal.lines) fun ss => ?_
  refine unplaced_bind (returnsOf_unnumbered ss) fun returns => ?_
  rfl

/-- Lines that differ in their numbers only are read as bodies that differ in these only. -/
theorem exists_ofNormal_of_unnumbered {d : Definition} {name doc : String} {kind : MethodKind}
    {normal : NormalBody} {body : Body} (h : ofNormal d name kind doc normal = .ok body)
    {ls : List LogicalLine}
    (hls : ls.map LogicalLine.unnumbered = normal.lines.map LogicalLine.unnumbered) :
    ∃ body', ofNormal d name kind doc { normal with lines := ls } = .ok body' ∧
      body'.unnumbered = body.unnumbered := by
  have hold := ofNormal_unnumbered d name kind doc normal
  have hnew := ofNormal_unnumbered d name kind doc { normal with lines := ls }
  rw [h] at hold
  rw [show ls.map LogicalLine.unnumbered = _ from hls, hold] at hnew
  cases hread : ofNormal d name kind doc { normal with lines := ls } with
  | error e =>
    rw [hread] at hnew
    cases hnew
  | ok body' =>
    rw [hread] at hnew
    exact ⟨body', rfl, (Except.ok.inj hnew).symm⟩

end Body

end ProcessModel
