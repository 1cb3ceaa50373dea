import ProcessModel.Proofs.Indentation

/-! The names in parsed bodies.

Whatever the readers of expressions and statements return mentions declared locals and variables of
the tree of definitions only. -/

namespace ProcessModel

namespace Names

/-- Whether the name that an expression starts with means something. -/
@[simp] def Knows (names : Names) : Expr → Prop
  | .loc x => names.isLocal x
  | .var p indices => ∃ v, names.definition.declared? p = some v ∧ indices.length = v.ndim
  | .call (.builtin f) args => args.length = f.arity
  | _ => True

@[simp] def Binds (names : Names) : Target → Prop
  | .loc x => names.isLocal x
  | .var p indices => ∃ v, names.definition.declared? p = some v ∧ indices.length = v.ndim

abbrev Scopes (names : Names) (e : Expr) : Prop := e.All names.Knows

/-- Whether all names in statements mean something, and all their targets can be written to. -/
abbrev ScopesStmts (names : Names) (ss : List Stmt) : Prop :=
  Stmt.AllIn names.Knows names.Binds ss

end Names

theorem Names.closed_scopes (names : Names) : names.Closed fun _ _ e => names.Scopes e where
  tighten _ _ h := h
  join _ hl hr := by simpa using ⟨hl, hr⟩
  not h := by simpa using h
  comparison _ hl hr := by simpa using ⟨hl, hr⟩
  minus h := by simpa using h
  plus h := by simpa using h
  power hl hr := by simpa using ⟨hl, hr⟩
  integer _ _ := by simp
  decimal _ _ := by simp
  truth := by simp
  falsity := by simp
  brackets h := h
  loc hx _ := by simpa using hx
  builtin h _ harity := by simpa [Expr.allIn_iff, harity] using fun e ts hp => h (ts, e) hp
  method _ h _ := by simpa [Expr.allIn_iff] using fun e ts hp => h (ts, e) hp
  scalar _ hv hndim := by simp [hv, hndim]
  element _ hv h _ hndim := by
    simpa [Expr.allIn_iff, hv, hndim] using fun e ts hp => h (ts, e) hp

theorem Stmt.ofLines_yields (names : Names) (ls : List LogicalLine) :
    Yields names.ScopesStmts (ofLines names ls) := fun _ h =>
  ofLines_all h (fun _ _ _ _ _ he => Expr.closed_of_ofTokens names.closed_scopes he)
    (fun _ hx => hx) (fun _ _ hv => hv) trivial

/-- What the body of a method may mention. -/
def Body.names (d : Definition) (b : Body) : Names := ⟨d, b.args ++ b.locals⟩

/-- Every name in a body that was read means something, and its targets can be written to. -/
theorem Body.ofNormal_yields (d : Definition) (name : String) (kind : MethodKind) (doc : String)
    (normal : NormalBody) :
    Yields (fun b => b.name = name ∧ (b.names d).ScopesStmts b.stmts)
      (ofNormal d name kind doc normal) := by
  refine yields_bind (Stmt.ofLines_yields _ _) fun ss hs => ?_
  exact yields_bind (yields_true _) fun _ _ => yields_pure ⟨rfl, hs⟩

theorem Body.isSome_typeOf? {d : Definition} {b : Body} {x : String}
    (h : (b.names d).isLocal x) : (b.typeOf? x).isSome := by
  obtain ⟨l, hl, hx⟩ := List.any_eq_true.1 h
  rw [typeOf?, Option.isSome_map, List.find?_isSome]
  exact ⟨l, hl, hx⟩

end ProcessModel
