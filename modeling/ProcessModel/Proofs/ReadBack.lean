import ProcessModel.Proofs.Loops
import ProcessModel.Proofs.Reassignment
import ProcessModel.Proofs.RunPoints

/-! Arguments and locals read back.

A name that stands alone is read as the local of that name, unless it is one of the words that have a
meaning of their own as an operand. These are not kept from being arguments or locals, and a target is
a local whatever its name. -/

namespace ProcessModel

/-- Words that an expression never takes for locals. -/
def fixedWords : List String := ["True", "False", "not", "self"]

namespace Names

variable {names : Names} {x : String}

theorem unmarked_name (hx : x ≠ "not") : Unmarked [.ofName x] :=
  unmarked_cons (by simpa [Token.ofName, Token.ofOp] using hx) []

theorem ofTokens_of_settles {e : Expr} (hx : x ≠ "not") (h : names.Settles .operand [.ofName x] e) :
    Expr.ofTokens names [.ofName x] = .ok e :=
  (h.loosen (unmarked_name hx) (by decide)).ofTokens

theorem ofTokens_true (names : Names) : Expr.ofTokens names [.ofName "True"] = .ok (.bool true) :=
  ofTokens_of_settles (by decide) (closed_settles names).truth

theorem ofTokens_false (names : Names) : Expr.ofTokens names [.ofName "False"] = .ok (.bool false) :=
  ofTokens_of_settles (by decide) (closed_settles names).falsity

theorem ofTokens_not (names : Names) : Expr.ofTokens names [.ofName "not"] = .error .endOfExpression := rfl

theorem ofTokens_self (names : Names) : Expr.ofTokens names [.ofName "self"] = .error .bareSelf := rfl

theorem ofTokens_local_iff (hlocal : names.isLocal x = true) :
    Expr.ofTokens names [.ofName x] = .ok (.loc x) ↔ x ∉ fixedWords := by
  simp only [fixedWords, List.mem_cons, List.not_mem_nil, or_false, not_or]
  constructor
  · intro h
    refine ⟨?_, ?_, ?_, ?_⟩ <;> rintro rfl
    · cases (ofTokens_true names).symm.trans h
    · cases (ofTokens_false names).symm.trans h
    · cases (ofTokens_not names).symm.trans h
    · cases (ofTokens_self names).symm.trans h
  · rintro ⟨htrue, hfalse, hnot, hself⟩
    exact ofTokens_of_settles hnot ((closed_settles names).loc hlocal (by simp [htrue, hfalse, hself]))

end Names

namespace Interpreter

/-- In a running body, a part that starts in the frame `g` leads to another part in the frame `h`. -/
def Reaches (c : Context) (p : Part) (g : Frame) (q : Part) (h : Frame) : Prop :=
  Relation.ReflTransGen (fun a b : Part × Frame => Inner c a.1 a.2 b.1 b.2) (p, g) (q, h)

section Locals

variable {c : Context} {p q : Part} {g h : Frame} {x : String} {w : Value}

theorem Inner.targets_subset (hpq : Inner c p g q h) : q.targets ⊆ p.targets := by
  intro t ht
  cases hpq <;> simp_all [Part.targets, Stmt.targets, Stmt.targetsAll, Stmt.clauseTargets]

theorem targetKeeps_local {t : Target} (ht : t ≠ .loc x) :
    TargetKeeps (fun g => g.locals.get? x = some w) AnyStop c t := by
  cases t with
  | loc y =>
    have hy : y ≠ x := fun heq => ht (congrArg Target.loc heq)
    refine fun v => keeps_get fun g hg => ?_
    split
    · refine keeps_set ?_
      dsimp only
      rw [Keyed.get?_insert, if_neg hy, hg]
    · exact keeps_throw trivial
  | var path indices =>
    refine fun index v _ => keeps_get fun g hg => keeps_bind (ofExcept_keeps _) fun s _ => ?_
    exact keeps_set hg

theorem execAll_keeps_local {ss : List Stmt} (hx : .loc x ∉ Stmt.targetsAll ss) :
    Keeps (fun g => g.locals.get? x = some w) AnyStop (execAll c ss) fun _ => True := by
  refine execAll_keeps (tolerates_anyStop c) ss ⟨fun e _ => nodeKeeps_locals c (·.get? x = some w) e, ?_⟩
  exact fun t ht => targetKeeps_local fun heq => hx (heq ▸ ht)

theorem Inner.keeps_local (hpq : Inner c p g q h) (hx : .loc x ∉ p.targets)
    (hg : g.locals.get? x = some w) : h.locals.get? x = some w :=
  hpq.keeps (P := fun g => g.locals.get? x = some w) (nodeKeeps_locals c (·.get? x = some w))
    (fun _ ht => targetKeeps_local fun heq => hx (heq ▸ ht)) hg

theorem Reaches.preserves {P : Part → Frame → Prop}
    (hstep : ∀ p g q h, Inner c p g q h → P p g → P q h) (hreach : Reaches c p g q h) (hp : P p g) :
    P q h := by
  have hrun : ∀ b : Part × Frame,
      Relation.ReflTransGen (fun a b : Part × Frame => Inner c a.1 a.2 b.1 b.2) (p, g) b → P b.1 b.2 := by
    intro b hb
    induction hb with
    | refl => exact hp
    | tail _ hinner ih => exact hstep _ _ _ _ hinner ih
  exact hrun (q, h) hreach

/-- A local keeps its value along a run that does not assign to it. -/
theorem Reaches.keeps_local (hreach : Reaches c p g q h) (hx : .loc x ∉ p.targets)
    (hg : g.locals.get? x = some w) : h.locals.get? x = some w := by
  refine (hreach.preserves (P := fun p g => .loc x ∉ p.targets ∧ g.locals.get? x = some w) ?_ ⟨hx, hg⟩).2
  rintro p g q h hinner ⟨hx, hg⟩
  exact ⟨fun hmem => hx (hinner.targets_subset hmem), hinner.keeps_local hx hg⟩

theorem lasting_local (c : Context) (x : String) : Lasting (fun g => (g.locals.get? x).isSome) c where
  node e := nodeKeeps_locals c (fun ls => (ls.get? x).isSome) e
  target t := by
    cases t with
    | loc y =>
      refine fun v => keeps_get fun g hg => ?_
      split
      · refine keeps_set ?_
        dsimp only
        rw [Keyed.get?_insert]
        split_ifs
        · rfl
        · exact hg
      · exact keeps_throw trivial
    | var path indices =>
      exact fun index v _ => keeps_get fun g hg => keeps_bind (ofExcept_keeps _) fun s _ => keeps_set hg

theorem eval_local (hg : g.locals.get? x = some w) : eval c (.loc x) g = .ok w g := by
  simp only [eval, run_get, hg]
  rfl

theorem exists_assign {t : LocalType} (ht : c.body.typeOf? x = some t) (hg : (g.locals.get? x).isSome)
    (v : Value) : ∃ h, assign c x v g = .ok () h ∧ h.locals.get? x = some (v.cast t) := by
  obtain ⟨old, hold⟩ := Option.isSome_iff_exists.1 hg
  refine ⟨{ g with locals := g.locals.insert x (v.cast t) }, ?_, by simp [Keyed.get?_insert]⟩
  simp only [assign, run_get, ht, hold]
  rfl

end Locals

section Compiled

variable {d : Definition} {dialect : Dialect} {kind : MethodKind} {name : String} {f : Method} {x : String}

/-- An argument or local of a compiled method is read as itself exactly if its name has no meaning of
its own in expressions. At every point of every run of the method it can be assigned a value, and has
this value, cast to its type, at all points from there on that are reached without another assignment
to it, and behind all statements that do not assign to it. -/
theorem locals_read_back (h : Method.compile d dialect kind name = .ok f)
    (hx : x ∈ f.source.args ++ f.source.locals) :
    (Expr.ofTokens (f.body.names d) [.ofName x] = .ok (.loc x) ↔ x ∉ fixedWords) ∧
    ∀ c : Context, c.body = f.body → ∀ (args : List Value) (store : Store),
      args.length = f.body.args.length → ∀ p g,
        Reaches c (.stmts f.body.stmts) ⟨initialLocals f.body args, store⟩ p g →
        ∀ v, ∃ g', assign c x v g = .ok () g' ∧ ∀ ss, .loc x ∉ Stmt.targetsAll ss →
          (∀ q h, Reaches c (.stmts ss) g' q h →
            eval c (.loc x) h = .ok (v.cast (.ofName dialect.accumulator x)) h) ∧
          eval c (.loc x) (left (execAll c ss g')) =
            .ok (v.cast (.ofName dialect.accumulator x)) (left (execAll c ss g')) := by
  have hmem : ⟨x, .ofName dialect.accumulator x⟩ ∈ f.body.args ++ f.body.locals := by
    rw [Method.locals_of_compile h]
    exact List.mem_map_of_mem hx
  have hlocal : (f.body.names d).isLocal x = true :=
    List.any_eq_true.2 ⟨_, hmem, beq_self_eq_true x⟩
  have htype := Method.typeOf?_of_compile h hmem
  refine ⟨Names.ofTokens_local_iff hlocal, fun c hc args store hargs p g hreach v => ?_⟩
  have hstart : ((initialLocals f.body args).get? x).isSome :=
    initialLocals_complete hargs (by rw [htype]; rfl)
  have hg : (g.locals.get? x).isSome :=
    hreach.preserves (P := fun _ g => (g.locals.get? x).isSome)
      (fun _ _ _ _ hinner => (lasting_local c x).inner hinner) hstart
  obtain ⟨g', hassign, hvalue⟩ := exists_assign (hc ▸ htype) hg v
  refine ⟨g', hassign, fun ss hss => ⟨fun q h hlater => ?_, ?_⟩⟩
  · exact eval_local (hlater.keeps_local hss hvalue)
  · exact eval_local ((execAll_keeps_local hss).left hvalue)

end Compiled

def piezometer (word : String) : Definition where
  name := "piezometer"
  sources := [⟨"piezometer.mdl", "def calc(model):\n    " ++ word ++ " = 0.0\n    flu.q = " ++ word ++ "\n"⟩]
  groups := [{ kind := .fluxes, vars := [{ name := "q" }] }]
  methods := { run := ["calc"] }

/-- A local may be named like an operator between operands. -/
theorem piezometer_reads_back :
    ∃ f, Method.compile (piezometer "and") {} .run "calc" = .ok f ∧
      "and" ∈ f.source.args ++ f.source.locals ∧
      Expr.ofTokens (f.body.names (piezometer "and")) [.ofName "and"] = .ok (.loc "and") ∧
      ∀ c : Context, c.body = f.body →
        ∃ g, assign c "and" (.float 2.5) ⟨initialLocals f.body [], []⟩ = .ok () g ∧
          eval c (.loc "and") g = .ok (.int 2) g := by
  have hrun : ((Method.compile (piezometer "and") {} .run "calc").toOption.any fun f =>
      decide ("and" ∈ f.source.args ++ f.source.locals) && f.body.args.length == 0) := by
    decide +kernel
  have hcast : Value.cast (.ofName ({} : Dialect).accumulator "and") (.float 2.5) = .int 2 := by
    have htype : LocalType.ofName ({} : Dialect).accumulator "and" = .int := by decide
    have hwhole : Real64.toInt 2.5 = 2 := by decide +kernel
    rw [htype]
    exact congrArg Value.int hwhole
  obtain ⟨f, hcompile, hmem⟩ := exists_ok_of_any hrun
  obtain ⟨hmem, hargs⟩ := Bool.and_eq_true_iff.1 hmem
  have hx := of_decide_eq_true hmem
  obtain ⟨hread, hback⟩ := locals_read_back hcompile hx
  refine ⟨f, hcompile, hx, hread.2 (by decide), fun c hc => ?_⟩
  obtain ⟨g, hassign, hlater⟩ := hback c hc [] [] (beq_iff_eq.1 hargs).symm _ _ .refl (.float 2.5)
  obtain ⟨hpoints, -⟩ := hlater [] (by simp [Stmt.targetsAll])
  rw [hcast] at hpoints
  exact ⟨g, hassign, hpoints _ _ .refl⟩

/-- A local named like a truth value is assigned zero and read as one. -/
theorem piezometer_reads_constant :
    ∃ m f s, Model.compile {} (piezometer "True") = .ok m ∧ f ∈ m.methods ∧
      "True" ∈ f.source.args ++ f.source.locals ∧
      Expr.ofTokens (f.body.names m.definition) [.ofName "True"] ≠ .ok (.loc "True") ∧
      effect (call m 5 [] f.name [] (Store.ofDefinition (piezometer "True"))) = some (.ok none, s) ∧
      s.scalar "fluxes.q" = .ok 1.0 := by
  have hrun : ((Model.compile {} (piezometer "True")).toOption.any fun m => m.methods.head?.any fun f =>
      (effect (call m 5 [] f.name [] (Store.ofDefinition (piezometer "True")))).any fun r =>
        decide ("True" ∈ f.source.args ++ f.source.locals) && r.1.toOption.any (·.isNone) &&
          decide ((r.2.scalar "fluxes.q").toOption = some 1.0)) := by
    decide +kernel
  obtain ⟨m, hm, hrun⟩ := exists_ok_of_any hrun
  obtain ⟨f, hhead, hrun⟩ := (Option.any_eq_true _ _).1 hrun
  obtain ⟨⟨r, s⟩, heffect, hr⟩ := (Option.any_eq_true _ _).1 hrun
  obtain ⟨hr, hscalar⟩ := Bool.and_eq_true_iff.1 hr
  obtain ⟨hmem, hnone⟩ := Bool.and_eq_true_iff.1 hr
  have hr : r = .ok none := by
    rcases r with e | (_ | v)
    · cases hnone
    · rfl
    · cases hnone
  refine ⟨m, f, s, hm, List.mem_of_mem_head? hhead, of_decide_eq_true hmem, ?_, ?_,
    toOption_eq_some (of_decide_eq_true hscalar)⟩
  · rw [Names.ofTokens_true]
    simp
  · rw [heffect, hr]

end Interpreter

end ProcessModel
