import Mathlib.Data.List.Forall2
import ProcessModel.Interpreter
import ProcessModel.Proofs.Scope

/-! What compiling a definition establishes for the models of the tree.

Each model of a compiled tree is the reading of the definition at the same place, so its methods
were read against that definition; and no method of the tree has a faulty call. -/

namespace ProcessModel

variable {ε α β : Type} {xs : List α} {ys : List β}

theorem mapM_forall₂ {f : α → Except ε β} (h : xs.mapM f = .ok ys) :
    List.Forall₂ (fun x y => f x = .ok y) xs ys := by
  induction xs generalizing ys with
  | nil =>
    cases h
    exact .nil
  | cons x xs ih =>
    rw [List.mapM_cons] at h
    obtain ⟨y, hy, h⟩ := bind_eq_ok h
    obtain ⟨rest, hr, h⟩ := bind_eq_ok h
    cases h
    exact .cons hy (ih hr)

theorem exists_of_forall₂ {R : α → β → Prop} {x : α} (h : List.Forall₂ R xs ys) (hx : x ∈ xs) :
    ∃ y ∈ ys, R x y := by
  induction h with
  | nil => cases hx
  | @cons z y zs ys hy hrest ih =>
    rcases List.mem_cons.1 hx with rfl | hx
    · exact ⟨y, List.mem_cons_self, hy⟩
    · obtain ⟨y', hy', h⟩ := ih hx
      exact ⟨y', List.mem_cons_of_mem _ hy', h⟩

theorem exists_of_mapM {f : α → Except ε β} {x : α} (h : xs.mapM f = .ok ys) (hx : x ∈ xs) :
    ∃ y ∈ ys, f x = .ok y :=
  exists_of_forall₂ (mapM_forall₂ h) hx

theorem mem_of_mapM {f : α → Except ε β} {y : β} (h : xs.mapM f = .ok ys) (hy : y ∈ ys) :
    ∃ x ∈ xs, f x = .ok y :=
  exists_of_forall₂ (mapM_forall₂ h).flip hy

/-- A search that goes down a tree name by name can stop in between. -/
theorem descend_append {τ : Type} {child : τ → String → Option τ}
    {descend : τ → List String → Option τ} (hnil : ∀ t, descend t [] = some t)
    (hcons : ∀ t name rest, descend t (name :: rest) = (child t name).bind (descend · rest))
    (t : τ) (a b : List String) : descend t (a ++ b) = (descend t a).bind (descend · b) := by
  induction a generalizing t with
  | nil => rw [List.nil_append, hnil, Option.bind_some]
  | cons name a ih =>
    rw [List.cons_append, hcons, hcons, Option.bind_assoc]
    exact Option.bind_congr fun s _ => ih s

theorem Definition.descend?_append (d : Definition) (a b : List String) :
    d.descend? (a ++ b) = (d.descend? a).bind fun s => s.descend? b :=
  descend_append (fun _ => rfl) (fun _ _ _ => rfl) d a b

namespace Model

variable {dialect : Dialect} {d : Definition} {m s : Model}

theorem descend?_append (m : Model) (a b : List String) :
    m.descend? (a ++ b) = (m.descend? a).bind fun s => s.descend? b :=
  descend_append (fun _ => rfl) (fun _ _ _ => rfl) m a b

variable {name : String}

theorem submodel?_mem (h : m.submodel? name = some s) : (name, s) ∈ m.submodels :=
  Keyed.mem_of_get? h

theorem read_eq_ok (h : read dialect d = .ok m) :
    m.definition = d ∧ readAll dialect d.submodels = .ok m.submodels ∧
      d.methods.entries.mapM (fun e => Method.compile d dialect e.1 e.2) = .ok m.methods := by
  obtain ⟨name, manifest, sources, groups, methods, references, aliases, submodels⟩ := d
  rw [read] at h
  obtain ⟨subs, hs, h⟩ := bind_eq_ok h
  obtain ⟨compiled, hc, h⟩ := bind_eq_ok h
  cases h
  exact ⟨rfl, hs, hc⟩

theorem readAll_forall₂ {ds : List (String × Definition)} {ms : List (String × Model)}
    (h : readAll dialect ds = .ok ms) :
    List.Forall₂ (fun e f => e.1 = f.1 ∧ read dialect e.2 = .ok f.2) ds ms := by
  induction ds generalizing ms with
  | nil =>
    rw [readAll] at h
    cases h
    exact .nil
  | cons e ds ih =>
    obtain ⟨name, d⟩ := e
    rw [readAll] at h
    obtain ⟨m, hm, h⟩ := bind_eq_ok h
    obtain ⟨rest, hr, h⟩ := bind_eq_ok h
    cases h
    exact .cons ⟨rfl, hm⟩ (ih hr)

theorem read_submodel? (h : read dialect d = .ok m) (hs : m.submodel? name = some s) :
    ∃ d', d.submodel? name = some d' ∧ read dialect d' = .ok s := by
  obtain ⟨-, hsub, -⟩ := read_eq_ok h
  obtain ⟨f, hf, rfl⟩ := Option.map_eq_some_iff.1 hs
  unfold Definition.submodel?
  generalize d.submodels = ds, m.submodels = ms at hsub hf
  have hall := readAll_forall₂ hsub
  clear hsub
  induction hall with
  | nil => cases hf
  | @cons e f' ds ms he hrest ih =>
    by_cases hn : f'.1 = name
    · have heq : f' = f := by simpa [List.find?_cons, hn] using hf
      subst heq
      exact ⟨e.2, by simp [he.1, hn], he.2⟩
    · have hne : e.1 ≠ name := fun h => hn (he.1 ▸ h)
      simpa [List.find?_cons, hne] using ih (by simpa [List.find?_cons, hn] using hf)

variable {o : List String}

theorem read_descend? (h : read dialect d = .ok m) (hs : m.descend? o = some s) :
    ∃ d', d.descend? o = some d' ∧ read dialect d' = .ok s := by
  induction o generalizing d m with
  | nil =>
    cases hs
    exact ⟨d, rfl, h⟩
  | cons name rest ih =>
    obtain ⟨sub, hsub, hs⟩ := Option.bind_eq_some_iff.1 hs
    obtain ⟨d', hd, hread⟩ := read_submodel? h hsub
    obtain ⟨d'', hd', hs⟩ := ih hread hs
    exact ⟨d'', by rw [Definition.descend?, hd, Option.bind_some, hd'], hs⟩

theorem compile_eq_ok (h : compile dialect d = .ok m) :
    read dialect d = .ok m ∧ m.treeFault? = none := by
  obtain ⟨m', hr, h⟩ := bind_eq_ok h
  split at h
  · cases h
    exact ⟨hr, by assumption⟩
  · cases h

theorem compile_of_read (h : read dialect d = .ok m) (hfault : m.treeFault? = none) :
    compile dialect d = .ok m := by
  unfold compile
  rw [h, ok_bind, hfault]
  rfl

theorem treeFault?_eq (m : Model) :
    m.treeFault? = (m.methods.findSome? fun f =>
      (m.methodFault? f).map fun c => (m.definition.name, f, c)).or (treeFaultAll? m.submodels) := by
  cases m
  rw [treeFault?]

theorem treeFaultAll?_eq_none {ms : List (String × Model)} (h : treeFaultAll? ms = none)
    {e : String × Model} (he : e ∈ ms) : e.2.treeFault? = none := by
  induction ms with
  | nil => cases he
  | cons f ms ih =>
    obtain ⟨name, m⟩ := f
    rw [treeFaultAll?, Option.or_eq_none_iff] at h
    rcases List.mem_cons.1 he with rfl | hm
    · exact h.1
    · exact ih h.2 hm

theorem treeFault?_descend? (h : m.treeFault? = none) (hs : m.descend? o = some s) :
    s.treeFault? = none := by
  induction o generalizing m with
  | nil =>
    cases hs
    exact h
  | cons name rest ih =>
    obtain ⟨sub, hsub, hs⟩ := Option.bind_eq_some_iff.1 hs
    rw [treeFault?_eq, Option.or_eq_none_iff] at h
    exact ih (treeFaultAll?_eq_none h.2 (submodel?_mem hsub)) hs

theorem compile_descend? (h : compile dialect d = .ok m) (hs : m.descend? o = some s) :
    d.descend? o = some s.definition ∧ compile dialect s.definition = .ok s := by
  obtain ⟨hread, hfault⟩ := compile_eq_ok h
  obtain ⟨d', hd, hread'⟩ := read_descend? hread hs
  obtain ⟨rfl, -, -⟩ := read_eq_ok hread'
  exact ⟨hd, compile_of_read hread' (treeFault?_descend? hfault hs)⟩

variable {f : Method}

theorem methodFault?_eq_none (h : m.treeFault? = none) (hf : f ∈ m.methods) :
    m.methodFault? f = none := by
  rw [treeFault?_eq, Option.or_eq_none_iff] at h
  simpa using List.findSome?_eq_none_iff.1 h.1 f hf

theorem callFault?_eq_none {owner : List String} {args : List Expr}
    (h : m.callFault? (.call (.method owner name) args) = none) :
    ∃ s f, m.descend? owner = some s ∧ s.method? name = some f ∧
      f.body.args.length = args.length := by
  simp only [callFault?] at h
  split at h
  · cases h
  · rename_i f hf
    obtain ⟨s, hs, hf⟩ := Option.bind_eq_some_iff.1 hf
    split_ifs at h with hl
    exact ⟨s, f, hs, hf, hl⟩

theorem callFault?_of_mem (h : m.methodFault? f = none) {e : Expr}
    (he : e ∈ Stmt.nodes f.body.stmts) (hcall : e.isMethodCall = true) : m.callFault? e = none := by
  rw [methodFault?, Option.or_eq_none_iff] at h
  obtain ⟨o, ho, rfl⟩ := Body.exists_methodCall he hcall
  exact List.findSome?_eq_none_iff.1 h.1 o ho

theorem method?_mem (h : m.method? name = some f) : f ∈ m.methods ∧ f.name = name :=
  ⟨List.mem_of_find?_eq_some h, by simpa using List.find?_some h⟩

end Model

namespace Interpreter

variable {m s : Model} {o : List String}

/-- A call that was checked in a model of the tree finds its body from the root. -/
theorem target_of_callFault? (hs : m.descend? o = some s) {owner : List String} {name : String}
    {args : List Expr} (h : s.callFault? (.call (.method owner name) args) = none) :
    ∃ t g, s.descend? owner = some t ∧ t.method? name = some g ∧
      target m (o ++ owner) name args.length = .ok g.body := by
  obtain ⟨t, g, ht, hg, hl⟩ := Model.callFault?_eq_none h
  have hroot : m.descend? (o ++ owner) = some t := by
    rw [Model.descend?_append, hs, Option.bind_some, ht]
  exact ⟨t, g, ht, hg, by simp [target, hroot, hg, hl]⟩

theorem target_eq_ok {owner : List String} {name : String} {count : Nat} {g : Body}
    (h : target m owner name count = .ok g) :
    ∃ s f, m.descend? owner = some s ∧ s.method? name = some f ∧ f.body = g ∧
      g.args.length = count := by
  unfold target at h
  split at h
  · cases h
  · rename_i s hs
    split at h
    · cases h
    · rename_i f hf
      split_ifs at h with hl
      cases h
      exact ⟨s, f, hs, hf, rfl, hl⟩

end Interpreter

namespace Script

theorem inMethod_yields {α : Type} {P : α → Prop} (model method : String)
    {r : Except Unsupported α} (h : Yields P r) : Yields P (inMethod model method r) := by
  cases r with
  | error u => exact yields_error _
  | ok a => exact yields_ok (h a rfl)

end Script

theorem MethodSource.ofBlock_yields (d : Definition) (fastMarker name : String)
    (kind : MethodKind) (origin : String) (line : Nat) (text : String) :
    Yields (fun s => s.name = name ∧ s.kind = kind)
      (ofBlock d fastMarker name kind origin line text) := by
  refine yields_bind (yields_true _) fun block _ => ?_
  split
  · exact yields_error _
  · refine yields_bind (yields_true _) fun params _ => yields_ite (yields_error _) ?_
    dsimp only
    split
    · exact yields_error _
    · exact yields_ok ⟨rfl, rfl⟩

theorem MethodSource.find_yields (d : Definition) (fastMarker name : String) (kind : MethodKind) :
    Yields (fun s => s.name = name ∧ s.kind = kind) (find d fastMarker name kind) := by
  unfold find
  split
  · exact Script.inMethod_yields _ _ (ofBlock_yields _ _ _ _ _ _ _)
  · exact yields_error _

theorem Script.inMethod_eq_ok {model method : String} {r : Except Unsupported α} {a : α}
    (h : inMethod model method r = .ok a) : r = .ok a := by
  cases r with
  | error u => cases h
  | ok b =>
    cases h
    rfl

theorem refuse_eq_ok {c : Prop} [Decidable c] {e : ε} {f : PUnit → Except ε β} {b : β}
    (h : (if c then throw e >>= f else f ⟨⟩) = .ok b) : f ⟨⟩ = .ok b := by
  split_ifs at h
  · cases h
  · exact h

variable {f : Method} {d : Definition} {dialect : Dialect}

theorem Method.compile_eq_ok {kind : MethodKind} {name : String}
    (h : Method.compile d dialect kind name = .ok f) :
    ∃ resolved normal, MethodSource.find d dialect.fastMarker name kind = .ok f.source ∧
      ResolvedBody.ofMethod d dialect f.source = .ok resolved ∧
      NormalBody.ofLines dialect name f.source.args f.source.locals resolved.lines = .ok normal ∧
      Body.ofNormal d name kind f.source.doc normal = .ok f.body := by
  obtain ⟨source, hsource, h⟩ := bind_eq_ok h
  obtain ⟨resolved, hresolved, h⟩ := bind_eq_ok (refuse_eq_ok h)
  obtain ⟨normal, hnormal, h⟩ := bind_eq_ok h
  obtain ⟨body, hbody, h⟩ := bind_eq_ok h
  cases refuse_eq_ok h
  exact ⟨resolved, normal, mapError_eq_ok hsource, Script.inMethod_eq_ok (mapError_eq_ok hresolved),
    Script.inMethod_eq_ok (mapError_eq_ok hnormal), Script.inMethod_eq_ok (mapError_eq_ok hbody)⟩

theorem Method.locals_of_compile {kind : MethodKind} {name : String}
    (h : Method.compile d dialect kind name = .ok f) :
    f.body.args ++ f.body.locals =
      (f.source.args ++ f.source.locals).map fun x => ⟨x, .ofName dialect.accumulator x⟩ := by
  obtain ⟨resolved, normal, -, -, hnormal, hbody⟩ := Method.compile_eq_ok h
  obtain ⟨lines, -, hnormal⟩ := bind_eq_ok hnormal
  obtain ⟨stmts, -, hbody⟩ := bind_eq_ok hbody
  obtain ⟨returnsValue, -, hbody⟩ := bind_eq_ok hbody
  cases hnormal
  rw [← Except.ok.inj hbody, List.map_append]

/-- Locals of one name have one type, so that the first of them is as good as any. -/
theorem Method.typeOf?_of_compile {kind : MethodKind} {name : String}
    (h : Method.compile d dialect kind name = .ok f) {l : Local}
    (hl : l ∈ f.body.args ++ f.body.locals) : f.body.typeOf? l.name = some l.type := by
  have htype : ∀ y ∈ f.body.args ++ f.body.locals, y.type = .ofName dialect.accumulator y.name := by
    intro y hy
    rw [locals_of_compile h] at hy
    obtain ⟨x, -, rfl⟩ := List.mem_map.1 hy
    rfl
  obtain ⟨y, hy⟩ : ∃ y, (f.body.args ++ f.body.locals).find? (fun x => x.name == l.name) = some y :=
    Option.isSome_iff_exists.1 (List.find?_isSome.2 ⟨l, hl, by simp⟩)
  have hname : y.name = l.name := by simpa using List.find?_some hy
  rw [Body.typeOf?, hy, Option.map_some, htype y (List.mem_of_find?_eq_some hy), hname, htype l hl]

theorem Method.compile_yields (d : Definition) (dialect : Dialect) (kind : MethodKind)
    (name : String) :
    Yields (fun f => f.name = name ∧ f.kind = kind ∧ f.body.name = name ∧
      (f.body.names d).ScopesStmts f.body.stmts) (Method.compile d dialect kind name) := by
  refine yields_bind (yields_mapError _ (MethodSource.find_yields _ _ _ _)) fun source hs => ?_
  refine yields_refuse ?_
  refine yields_bind (yields_true _) fun resolved _ => ?_
  refine yields_bind (yields_true _) fun normal _ => ?_
  have hbody := Script.inMethod_yields d.name name
    (Body.ofNormal_yields d name kind source.doc normal)
  refine yields_bind (yields_mapError _ hbody) fun body hb => yields_refuse ?_
  exact yields_pure ⟨hs.1, hs.2, hb.1, hb.2⟩

variable {o : List String}

theorem Definition.declared?_below {d' : Definition} (h : d.descend? o = some d') (p : VarPath) :
    d.declared? (p.below o) = d'.declared? p := by
  unfold declared? VarPath.below
  rw [descend?_append, h, Option.bind_some]

theorem Definition.isSome_declared?_below {d' : Definition} (h : d.descend? o = some d')
    {p : VarPath} (hp : (d'.declared? p).isSome) : (d.declared? (p.below o)).isSome := by
  rwa [declared?_below h]

variable {m : Model}

theorem Model.read_methods (h : read dialect d = .ok m) (hf : f ∈ m.methods) :
    ∃ e ∈ d.methods.entries, Method.compile d dialect e.1 e.2 = .ok f := by
  obtain ⟨-, -, hm⟩ := read_eq_ok h
  exact mem_of_mapM hm hf

/-- What compiling a tree establishes for a method of any of its models: the names in its body mean
something for the definition at that place, and its calls have no fault. -/
theorem Model.compile_method {s : Model} (h : compile dialect d = .ok m)
    (hs : m.descend? o = some s) (hf : f ∈ s.methods) :
    ∃ d', d.descend? o = some d' ∧ (f.body.names d').ScopesStmts f.body.stmts ∧
      s.methodFault? f = none := by
  obtain ⟨hread, hfault⟩ := compile_eq_ok h
  obtain ⟨d', hd, hread'⟩ := read_descend? hread hs
  obtain ⟨entry, -, hcompiled⟩ := read_methods hread' hf
  obtain ⟨-, -, -, hscope⟩ := Method.compile_yields d' dialect entry.1 entry.2 f hcompiled
  exact ⟨d', hd, hscope, methodFault?_eq_none (treeFault?_descend? hfault hs) hf⟩

theorem Model.compile_bodyName {s : Model} (h : compile dialect d = .ok m)
    (hs : m.descend? o = some s) (hf : f ∈ s.methods) : f.body.name = f.name := by
  obtain ⟨d', -, hread⟩ := read_descend? (compile_eq_ok h).1 hs
  obtain ⟨entry, -, hcompiled⟩ := read_methods hread hf
  obtain ⟨hname, -, hbody, -⟩ := Method.compile_yields d' dialect entry.1 entry.2 f hcompiled
  rw [hbody, hname]

end ProcessModel
