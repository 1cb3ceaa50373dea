import ProcessModel.Proofs.Loops
import ProcessModel.Proofs.RunPoints

/-! Whether the value of an expression is a floating point number can be told from the expression.

Arguments and locals are cast to the type of their name whenever they are set, variables to the type
that is declared for them, and methods return floating point numbers. So an expression of a compiled
method has floating point values or integers as values, but never both. -/

namespace ProcessModel

namespace Value

def isFloat : Value → Bool
  | .float _ => true
  | .int _ | .bool _ => false

theorem isFloat_cast (t : LocalType) (v : Value) : (v.cast t).isFloat = (t != .int) := by
  cases t <;> rfl

theorem isFloat_ofElement (e : Element) (raw : Float) : (ofElement e raw).isFloat = (e == .float) := by
  cases e <;> rfl

end Value

def UnaryOp.isDouble : UnaryOp → Bool → Bool
  | .not, _ => false
  | .neg, e | .pos, e => e

def BinaryOp.isDouble : BinaryOp → Bool → Bool → Bool
  | .add, l, r | .sub, l, r | .mul, l, r => l || r
  | .div, _, _ | .floorDiv, _, _ | .mod, _, _ | .pow, _, _ => true
  | .lt, _, _ | .le, _, _ | .gt, _, _ | .ge, _, _ | .eq, _, _ | .ne, _, _ => false
  | .and, _, _ | .or, _, _ => false

/-- Whether an expression in body `b` of a method of `d` is one for floating point numbers. -/
def Expr.isDouble (d : Definition) (b : Body) : Expr → Bool
  | .int _ | .bool _ => false
  | .float _ _ => true
  | .loc x => b.typeOf? x != some .int
  | .var path _ => (d.declared? path).all fun v => v.element == .float
  | .unary op e => op.isDouble (e.isDouble d b)
  | .binary op l r => op.isDouble (l.isDouble d b) (r.isDouble d b)
  | .call _ _ => true

namespace Value

theorem isFloat_unary (op : UnaryOp) (v : Value) : (unary op v).isFloat = op.isDouble v.isFloat := by
  cases op <;> cases v <;> rfl

theorem isFloat_arithmetic (onInts : Int64 → Int64 → Int64) (onFloats : Float → Float → Float)
    (l r : Value) : (arithmetic onInts onFloats l r).isFloat = (l.isFloat || r.isFloat) := by
  cases l <;> cases r <;> rfl

theorem isFloat_compare (onInts : Int64 → Int64 → Bool) (onFloats : Float → Float → Bool)
    (l r : Value) : (compare onInts onFloats l r).isFloat = false := by
  unfold compare
  split <;> rfl

theorem isFloat_binary (op : BinaryOp) (l r : Value) :
    (binary op l r).isFloat = op.isDouble l.isFloat r.isFloat := by
  cases op
  case add | sub | mul => exact isFloat_arithmetic _ _ l r
  case div | floorDiv | mod | pow | and | or => rfl
  all_goals simp only [binary, isFloat_compare, BinaryOp.isDouble]

end Value

theorem append_subset_append {α : Type} {as bs cs ds : List α} (h : as ⊆ cs) (h' : bs ⊆ ds) :
    as ++ bs ⊆ cs ++ ds :=
  List.append_subset.2 ⟨List.subset_append_of_subset_left _ h, List.subset_append_of_subset_right _ h'⟩

namespace Expr

mutual

theorem nodes_subset {x : Expr} : ∀ e : Expr, x ∈ e.nodes → x.nodes ⊆ e.nodes
  | .int _, h | .float _ _, h | .bool _, h | .loc _, h => by
    obtain rfl := List.mem_singleton.1 h
    exact List.Subset.refl _
  | .var path indices, h => by
    rcases List.mem_cons.1 h with rfl | h
    · exact List.Subset.refl _
    · exact List.subset_cons_of_subset _ (nodesAll_subset indices h)
  | .unary op e, h => by
    rcases List.mem_cons.1 h with rfl | h
    · exact List.Subset.refl _
    · exact List.subset_cons_of_subset _ (nodes_subset e h)
  | .binary op l r, h => by
    rcases List.mem_cons.1 h with rfl | h
    · exact List.Subset.refl _
    · refine List.subset_cons_of_subset _ ?_
      rcases List.mem_append.1 h with h | h
      · exact List.subset_append_of_subset_left _ (nodes_subset l h)
      · exact List.subset_append_of_subset_right _ (nodes_subset r h)
  | .call callee args, h => by
    rcases List.mem_cons.1 h with rfl | h
    · exact List.Subset.refl _
    · exact List.subset_cons_of_subset _ (nodesAll_subset args h)

theorem nodesAll_subset {x : Expr} : ∀ es : List Expr, x ∈ nodesAll es → x.nodes ⊆ nodesAll es
  | e :: es, h => by
    rcases List.mem_append.1 h with h | h
    · exact List.subset_append_of_subset_left _ (nodes_subset e h)
    · exact List.subset_append_of_subset_right _ (nodesAll_subset es h)

end

theorem mem_nodes_self (e : Expr) : e ∈ e.nodes := by
  cases e <;> simp [nodes]

theorem subset_nodesAll (es : List Expr) : es ⊆ nodesAll es := by
  intro e he
  rw [nodesAll_eq_flatMap]
  exact List.mem_flatMap.2 ⟨e, he, mem_nodes_self e⟩

theorem nodesAll_singleton (e : Expr) : nodesAll [e] = e.nodes := by
  simp [nodesAll]

mutual

theorem places_subset_nodes : ∀ e : Expr, e.places ⊆ e.nodes
  | .int _ | .float _ _ | .bool _ | .loc _ => List.nil_subset _
  | .var _ indices => List.subset_cons_of_subset _
    (List.append_subset.2 ⟨subset_nodesAll indices, placesAll_subset_nodesAll indices⟩)
  | .unary _ e => List.subset_cons_of_subset _ (places_subset_nodes e)
  | .binary _ l r => List.subset_cons_of_subset _
    (append_subset_append (places_subset_nodes l) (places_subset_nodes r))
  | .call _ args => List.subset_cons_of_subset _ (placesAll_subset_nodesAll args)

theorem placesAll_subset_nodesAll : ∀ es : List Expr, placesAll es ⊆ nodesAll es
  | [] => List.nil_subset _
  | e :: es => append_subset_append (places_subset_nodes e) (placesAll_subset_nodesAll es)

end

theorem append_placesAll_subset (es : List Expr) : es ++ placesAll es ⊆ nodesAll es :=
  List.append_subset.2 ⟨subset_nodesAll es, placesAll_subset_nodesAll es⟩

end Expr

namespace Stmt

mutual

theorem places_subset : ∀ s : Stmt, s.places ⊆ Expr.nodesAll (exprs s)
  | .assign line target value => by
    rw [places, exprs, Expr.nodesAll_append, Expr.nodesAll_singleton]
    exact append_subset_append (Expr.append_placesAll_subset _) (Expr.places_subset_nodes _)
  | .count line x start stop step body => by
    rw [places, exprs, show start :: stop :: exprsAll body = [start, stop] ++ exprsAll body from rfl,
      Expr.nodesAll_append]
    exact append_subset_append (Expr.append_placesAll_subset _) (placesAll_subset body)
  | .choose line clauses otherwise => by
    rw [places, exprs, Expr.nodesAll_append]
    exact append_subset_append (clausePlaces_subset clauses) (placesAll_subset otherwise)
  | .loop line test body =>
    append_subset_append (Expr.places_subset_nodes test) (placesAll_subset body)
  | .ret line (some e) | .call line e => by
    simpa [places, exprs, Expr.nodesAll] using Expr.places_subset_nodes e
  | .ret line none | .pass => List.nil_subset _

theorem placesAll_subset : ∀ ss : List Stmt, placesAll ss ⊆ Expr.nodesAll (exprsAll ss)
  | [] => List.nil_subset _
  | s :: ss => by
    rw [placesAll, exprsAll, Expr.nodesAll_append]
    exact append_subset_append (places_subset s) (placesAll_subset ss)

theorem clausePlaces_subset : ∀ cs : List Clause, clausePlaces cs ⊆ Expr.nodesAll (clauseExprs cs)
  | [] => List.nil_subset _
  | ⟨test, body⟩ :: cs => by
    rw [clausePlaces, clauseExprs, Expr.nodesAll_append]
    refine append_subset_append ?_ (clausePlaces_subset cs)
    exact append_subset_append (Expr.places_subset_nodes test) (placesAll_subset body)

end

theorem placesAll_subset_nodes (ss : List Stmt) : placesAll ss ⊆ nodes ss := by
  rw [nodes, ← Expr.nodesAll_eq_flatMap]
  exact placesAll_subset ss

end Stmt

namespace Interpreter

/-- A frame of body `b` in which every local has the type of its name, and the store is one of `d`. -/
structure Frame.Typed (d : Definition) (b : Body) (g : Frame) : Prop where
  locals : ∀ x v, g.locals.get? x = some v → v.isFloat = (b.typeOf? x != some .int)
  store : Store.Fits d g.store

section Typed

variable {d d' : Definition} {m : Model} {o : List String} {b : Body} {n : Nat}

theorem call_keeps_fits (d : Definition) (m : Model) (n : Nat) (owner : List String) (name : String)
    (args : List Value) : Keeps (Store.Fits d) AnyStop (call m n owner name args) fun _ => True :=
  call_keeps_of_write (fun _ path index value hs => Store.write_fits hs path index value) m n owner
    name args

theorem isFloat_of_call {owner : List String} {name : String} {args : List Value} {s t : Store}
    {v : Value} (h : call m n owner name args s = .ok (some v) t) : v.isFloat = true := by
  cases n with
  | zero => cases h
  | succ n =>
    simp only [call] at h
    split at h
    · cases h
    · split at h <;> cases h
      rfl

theorem onStore_typed {α : Type} {x : OnStore α} {Q : α → Prop}
    (hx : Keeps (Store.Fits d) AnyStop x Q) :
    Keeps (Frame.Typed d b) AnyStop (onStore x) Q := by
  intro g hg
  have h := hx g.store hg.store
  unfold onStore
  cases hr : x g.store with
  | ok a s =>
    rw [hr] at h
    exact ⟨⟨hg.locals, h.1⟩, h.2⟩
  | error e s =>
    rw [hr] at h
    exact ⟨⟨hg.locals, h.1⟩, h.2⟩

theorem lasting_typed (d : Definition) (m : Model) (o : List String) (b : Body) (n : Nat) :
    Lasting (Frame.Typed d b) (inTree m o b n) where
  node e := by
    match e with
    | .int _ | .float _ _ | .bool _ | .unary _ _ | .binary _ _ _ | .call (.builtin _) _ => trivial
    | .loc x => exact evalLocal_unchanged _ _ x
    | .var path indices => exact fun index _ => fetch_unchanged _ _ path index
    | .call (.method owner name) args =>
      exact fun values _ => onStore_typed (call_keeps_fits d m n (o ++ owner) name values)
  target t := by
    cases t with
    | loc x =>
      refine fun v => keeps_get fun g hg => ?_
      split
      · rename_i t _ ht _
        have ht : b.typeOf? x = some t := ht
        refine keeps_set ⟨fun y w hw => ?_, hg.store⟩
        rw [Keyed.get?_insert] at hw
        split_ifs at hw with hy
        · cases hw
          rw [Value.isFloat_cast, ← hy, ht]
          cases t <;> rfl
        · exact hg.locals y w hw
      · exact keeps_throw trivial
    | var path indices =>
      refine fun index v _ => keeps_get fun g hg => keeps_bind (ofExcept_keeps _) fun s hs => ?_
      exact keeps_set ⟨hg.locals, Store.write_fits hg.store _ _ _ s hs⟩

theorem read_element (hd : d.Built) {s : Store} (hs : Store.Fits d s) {p : VarPath} {v : Variable}
    (hp : d.declared? p = some v) (index : List Int64) :
    Yields (fun r => r.1 = v.element) (s.read p index) := by
  refine yields_bind (fun slot hslot => Store.slot_eq_ok hslot) fun slot hslot => ?_
  refine yields_bind (yields_true _) fun i _ => yields_pure ?_
  exact (hs.slot_fits hd hp hslot).element

theorem call_kind (d : Definition) (m : Model) (n : Nat) (owner : List String) (name : String)
    (values : List Value) : Keeps (Store.Fits d) AnyStop (call m n owner name values)
      fun r => (r.getD (.float 0.0)).isFloat = true := by
  intro s hs
  have hfits := call_keeps_fits d m n owner name values s hs
  cases hr : call m n owner name values s with
  | error e t =>
    rw [hr] at hfits
    exact hfits
  | ok r t =>
    rw [hr] at hfits
    cases r with
    | none => exact ⟨hfits.1, rfl⟩
    | some v => exact ⟨hfits.1, isFloat_of_call hr⟩

theorem eval_kind (hd : d.Built) (ho : d.descend? o = some d') : ∀ e : Expr,
    e.All (b.names d').Knows → Keeps (Frame.Typed d b) AnyStop (eval (inTree m o b n) e)
      fun v => v.isFloat = e.isDouble d' b
  | .int _, _ | .float _ _, _ | .bool _, _ => keeps_pure rfl
  | .loc x, _ => by
    refine keeps_get fun g hg => ?_
    cases hx : g.locals.get? x with
    | some v => exact keeps_pure (hg.locals x v hx)
    | none => exact keeps_throw trivial
  | .var path indices, h => by
    rw [Expr.all_var] at h
    obtain ⟨v, hv, -⟩ := h.1
    have hdeclared : d.declared? (path.below o) = some v :=
      (Definition.declared?_below ho path).trans hv
    refine keeps_bind ((lasting_typed d m o b n).evalIndices indices) fun index _ => ?_
    refine keeps_get fun g hg => keeps_bind (ofExcept_keeps _) fun r hr => keeps_pure ?_
    have hr := read_element hd hg.store hdeclared index r hr
    rw [Value.isFloat_ofElement, hr]
    simp [Expr.isDouble, show d'.declared? path = some v from hv]
  | .unary op e, h => by
    rw [Expr.all_unary] at h
    refine keeps_bind (eval_kind hd ho e h.2) fun v hv => keeps_pure ?_
    rw [Value.isFloat_unary, hv, Expr.isDouble]
  | .binary op l r, h => by
    rw [Expr.all_binary] at h
    have hl := eval_kind hd ho l h.2.1
    have hr := eval_kind hd ho r h.2.2
    cases op
    case and =>
      refine keeps_bind hl fun a _ => keeps_ite ?_ (keeps_pure rfl)
      exact keeps_bind hr fun _ _ => keeps_pure rfl
    case or =>
      refine keeps_bind hl fun a _ => keeps_ite (keeps_pure rfl) ?_
      exact keeps_bind hr fun _ _ => keeps_pure rfl
    all_goals
      refine keeps_bind hl fun a ha => keeps_bind hr fun c hc => keeps_pure ?_
      rw [Value.isFloat_binary, ha, hc, Expr.isDouble]
  | .call (.builtin f) args, _ =>
    keeps_bind ((lasting_typed d m o b n).evalAll args) fun _ _ => keeps_pure rfl
  | .call (.method owner name) args, _ => by
    refine keeps_bind ((lasting_typed d m o b n).evalAll args) fun values _ => ?_
    exact keeps_bind (onStore_typed (call_kind d m n _ name values)) fun r hr => keeps_pure hr

end Typed

section Run

variable {dialect : Dialect} {d : Definition} {m s : Model} {o : List String} {f : Method}

section

variable (hm : Model.compile dialect d = .ok m)
include hm

theorem typed_entry (hs : m.descend? o = some s) (hf : f ∈ s.methods) {store : Store}
    (hstore : Store.Fits d store) (args : List Value) :
    Frame.Typed d f.body ⟨initialLocals f.body args, store⟩ := by
  refine ⟨fun x v hv => ?_, hstore⟩
  obtain ⟨d', -, hread⟩ := Model.read_descend? (Model.compile_eq_ok hm).1 hs
  obtain ⟨entry, -, hcompiled⟩ := Model.read_methods hread hf
  have hmem := Keyed.mem_of_get?_ofList hv
  simp only [List.mem_append, List.mem_map] at hmem
  have hcast {l : Local} (hl : l ∈ f.body.args ++ f.body.locals) (w : Value) :
      (w.cast l.type).isFloat = (f.body.typeOf? l.name != some .int) := by
    rw [Value.isFloat_cast, Method.typeOf?_of_compile hcompiled hl]
    cases l.type <;> rfl
  rcases hmem with ⟨l, hl, heq⟩ | ⟨⟨l, w⟩, hl, heq⟩ <;> cases heq
  · exact hcast (List.mem_append_right _ hl) _
  · exact hcast (List.mem_append_left _ (List.of_mem_zip hl).1) w

/-- What holds at every point of a run: the body is one of a compiled method, the frame is typed, and
the part is one of the body. -/
structure Point.Sound (d : Definition) (m : Model) (p : Point) : Prop where
  method : ∃ s f, m.descend? p.owner = some s ∧ f ∈ s.methods ∧ f.body = p.body
  typed : p.frame.Typed d p.body
  integers : p.part.integers ⊆ Stmt.placesAll p.body.stmts

theorem sound_entry {n : Nat} {name : String} {args : List Value} {b : Body}
    (hb : target m o name args.length = .ok b) {store : Store} (hstore : Store.Fits d store) :
    (Point.entry n o b args store).Sound d m := by
  obtain ⟨s, f, hs, hf, rfl, -⟩ := target_eq_ok hb
  have hmem := (Model.method?_mem hf).1
  exact ⟨⟨s, f, hs, hmem, rfl⟩, typed_entry hm hs hmem hstore args, List.Subset.refl _⟩

theorem Starts.sound {p q : Point} (h : Starts m p q) (hp : p.Sound d m) : q.Sound d m := by
  cases h with
  | @inner n o b part part' g h hinner =>
    exact ⟨hp.method, (lasting_typed d m o b n).inner hinner hp.typed,
      List.Subset.trans hinner.integers_subset hp.integers⟩
  | @call n o b owner name es values b' g h hvalues htarget =>
    exact sound_entry hm htarget
      (keeps_value ((lasting_typed d m o b (n + 1)).evalAll es) hp.typed hvalues).1.store

theorem Point.Sound.reaches {p q : Point} (h : Relation.ReflTransGen (Starts m) p q)
    (hp : p.Sound d m) : q.Sound d m := by
  induction h with
  | refl => exact hp
  | tail _ hstep ih => exact hstep.sound hm ih

end

/-- Every expression of a body has values of one kind at every point of a run. -/
theorem Point.Sound.kind (hd : d.Built) (hm : Model.compile dialect d = .ok m) {p : Point}
    (hp : p.Sound d m) {e : Expr} (he : e ∈ Stmt.nodes p.body.stmts) (hs : m.descend? p.owner = some s)
    {v : Value} {g : Frame} (hv : eval (p.context m) e p.frame = .ok v g) :
    v.isFloat = e.isDouble s.definition p.body := by
  obtain ⟨s', f, hs', hf, hbody⟩ := hp.method
  obtain rfl : s' = s := Option.some.inj (hs'.symm.trans hs)
  obtain ⟨d', hd', hscope, -⟩ := Model.compile_method hm hs hf
  obtain ⟨ho, -⟩ := Model.compile_descend? hm hs
  obtain rfl : d' = s'.definition := Option.some.inj (hd'.symm.trans ho)
  rw [hbody] at hscope
  have hknown : e.All (p.body.names s'.definition).Knows := by
    intro x hx
    refine ((Stmt.allIn_iff_nodes _).1 hscope).1 x ?_
    rw [Stmt.nodes, ← Expr.nodesAll_eq_flatMap] at he ⊢
    exact Expr.nodesAll_subset _ he hx
  exact (keeps_value (eval_kind hd ho e hknown) hp.typed hv).2

/-- At every point of every run of a compiled method, whether the value of an expression of the body is
a floating point number can be told from the expression. A run that fails for want of an integer does
so at a point where an expression for floating point numbers stands at an index or at a bound. -/
theorem kinds_static (hd : d.Built) (hm : Model.compile dialect d = .ok m) {store : Store}
    (hstore : Store.Reached d store) {n : Nat} {name : String} {args : List Value} {b : Body}
    (hb : target m o name args.length = .ok b) :
    (∀ p, Relation.ReflTransGen (Starts m) (.entry n o b args store) p →
      ∃ s f, m.descend? p.owner = some s ∧ f ∈ s.methods ∧ f.body = p.body ∧
        ∀ e ∈ Stmt.nodes p.body.stmts, ∀ v g, eval (p.context m) e p.frame = .ok v g →
          v.isFloat = e.isDouble s.definition p.body) ∧
    ∀ method x t, call m (n + 1) o name args store =
        .error (.failed (.run method (.notAnInteger x))) t →
      ∃ p s e g, Relation.ReflTransGen (Starts m) (.entry n o b args store) p ∧
        m.descend? p.owner = some s ∧ p.body.name = method ∧ p.part = .expr e ∧
        e ∈ Stmt.placesAll p.body.stmts ∧ e.isDouble s.definition p.body = true ∧
        eval (p.context m) e p.frame = .ok (.float x) g := by
  have hentry : (Point.entry n o b args store).Sound d m := sound_entry hm hb (hstore.fits hd)
  constructor
  · intro p hp
    have hsound := hentry.reaches hm hp
    obtain ⟨s, f, hs, hf, hbody⟩ := hsound.method
    exact ⟨s, f, hs, hf, hbody, fun e he v g hv => hsound.kind hd hm he hs hv⟩
  · intro method x t hfails
    obtain ⟨k, b', hk, hb', hblames⟩ := call_blames m method x (n + 1) _ _ _ _ _ hfails
    obtain rfl : n = k := Nat.succ.inj hk
    obtain rfl : b' = b := Except.ok.inj (hb'.symm.trans hb)
    obtain ⟨q, e, es, g, hq, hname, hpart, heval⟩ := hblames
    have hsound := hentry.reaches hm hq
    have hplace : e ∈ Stmt.placesAll q.body.stmts := by
      refine hsound.integers ?_
      rw [hpart]
      exact List.mem_append_left _ List.mem_cons_self
    obtain ⟨s, f, hs, -, -⟩ := hsound.method
    have hkind := hsound.kind hd hm (Stmt.placesAll_subset_nodes _ hplace) hs heval
    obtain ⟨n', o', b', part, frame⟩ := q
    obtain rfl : part = .places (e :: es) := hpart
    exact ⟨⟨n', o', b', .expr e, frame⟩, s, e, g, hq.tail (.inner .place), hs, hname, rfl, hplace,
      hkind.symm, heval⟩

def sampler : Definition where
  name := "sampler"
  sources := [⟨"sampler.mdl", "def calc_q(model):\n    for i in range(1, 4):\n" ++
    "        model.sequences.fluxes.q = model.loss.get_loss(2 * i + 1)\n"⟩]
  groups := [{ kind := .fluxes, vars := [{ name := "q" }] }]
  methods := { run := ["calc_q"] }
  submodels := [("loss", {
    name := "loss"
    sources := [⟨"loss.mdl", "def get_loss(model, i):\n    return model.parameters.control.c[i / 2]\n"⟩]
    groups := [{ kind := .control, vars := [{ name := "c", ndim := 1 }] }]
    methods := { add := ["get_loss"] } })]

theorem sampler_built : sampler.Built := by
  refine .of_canonical (by decide) (by decide +kernel) (by decide) fun e he => ?_
  obtain rfl := List.mem_singleton.1 he
  exact .of_canonical (by decide) (by decide +kernel) (by decide) (by simp)

/-- Half of three is no integer, in the sub-model of the sampler. -/
theorem sampler_kinds :
    ∃ m b t, Model.compile {} sampler = .ok m ∧ target m [] "calc_q" 0 = .ok b ∧
      call m 6 [] "calc_q" [] (Store.after sampler [.setShape "loss.control.c" [9]]) =
        .error (.failed (.run "get_loss" (.notAnInteger 1.5))) t ∧
      (∀ p, Relation.ReflTransGen (Starts m)
          (.entry 5 [] b [] (Store.after sampler [.setShape "loss.control.c" [9]])) p →
        ∃ s f, m.descend? p.owner = some s ∧ f ∈ s.methods ∧ f.body = p.body ∧
          ∀ e ∈ Stmt.nodes p.body.stmts, ∀ v g, eval (p.context m) e p.frame = .ok v g →
            v.isFloat = e.isDouble s.definition p.body) ∧
      ∃ p s e g, Relation.ReflTransGen (Starts m)
          (.entry 5 [] b [] (Store.after sampler [.setShape "loss.control.c" [9]])) p ∧
        m.descend? p.owner = some s ∧ p.body.name = "get_loss" ∧ p.part = .expr e ∧
        e ∈ Stmt.placesAll p.body.stmts ∧ e.isDouble s.definition p.body = true ∧
        eval (p.context m) e p.frame = .ok (.float 1.5) g := by
  have hrun : ((Model.compile {} sampler).toOption.any fun m =>
      (target m [] "calc_q" 0).toOption.any fun _ => failure? (call m 6 [] "calc_q" []
        (Store.after sampler [.setShape "loss.control.c" [9]])) =
          some (.run "get_loss" (.notAnInteger 1.5))) := by
    decide +kernel
  obtain ⟨m, hm, h⟩ := exists_ok_of_any hrun
  obtain ⟨b, hb, hfails⟩ := exists_ok_of_any h
  obtain ⟨t, hfails⟩ := failure?_eq_some (of_decide_eq_true hfails)
  have hb : target m [] "calc_q" ([] : List Value).length = .ok b := hb
  have hreached : Store.Reached sampler (Store.after sampler [.setShape "loss.control.c" [9]]) :=
    .change .fresh (.setShape "loss.control.c" [9]) trivial
  obtain ⟨hkinds, hfault⟩ := kinds_static (n := 5) sampler_built hm hreached hb
  exact ⟨m, b, t, hm, hb, hfails, hkinds, hfault _ _ _ hfails⟩

end Run

end Interpreter

end ProcessModel
