import ProcessModel.Proofs.Bodies
import ProcessModel.Proofs.Compiled

/-! Calls of compiled methods fail on their data only.

A body that was compiled mentions locals that its frame has, variables that the store has, and
methods that the tree has; none of these goes away during a run. -/

namespace ProcessModel

namespace Interpreter

/-- Failures that come from the values a method works on. -/
inductive OfData : Stop Error → Prop
  | outOfBounds (key : String) (index : List Int) (shape : List Nat) :
    OfData (.failed (.outOfBounds key index shape))
  | notAnInteger (method : String) (value : Float) :
    OfData (.failed (.run method (.notAnInteger value)))
  | exhausted : OfData .exhausted

theorem tolerates_ofData (c : Context) : Tolerates OfData c := ⟨.notAnInteger _, .exhausted⟩

/-- A frame that has all locals of its body and all slots of a fresh store. -/
structure Frame.Complete (fresh : Store) (b : Body) (f : Frame) : Prop where
  locals : ∀ x, (b.typeOf? x).isSome → (f.locals.get? x).isSome
  store : fresh.Covers f.store

variable {fresh : Store} {b : Body} {c : Context}

theorem onStore_keeps {α : Type} {E : Stop Error → Prop} {Q : α → Prop} {x : OnStore α}
    (h : Keeps fresh.Covers E x Q) : Keeps (Frame.Complete fresh b) E (onStore x) Q := by
  intro f hf
  have hx := h f.store hf.store
  unfold onStore
  cases hr : x f.store with
  | ok a s =>
    rw [hr] at hx
    exact ⟨⟨hf.locals, hx.1⟩, hx.2⟩
  | error e s =>
    rw [hr] at hx
    exact ⟨⟨hf.locals, hx.1⟩, hx.2⟩

variable {x : String}

theorem evalLocal_keeps (h : (c.body.typeOf? x).isSome) :
    Keeps (Frame.Complete fresh c.body) OfData (eval c (.loc x)) fun _ => True := by
  refine keeps_get fun f hf => ?_
  obtain ⟨v, hv⟩ := Option.isSome_iff_exists.1 (hf.locals x h)
  rw [hv]
  exact keeps_pure trivial

theorem fetch_keeps {path : VarPath} (h : (fresh.get? (path.below c.owner).key).isSome)
    (index : List Int64) :
    Keeps (Frame.Complete fresh b) OfData (fetch c path index) fun _ => True := by
  refine keeps_get fun f hf => ?_
  rcases Store.read_cases (hf.store _ h) index with ⟨r, hr⟩ | ⟨shape, hr⟩
  · rw [hr]
    exact keeps_pure trivial
  · rw [hr]
    exact keeps_throw (.outOfBounds _ _ _)

theorem assign_keeps (h : (c.body.typeOf? x).isSome) (v : Value) :
    Keeps (Frame.Complete fresh c.body) OfData (assign c x v) fun _ => True := by
  refine keeps_get fun f hf => ?_
  obtain ⟨t, ht⟩ := Option.isSome_iff_exists.1 h
  obtain ⟨old, ho⟩ := Option.isSome_iff_exists.1 (hf.locals x h)
  rw [ht, ho]
  refine keeps_set ⟨fun y hy => ?_, hf.store⟩
  rw [Keyed.get?_insert]
  split_ifs
  · rfl
  · exact hf.locals y hy

theorem writeVar_keeps {path : VarPath} (h : (fresh.get? path.key).isSome) (index : List Int64)
    (v : Value) :
    Keeps (Frame.Complete fresh b) OfData (writeVar path index v) fun _ => True := by
  refine keeps_get fun f hf => ?_
  rcases Store.write_cases (hf.store _ h) index v.toFloat with ⟨s, hs⟩ | ⟨shape, hs⟩
  · rw [hs]
    exact keeps_set ⟨hf.locals, Store.write_covers hf.store path index _ s hs⟩
  · rw [hs]
    exact keeps_throw (.outOfBounds _ _ _)

theorem initialLocals_complete {args : List Value} (hargs : args.length = b.args.length)
    (h : (b.typeOf? x).isSome) : ((initialLocals b args).get? x).isSome := by
  rw [Body.typeOf?, Option.isSome_map, List.find?_isSome] at h
  obtain ⟨l, hl, hx⟩ := h
  have hname : l.name = x := by simpa using hx
  rw [initialLocals, Keyed.isSome_get?_ofList]
  rcases List.mem_append.1 hl with ha | hloc
  · obtain ⟨i, hi, rfl⟩ := List.getElem_of_mem ha
    have hz : (b.args[i], args[i]) ∈ b.args.zip args := by
      rw [← List.getElem_zip (h := by simp; omega)]
      exact List.getElem_mem _
    exact ⟨_, List.mem_append_right _ (List.mem_map.2 ⟨_, hz, rfl⟩), hname⟩
  · exact ⟨_, List.mem_append_left _ (List.mem_map.2 ⟨l, hloc, rfl⟩), hname⟩

variable {dialect : Dialect} {d : Definition} {m s : Model} {o : List String} {f : Method}

section Body

variable {c : Context} {d' : Definition}

theorem isSome_get?_below (hd : d.descend? o = some d') {p : VarPath} {v : Variable}
    (hv : d'.declared? p = some v) : ((Store.ofDefinition d).get? (p.below o).key).isSome := by
  apply Store.isSome_get?_ofDefinition
  rw [Definition.declared?_below hd, hv]
  rfl

theorem nodeKeeps_of_knows (hd : d.descend? c.owner = some d') {x : Expr}
    (hx : (c.body.names d').Knows x)
    (hcall : ∀ owner name args, x = .call (.method owner name) args →
      ∀ values : List Value, values.length = args.length →
        Keeps (Store.ofDefinition d).Covers OfData (c.call (c.owner ++ owner) name values)
          fun _ => True) :
    NodeKeeps (Frame.Complete (Store.ofDefinition d) c.body) OfData c x := by
  match x, hx with
  | .int _, _ => trivial
  | .float _ _, _ => trivial
  | .bool _, _ => trivial
  | .loc y, hy => exact evalLocal_keeps (Body.isSome_typeOf? (d := d') (b := c.body) hy)
  | .var p _, ⟨v, hv, _⟩ => exact fun index _ => fetch_keeps (isSome_get?_below hd hv) index
  | .unary _ _, _ => trivial
  | .binary _ _ _, _ => trivial
  | .call (.builtin _) _, _ => trivial
  | .call (.method owner name) args, _ =>
    exact fun values hlen => onStore_keeps (hcall owner name args rfl values hlen)

theorem targetKeeps_of_binds (hd : d.descend? c.owner = some d') {t : Target}
    (ht : (c.body.names d').Binds t) :
    TargetKeeps (Frame.Complete (Store.ofDefinition d) c.body) OfData c t := by
  match t, ht with
  | .loc y, hy => exact fun v => assign_keeps (Body.isSome_typeOf? (d := d') (b := c.body) hy) v
  | .var p _, ⟨v, hv, _⟩ =>
    exact fun index value _ => writeVar_keeps (isSome_get?_below hd hv) index value

end Body

theorem compiled_body_keeps (hm : Model.compile dialect d = .ok m) (hs : m.descend? o = some s)
    (hf : f ∈ s.methods) {run : List String → String → List Value → OnStore (Option Value)}
    (bound : Nat)
    (hrun : ∀ owner name args g, target m owner name args.length = .ok g →
      Keeps (Store.ofDefinition d).Covers OfData (run owner name args) fun _ => True) :
    Keeps (Frame.Complete (Store.ofDefinition d) f.body) OfData
      (execAll ⟨f.body, o, run, bound⟩ f.body.stmts) fun _ => True := by
  obtain ⟨d', hd, hscope, hfault⟩ := Model.compile_method hm hs hf
  obtain ⟨hknown, hbinds⟩ := (Stmt.allIn_iff_nodes _).1 hscope
  refine execAll_keeps (tolerates_ofData _) _ ((Stmt.allIn_iff_nodes _).2 ⟨fun x hx => ?_, ?_⟩)
  · refine nodeKeeps_of_knows (c := ⟨f.body, o, run, bound⟩) hd (hknown x hx) ?_
    rintro owner name args rfl values hlen
    have hcall := Model.callFault?_of_mem hfault hx rfl
    obtain ⟨-, g, -, -, hg⟩ := target_of_callFault? hs hcall
    rw [← hlen] at hg
    exact hrun _ _ _ g.body hg
  · exact fun t ht => targetKeeps_of_binds (c := ⟨f.body, o, run, bound⟩) hd (hbinds t ht)

/-- Calls of a compiled tree, at any depth, keep the slots and fail on data only. -/
theorem call_keeps (hm : Model.compile dialect d = .ok m) (n : Nat) (owner : List String)
    (name : String) (args : List Value) (g : Body)
    (hg : target m owner name args.length = .ok g) :
    Keeps (Store.ofDefinition d).Covers OfData (call m n owner name args) fun _ => True := by
  induction n generalizing owner name args g with
  | zero => exact keeps_throw .exhausted
  | succ n ih =>
    intro store hstore
    obtain ⟨s, f, hs, hf, rfl, hl⟩ := target_eq_ok hg
    have hbody := compiled_body_keeps hm hs (Model.method?_mem hf).1 n ih
      ⟨initialLocals f.body args, store⟩ ⟨fun x hx => initialLocals_complete hl.symm hx, hstore⟩
    simp only [call, hg]
    split at hbody <;> rename_i hr
    · rename_i flow frame
      rw [hr]
      rcases flow with _ | (_ | v) <;> exact ⟨hbody.1.store, trivial⟩
    · rw [hr]
      exact ⟨hbody.1.store, hbody.2⟩

/-- Whatever has been done to a store of a compiled definition, a call of any method of the tree
with the right number of arguments that fails has met an index outside of its array, or a number
that is no integer in the place of one. -/
theorem call_fails_on_data (hm : Model.compile dialect d = .ok m) (changes : List StoreChange)
    (hs : m.descend? o = some s) {name : String} (hf : s.method? name = some f)
    (args : List Value) (hargs : args.length = f.body.args.length) (bound : Nat) {e : Error}
    {left : Store} (h : call m bound o name args (Store.after d changes) = .error (.failed e) left) :
    (∃ key index shape, e = .outOfBounds key index shape) ∨
      ∃ method value, e = .run method (.notAnInteger value) := by
  have htarget : target m o name args.length = .ok f.body := by
    simp [target, hs, hf, hargs]
  have hfail := (call_keeps hm bound o name args f.body htarget).failure
    (Store.after_covers d changes) h
  cases hfail with
  | outOfBounds key index shape => exact .inl ⟨key, index, shape, rfl⟩
  | notAnInteger method value => exact .inr ⟨method, value, rfl⟩

def failure? {σ α : Type} : EStateM.Result (Stop Error) σ α → Option Error
  | .error (.failed e) _ => some e
  | _ => none

theorem failure?_eq_some {σ α : Type} {r : EStateM.Result (Stop Error) σ α} {e : Error}
    (h : failure? r = some e) : ∃ s, r = .error (.failed e) s := by
  unfold failure? at h
  split at h
  · cases h
    exact ⟨_, rfl⟩
  · cases h

def reservoir : Definition where
  name := "reservoir"
  sources := [⟨"reservoir.mdl", "def calc_q(model):\n    for i in range(3):\n" ++
    "        model.sequences.fluxes.q = model.loss.get_loss(i)\n"⟩]
  groups := [{ kind := .fluxes, vars := [{ name := "q" }] }]
  methods := { run := ["calc_q"] }
  submodels := [("loss", {
    name := "loss"
    sources := [⟨"loss.mdl", "def get_loss(model, i):\n    return model.parameters.control.c[i]\n"⟩]
    groups := [{ kind := .control, vars := [{ name := "c", ndim := 1 }] }]
    methods := { add := ["get_loss"] } })]

/-- With two elements the reservoir fails in the third turn of its loop, inside of the sub-model. -/
theorem reservoir_fails_on_data :
    ∃ m f e left, Model.compile {} reservoir = .ok m ∧ m.method? "calc_q" = some f ∧
      f.body.args.length = 0 ∧
      call m 5 [] "calc_q" [] (Store.after reservoir [.setShape "loss.control.c" [2]]) =
        .error (.failed e) left ∧
      ((∃ key index shape, e = .outOfBounds key index shape) ∨
        ∃ method value, e = .run method (.notAnInteger value)) := by
  have hrun : ((Model.compile {} reservoir).toOption.any fun m => (m.method? "calc_q").any fun f =>
      (failure? (call m 5 [] "calc_q" []
        (Store.after reservoir [.setShape "loss.control.c" [2]]))).any fun _ =>
          f.body.args.length = 0) := by
    decide +kernel
  obtain ⟨m, hcompile, hrun⟩ := exists_ok_of_any hrun
  obtain ⟨f, hf, hrun⟩ := (Option.any_eq_true _ _).1 hrun
  obtain ⟨e, he, hargs⟩ := (Option.any_eq_true _ _).1 hrun
  obtain ⟨left, hcall⟩ := failure?_eq_some he
  have hlen := of_decide_eq_true hargs
  exact ⟨m, f, e, left, hcompile, hf, hlen, hcall,
    call_fails_on_data hcompile _ (o := []) rfl hf [] hlen.symm 5 hcall⟩

end Interpreter

end ProcessModel
