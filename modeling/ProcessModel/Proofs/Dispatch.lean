import Mathlib.Data.List.Nodup
import ProcessModel.Code.Unit
import ProcessModel.Proofs.Compiled

/-! Which function a call reaches in a generated unit.

A running body finds the method it calls by the place of its model in the tree. The code of the call
has only the name of that model, and a unit lists one model of every name. -/

namespace ProcessModel

namespace Model

variable {m s t : Model}

theorem postorder_eq (m : Model) : m.postorder = postorderAll m.submodels ++ [m] := by
  cases m
  rw [postorder]

theorem mem_postorderAll {ms : List (String × Model)} {name : String} (hs : (name, s) ∈ ms)
    (ht : t ∈ s.postorder) : t ∈ postorderAll ms := by
  induction ms with
  | nil => cases hs
  | cons e ms ih =>
    obtain ⟨first, m⟩ := e
    rw [postorderAll]
    rcases List.mem_cons.1 hs with heq | hs
    · cases heq
      exact List.mem_append_left _ ht
    · exact List.mem_append_right _ (ih hs)

theorem mem_postorder_of_descend? {o : List String} (h : m.descend? o = some s) :
    s ∈ m.postorder := by
  induction o generalizing m with
  | nil =>
    cases h
    rw [postorder_eq]
    exact List.mem_append_right _ (List.mem_singleton_self _)
  | cons name rest ih =>
    obtain ⟨sub, hsub, h⟩ := Option.bind_eq_some_iff.1 h
    rw [postorder_eq]
    exact List.mem_append_left _ (mem_postorderAll (submodel?_mem hsub) (ih h))

variable {seen : List String} {ms : List Model} {r : Model}

theorem mem_of_mem_distinctNames (h : r ∈ distinctNames seen ms) : r ∈ ms ∧ r.name ∉ seen := by
  induction ms generalizing seen with
  | nil => cases h
  | cons m ms ih =>
    rw [distinctNames] at h
    split_ifs at h with hseen
    · exact ⟨List.mem_cons_of_mem _ (ih h).1, (ih h).2⟩
    · rcases List.mem_cons.1 h with rfl | h
      · exact ⟨List.mem_cons_self, by simpa using hseen⟩
      · exact ⟨List.mem_cons_of_mem _ (ih h).1,
          fun hr => (ih h).2 (List.mem_cons_of_mem _ hr)⟩

theorem exists_mem_distinctNames (hs : s ∈ ms) (hnew : s.name ∉ seen) :
    ∃ r ∈ distinctNames seen ms, r.name = s.name := by
  induction ms generalizing seen with
  | nil => cases hs
  | cons m ms ih =>
    by_cases hname : m.name = s.name
    · refine ⟨m, ?_, hname⟩
      rw [distinctNames, if_neg (by simpa [hname] using hnew)]
      exact List.mem_cons_self
    · have hs' : s ∈ ms := (List.mem_cons.1 hs).resolve_left fun h => hname (h ▸ rfl)
      rw [distinctNames]
      split_ifs
      · exact ih hs' hnew
      · have hnew' : s.name ∉ m.name :: seen := by simpa using ⟨fun h => hname h.symm, hnew⟩
        obtain ⟨r, hr, hrs⟩ := ih hs' hnew'
        exact ⟨r, List.mem_cons_of_mem _ hr, hrs⟩

theorem eq_of_mem_distinctNames (hs : s ∈ distinctNames seen ms) (ht : t ∈ distinctNames seen ms)
    (hname : s.name = t.name) : s = t := by
  induction ms generalizing seen with
  | nil => cases hs
  | cons m ms ih =>
    rw [distinctNames] at hs ht
    split_ifs at hs ht
    · exact ih hs ht
    · rcases List.mem_cons.1 hs with rfl | hs <;> rcases List.mem_cons.1 ht with rfl | ht
      · rfl
      · exact absurd (by simp [hname]) (mem_of_mem_distinctNames ht).2
      · exact absurd (by simp [hname]) (mem_of_mem_distinctNames hs).2
      · exact ih hs ht

theorem exists_mem_dependencyOrder (hs : s ∈ m.postorder) :
    ∃ r ∈ m.dependencyOrder, r.name = s.name :=
  exists_mem_distinctNames hs List.not_mem_nil

end Model

namespace Code

theorem modelStruct_param_injective {a b : String}
    (h : selfParam (modelStructName a) = selfParam (modelStructName b)) : a = b := by
  simpa [selfParam, modelStructName, String.append_left_inj] using h

theorem Function.ofMethod_eq_ok {m : Model} {f : Method} {fn : Function}
    (h : ofMethod m f = .ok fn) :
    fn.name = functionName m.name f.body.name ∧
      fn.params.head? = some (selfParam (modelStructName m.name)) := by
  unfold ofMethod at h
  split at h
  · cases h
  · cases h
    exact ⟨rfl, rfl⟩

theorem Function.model_of_ofMethod {m m' : Model} {f f' : Method} {fn : Function}
    (h : ofMethod m f = .ok fn) (h' : ofMethod m' f' = .ok fn) : m.name = m'.name := by
  have hhead := (ofMethod_eq_ok h).2.symm.trans (ofMethod_eq_ok h').2
  exact modelStruct_param_injective (Option.some.inj hhead)

end Code

/-- A call in a body of the tree: the place of the running model, its method and the call. -/
structure CallSite (m : Model) where
  place : List String
  model : Model
  method : Method
  owner : List String
  name : String
  args : List Expr
  placed : m.descend? place = some model
  listed : method ∈ model.methods
  occurs : .call (.method owner name) args ∈ Stmt.nodes method.body.stmts

namespace CallSite

variable {m : Model}

def expr (c : CallSite m) : Expr := .call (.method c.owner c.name) c.args

structure Runs (c : CallSite m) (t : Model) (g : Method) : Prop where
  model : c.model.descend? c.owner = some t
  method : t.method? c.name = some g
  body : Interpreter.target m (c.place ++ c.owner) c.name c.args.length = .ok g.body

variable {c : CallSite m} {t : Model} {g : Method}

theorem Runs.mem_postorder (h : c.Runs t g) : t ∈ m.postorder := by
  apply Model.mem_postorder_of_descend? (o := c.place ++ c.owner)
  rw [Model.descend?_append, c.placed, Option.bind_some, h.model]

theorem Runs.unique {t' : Model} {g' : Method} (h : c.Runs t g) (h' : c.Runs t' g') :
    t = t' ∧ g = g' := by
  have ht : t = t' := Option.some.inj (h.model.symm.trans h'.model)
  subst ht
  exact ⟨rfl, Option.some.inj (h.method.symm.trans h'.method)⟩

variable {dialect : Dialect} {d : Definition}

/-- In a compiled tree every call runs a body, which has the name that is called. -/
theorem exists_runs (hm : Model.compile dialect d = .ok m) (c : CallSite m) :
    ∃ t g, c.Runs t g ∧ g.body.name = c.name := by
  obtain ⟨-, -, -, hfault⟩ := Model.compile_method hm c.placed c.listed
  have hcall := Model.callFault?_of_mem hfault c.occurs rfl
  obtain ⟨t, g, ht, hg, htarget⟩ := Interpreter.target_of_callFault? c.placed hcall
  obtain ⟨hmem, hname⟩ := Model.method?_mem hg
  have hplace : m.descend? (c.place ++ c.owner) = some t := by
    rw [Model.descend?_append, c.placed, Option.bind_some, ht]
  exact ⟨t, g, ⟨ht, hg, htarget⟩, (Model.compile_bodyName hm hplace hmem).trans hname⟩

theorem Runs.term (h : c.Runs t g) :
    Code.Term.ofExpr c.model c.expr = .call (Code.functionName t.name c.name)
      (.model c.owner :: Code.Term.ofExprs c.model c.args) := by
  rw [expr, Code.Term.ofExpr, Code.methodFunction, h.model, Option.map_some, Option.getD_some]

end CallSite

namespace GeneratedUnit

open Code

/-- The code of the calls of a tree agrees with what they run: every method has its function, and
the function that a call names is the one of the body that the call runs. -/
structure Dispatches (m : Model) (u : GeneratedUnit) : Prop where
  lowered : ∀ s ∈ m.postorder, ∀ f ∈ s.methods, ∃ fn ∈ u.methods, Function.ofMethod s f = .ok fn
  reached : ∀ c : CallSite m, ∃ t g fn, c.Runs t g ∧ Function.ofMethod t g = .ok fn ∧
    fn ∈ u.methods ∧
    Term.ofExpr c.model c.expr = .call fn.name (.model c.owner :: Term.ofExprs c.model c.args) ∧
    ∀ fn' ∈ u.functions, fn'.name = fn.name → fn' = fn

def ownFunctions (m : Model) (settings : Settings Float) (s : Model) : List Function :=
  seriesFunctions s (s.name == m.name) ++ scaffoldFunctions s settings (s.name == m.name)

/-- The names of a tree determine its functions: models of one name have the functions of the one
that is listed, and no other function has the name of one that is called. -/
structure NamesDetermine (m : Model) (settings : Settings Float) : Prop where
  shared : ∀ s ∈ m.postorder, ∀ r ∈ m.dependencyOrder, r.name = s.name →
    ∀ f ∈ s.methods, ∃ g ∈ r.methods, Function.ofMethod r g = Function.ofMethod s f
  distinct : ∀ (c : CallSite m) (t : Model) (g : Method), c.Runs t g →
    ∀ r ∈ m.dependencyOrder, ∀ h ∈ r.methods,
      functionName r.name h.body.name = functionName t.name g.body.name →
      Function.ofMethod r h = Function.ofMethod t g
  unreserved : ∀ (c : CallSite m) (t : Model) (g : Method), c.Runs t g →
    ∀ r ∈ m.dependencyOrder, ∀ fn ∈ ownFunctions m settings r,
      fn.name = functionName t.name g.body.name → Function.ofMethod t g = .ok fn

variable {m : Model} {settings : Settings Float} {u : GeneratedUnit}

theorem ofModel_eq_ok (h : ofModel m settings = .ok u) :
    u.series = m.dependencyOrder.flatMap (fun s => seriesFunctions s (s.name == m.name)) ∧
    u.scaffold = m.dependencyOrder.flatMap
      (fun s => scaffoldFunctions s settings (s.name == m.name)) ∧
    (m.dependencyOrder.flatMap fun s => s.methods.map fun f => Function.ofMethod s f).mapM
      (fun r => r.mapError (Error.inStage m.name .lowering)) = .ok u.methods := by
  obtain ⟨_, -, h⟩ := bind_eq_ok h
  obtain ⟨_, -, h⟩ := bind_eq_ok h
  obtain ⟨methods, hmethods, h⟩ := bind_eq_ok h
  cases h
  exact ⟨rfl, rfl, hmethods⟩

variable {g : Method}

theorem exists_mem_methods (h : ofModel m settings = .ok u) {r : Model} (hr : r ∈ m.dependencyOrder)
    (hg : g ∈ r.methods) : ∃ fn ∈ u.methods, Function.ofMethod r g = .ok fn := by
  obtain ⟨-, -, hmethods⟩ := ofModel_eq_ok h
  have hmem : Function.ofMethod r g ∈
      m.dependencyOrder.flatMap fun s => s.methods.map fun f => Function.ofMethod s f :=
    List.mem_flatMap.2 ⟨r, hr, List.mem_map_of_mem hg⟩
  obtain ⟨fn, hfn, hok⟩ := exists_of_mapM hmethods hmem
  exact ⟨fn, hfn, mapError_eq_ok hok⟩

variable {fn : Function}

theorem ofMethod_of_mem_methods (h : ofModel m settings = .ok u) (hfn : fn ∈ u.methods) :
    ∃ r ∈ m.dependencyOrder, ∃ g ∈ r.methods, Function.ofMethod r g = .ok fn := by
  obtain ⟨-, -, hmethods⟩ := ofModel_eq_ok h
  obtain ⟨result, hmem, hok⟩ := mem_of_mapM hmethods hfn
  obtain ⟨r, hr, hresult⟩ := List.mem_flatMap.1 hmem
  obtain ⟨g, hg, rfl⟩ := List.mem_map.1 hresult
  exact ⟨r, hr, g, hg, mapError_eq_ok hok⟩

theorem mem_functions_iff (h : ofModel m settings = .ok u) :
    fn ∈ u.functions ↔ fn ∈ u.methods ∨ ∃ r ∈ m.dependencyOrder, fn ∈ ownFunctions m settings r := by
  obtain ⟨hseries, hscaffold, -⟩ := ofModel_eq_ok h
  simp only [functions, hseries, hscaffold, ownFunctions, List.mem_append, List.mem_flatMap]
  grind

theorem NamesDetermine.lowered (hn : NamesDetermine m settings) (h : ofModel m settings = .ok u)
    {s : Model} (hs : s ∈ m.postorder) {f : Method} (hf : f ∈ s.methods) :
    ∃ fn ∈ u.methods, Function.ofMethod s f = .ok fn := by
  obtain ⟨r, hr, hname⟩ := Model.exists_mem_dependencyOrder hs
  obtain ⟨g, hg, hsame⟩ := hn.shared s hs r hr hname f hf
  obtain ⟨fn, hfn, hok⟩ := exists_mem_methods h hr hg
  exact ⟨fn, hfn, hsame ▸ hok⟩

theorem NamesDetermine.only (hn : NamesDetermine m settings) (h : ofModel m settings = .ok u)
    {c : CallSite m} {t : Model} (hc : c.Runs t g) {fn' : Function}
    (hfn : Function.ofMethod t g = .ok fn) (hmem : fn' ∈ u.functions) (hname : fn'.name = fn.name) :
    fn' = fn := by
  have hcalled : fn'.name = functionName t.name g.body.name :=
    hname.trans (Function.ofMethod_eq_ok hfn).1
  have hsame : Function.ofMethod t g = .ok fn' := by
    rcases (mem_functions_iff h).1 hmem with hmethod | ⟨r, hr, hown⟩
    · obtain ⟨r, hr, k, hk, hok⟩ := ofMethod_of_mem_methods h hmethod
      rw [← hn.distinct c t g hc r hr k hk ((Function.ofMethod_eq_ok hok).1.symm.trans hcalled)]
      exact hok
    · exact hn.unreserved c t g hc r hr fn' hown hcalled
  exact Except.ok.inj (hsame.symm.trans hfn)

theorem NamesDetermine.dispatches {dialect : Dialect} {d : Definition}
    (hn : NamesDetermine m settings) (hm : Model.compile dialect d = .ok m)
    (h : ofModel m settings = .ok u) : Dispatches m u where
  lowered _ hs _ hf := hn.lowered h hs hf
  reached c := by
    obtain ⟨t, g, hc, hbody⟩ := c.exists_runs hm
    obtain ⟨fn, hfn, hok⟩ := hn.lowered h hc.mem_postorder (Model.method?_mem hc.method).1
    have hname : fn.name = functionName t.name c.name := by
      rw [(Function.ofMethod_eq_ok hok).1, hbody]
    exact ⟨t, g, fn, hc, hok, hfn, hname ▸ hc.term, fun fn' hmem heq => hn.only h hc hok hmem heq⟩

theorem Dispatches.shared (hd : Dispatches m u) (h : ofModel m settings = .ok u) {s r : Model}
    (hs : s ∈ m.postorder) (hr : r ∈ m.dependencyOrder) (hname : r.name = s.name) {f : Method}
    (hf : f ∈ s.methods) : ∃ g ∈ r.methods, Function.ofMethod r g = Function.ofMethod s f := by
  obtain ⟨fn, hfn, hok⟩ := hd.lowered s hs f hf
  obtain ⟨r', hr', g, hg, hok'⟩ := ofMethod_of_mem_methods h hfn
  have hsame : r' = r :=
    Model.eq_of_mem_distinctNames hr' hr ((Function.model_of_ofMethod hok' hok).trans hname.symm)
  subst hsame
  exact ⟨g, hg, hok'.trans hok.symm⟩

theorem Dispatches.only (hd : Dispatches m u) {c : CallSite m} {t : Model} (hc : c.Runs t g)
    (hmem : fn ∈ u.functions) (hname : fn.name = functionName t.name g.body.name) :
    Function.ofMethod t g = .ok fn := by
  obtain ⟨t', g', fn', hc', hok, -, -, honly⟩ := hd.reached c
  obtain ⟨rfl, rfl⟩ := hc.unique hc'
  rw [hok, honly fn hmem (hname.trans (Function.ofMethod_eq_ok hok).1.symm)]

theorem Dispatches.namesDetermine (hd : Dispatches m u) (h : ofModel m settings = .ok u) :
    NamesDetermine m settings where
  shared _ hs _ hr hname _ hf := hd.shared h hs hr hname hf
  distinct c t g hc r hr k hk hname := by
    obtain ⟨fn, hfn, hok⟩ := exists_mem_methods h hr hk
    have hmem : fn ∈ u.functions := (mem_functions_iff h).2 (.inl hfn)
    rw [hok, hd.only hc hmem ((Function.ofMethod_eq_ok hok).1.trans hname)]
  unreserved c t g hc r hr fn hown hname :=
    hd.only hc ((mem_functions_iff h).2 (.inr ⟨r, hr, hown⟩)) hname

theorem NamesDetermine.of_nodup (h : ofModel m settings = .ok u)
    (hmodels : (m.postorder.map Model.name).Nodup)
    (hfunctions : (u.functions.map Function.name).Nodup) : NamesDetermine m settings := by
  have heq {r s : Model} (hr : r ∈ m.dependencyOrder) (hs : s ∈ m.postorder)
      (hname : r.name = s.name) : r = s :=
    List.inj_on_of_nodup_map hmodels (Model.mem_of_mem_distinctNames hr).1 hs hname
  have hcalled {c : CallSite m} {t : Model} {g : Method} (hc : c.Runs t g) {fn : Function}
      (hmem : fn ∈ u.functions) (hname : fn.name = functionName t.name g.body.name) :
      Function.ofMethod t g = .ok fn := by
    obtain ⟨r, hr, hrt⟩ := Model.exists_mem_dependencyOrder hc.mem_postorder
    obtain rfl := heq hr hc.mem_postorder hrt
    obtain ⟨fn', hfn', hok⟩ := exists_mem_methods h hr (Model.method?_mem hc.method).1
    have hmem' : fn' ∈ u.functions := (mem_functions_iff h).2 (.inl hfn')
    have hsame := hname.trans (Function.ofMethod_eq_ok hok).1.symm
    rw [hok, List.inj_on_of_nodup_map hfunctions hmem hmem' hsame]
  refine ⟨fun s hs r hr hname f hf => ?_, fun c t g hc r hr k hk hname => ?_,
    fun c t g hc r hr fn hown hname => ?_⟩
  · obtain rfl := heq hr hs hname
    exact ⟨f, hf, rfl⟩
  · obtain ⟨fn, hfn, hok⟩ := exists_mem_methods h hr hk
    have hmem : fn ∈ u.functions := (mem_functions_iff h).2 (.inl hfn)
    rw [hok, hcalled hc hmem ((Function.ofMethod_eq_ok hok).1.trans hname)]
  · exact hcalled hc ((mem_functions_iff h).2 (.inr ⟨r, hr, hown⟩)) hname

/-- The calls of a unit reach the functions of the bodies that they run exactly if the names of the
tree determine its functions. -/
theorem dispatches_iff_namesDetermine {dialect : Dialect} {d : Definition}
    (hm : Model.compile dialect d = .ok m) (h : ofModel m settings = .ok u) :
    Dispatches m u ↔ NamesDetermine m settings :=
  ⟨fun hd => hd.namesDetermine h, fun hn => hn.dispatches hm h⟩

def basin (part : String) : Definition where
  name := "basin"
  sources := [⟨"basin.mdl", "def calc(model):\n    model.sequences.fluxes.q = model.part.get()\n"⟩]
  groups := [{ kind := .fluxes, vars := [{ name := "q" }] }]
  methods := { run := ["calc"] }
  submodels := [("part", {
    name := part
    sources := [⟨"part.mdl", "def get(model):\n    return 1.0\n"⟩]
    methods := { add := ["get"] } })]

theorem basin_part_dispatches :
    ∃ m u, Model.compile {} (basin "part") = .ok m ∧ ofModel m .standard = .ok u ∧ Dispatches m u := by
  have hrun : ((Model.compile {} (basin "part")).toOption.any fun m =>
      (ofModel m .standard).toOption.any fun u => (m.postorder.map Model.name).Nodup ∧
        (u.functions.map Function.name).Nodup) := by
    decide +kernel
  obtain ⟨m, hcompile, hu⟩ := exists_ok_of_any hrun
  obtain ⟨u, hunit, hnodup⟩ := exists_ok_of_any hu
  obtain ⟨hmodels, hfunctions⟩ := of_decide_eq_true hnodup
  exact ⟨m, u, hcompile, hunit, (dispatches_iff_namesDetermine hcompile hunit).2
    (.of_nodup hunit hmodels hfunctions)⟩

/-- Under a sub-model of its own name the basin loses its method. -/
theorem basin_basin_not_dispatches :
    ∃ m u, Model.compile {} (basin "basin") = .ok m ∧ ofModel m .standard = .ok u ∧
      (∃ f ∈ m.methods, ∀ fn ∈ u.functions, fn.name ≠ functionName m.name f.body.name) ∧
      ¬Dispatches m u := by
  have hrun : ((Model.compile {} (basin "basin")).toOption.any fun m =>
      (ofModel m .standard).toOption.any fun u =>
        ∃ f ∈ m.methods, ∀ fn ∈ u.functions, fn.name ≠ functionName m.name f.body.name) := by
    decide +kernel
  obtain ⟨m, hm, hu⟩ := exists_ok_of_any hrun
  obtain ⟨u, hunit, hlost⟩ := exists_ok_of_any hu
  obtain ⟨f, hf, hlost⟩ := of_decide_eq_true hlost
  refine ⟨m, u, hm, hunit, ⟨f, hf, hlost⟩, fun hd => ?_⟩
  obtain ⟨fn, hfn, hok⟩ := hd.lowered m (Model.mem_postorder_of_descend? (o := []) rfl) f hf
  exact hlost fn ((mem_functions_iff hunit).2 (.inl hfn)) (Function.ofMethod_eq_ok hok).1

end GeneratedUnit

end ProcessModel
