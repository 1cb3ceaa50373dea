import ProcessModel.Proofs.MemberNames
import ProcessModel.Proofs.References

/-! The members that lead to a variable.

The code of a variable names the members on the way to it: those of sub-models, a family, a group and
the variable. Each is found in the struct that is declared for the one before it, since a struct leaves
out only what has no variables. -/

namespace ProcessModel

/-- Whether a body reads or writes a variable with the given indices. -/
def Body.Refers (b : Body) (p : VarPath) (indices : List Expr) : Prop :=
  .var p indices ∈ Stmt.nodes b.stmts ∨ .var p indices ∈ Stmt.targetsAll b.stmts

namespace Model

variable {dialect : Dialect} {d : Definition} {m s : Model}

theorem self_mem_postorder (m : Model) : m ∈ m.postorder :=
  mem_postorder_of_descend? (o := []) rfl

/-- The models of a tree: its root, and the models of the trees of its sub-models. -/
inductive Comprises : Model → Model → Prop
  | root (m : Model) : Comprises m m
  | sub {m s : Model} {e : String × Model} (he : e ∈ m.submodels) (h : Comprises e.2 s) :
      Comprises m s

mutual

theorem of_submodels {P : Model → Prop} (h : ∀ m, (∀ e ∈ m.submodels, P e.2) → P m) : ∀ m, P m
  | ⟨d, methods, submodels⟩ => h ⟨d, methods, submodels⟩ (of_submodels_all h submodels)

theorem of_submodels_all {P : Model → Prop} (h : ∀ m, (∀ e ∈ m.submodels, P e.2) → P m) :
    ∀ ms : List (String × Model), ∀ e ∈ ms, P e.2
  | [] => fun _ he => absurd he List.not_mem_nil
  | (_, m) :: rest =>
    List.forall_mem_cons.2 ⟨of_submodels h m, of_submodels_all h rest⟩

end

theorem Comprises.trans {t : Model} (hs : m.Comprises s) (ht : s.Comprises t) : m.Comprises t := by
  induction hs with
  | root m => exact ht
  | sub he _ ih => exact .sub he (ih ht)

theorem mem_postorder_iff : s ∈ m.postorder ↔ m.Comprises s := by
  constructor
  · induction m using of_submodels with
    | h m ih =>
      intro hs
      rw [postorder_eq] at hs
      rcases List.mem_append.1 hs with hs | hs
      · obtain ⟨e, he, hs⟩ := exists_of_mem_postorderAll hs
        exact .sub he (ih e he hs)
      · rw [List.mem_singleton.1 hs]
        exact .root m
  · intro h
    induction h with
    | root m => exact self_mem_postorder m
    | sub he _ ih =>
      rw [postorder_eq]
      exact List.mem_append_left _ (mem_postorderAll he ih)

theorem Comprises.read (hs : m.Comprises s)
    (h : Model.read dialect d = .ok m) : Model.read dialect s.definition = .ok s := by
  induction hs generalizing d with
  | root m => rwa [(read_eq_ok h).1]
  | sub he _ ih =>
    obtain ⟨e, -, -, hread⟩ := exists_of_forall₂ (readAll_forall₂ (read_eq_ok h).2.1).flip he
    exact ih hread

/-- Whether models of one name have one definition. -/
def SharesDefinitions (m : Model) : Prop :=
  ∀ s ∈ m.postorder, ∀ t ∈ m.postorder, s.name = t.name → s.definition = t.definition

theorem Comprises.submodel (hs : m.Comprises s) {e : String × Model} (he : e ∈ s.submodels) :
    m.Comprises e.2 :=
  hs.trans (.sub he (.root _))

theorem Comprises.eq_of_definition {r : Model} (h : Model.read dialect d = .ok m) (hr : m.Comprises r)
    (hs : m.Comprises s) (hdef : r.definition = s.definition) : r = s := by
  have hread := hr.read h
  rw [hdef, hs.read h] at hread
  exact (Except.ok.inj hread).symm

theorem SharesDefinitions.mem_dependencyOrder (hshare : m.SharesDefinitions)
    (h : read dialect d = .ok m) (hs : m.Comprises s) : s ∈ m.dependencyOrder := by
  have hs' := mem_postorder_iff.2 hs
  obtain ⟨r, hr, hname⟩ := exists_mem_dependencyOrder hs'
  have hr' := (mem_of_mem_distinctNames hr).1
  have heq := (mem_postorder_iff.1 hr').eq_of_definition h hs (hshare r hr' s hs' hname)
  exact heq ▸ hr

theorem declared_of_refers (h : read dialect d = .ok s) {f : Method} (hf : f ∈ s.methods)
    {p : VarPath} {indices : List Expr} (hp : f.body.Refers p indices) :
    ∃ v, d.declared? p = some v ∧ indices.length = v.ndim := by
  obtain ⟨entry, -, hcompiled⟩ := read_methods h hf
  obtain ⟨-, -, -, hscope⟩ := Method.compile_yields d dialect entry.1 entry.2 f hcompiled
  obtain ⟨hnodes, htargets⟩ := (Stmt.allIn_iff_nodes _).1 hscope
  rcases hp with hp | hp
  · exact hnodes _ hp
  · exact htargets _ hp

end Model

namespace Code

def unitStructs (m : Model) : List Struct := m.dependencyOrder.flatMap structs

/-- The names of members that lead from a struct to a member. Each is a member of a struct that is
declared; all but the last are values whose type is the name of the next struct. -/
inductive Leads (declared : List Struct) : String → List String → Member → Prop
  | last {s : Struct} {x : Member} (hs : s ∈ declared) (hx : x ∈ s.members) :
      Leads declared s.name [x.name] x
  | step {s : Struct} {x goal : Member} {path : List String} (hs : s ∈ declared)
      (hx : x ∈ s.members) (hvalue : x.pointers = 0 ∧ x.extents = [])
      (hrest : Leads declared x.type path goal) : Leads declared s.name (x.name :: path) goal

section StructNames

def otherEndings (m : Model) : List String :=
  ((filledGroups m.definition).filter fun g => g.kind == .states).map
      (fun _ => "OldStateSequences") ++
    (filledFamilies m.definition).map Family.structName ++
    (if m.plan = .adaptive then ["NumConsts"] else []) ++
    (if m.plan = .static then [] else ["NumVars"]) ++ ["Model"]

/-- What follows the name of the model in the names of its structs. -/
def structEndings (m : Model) : List String :=
  (filledGroups m.definition).map (·.kind.structName) ++ otherEndings m

theorem modelStructName_eq (model : String) :
    modelStructName model = functionName model "Model" := by
  rw [modelStructName, functionName, String.append_assoc]
  rfl

theorem structs_names (m : Model) :
    (structs m).map Struct.name = (structEndings m).map (functionName m.name) := by
  have hold (model : String) : oldStatesStructName model = functionName model "OldStateSequences" := by
    rw [oldStatesStructName, functionName, String.append_assoc]
    rfl
  have hconsts (model : String) : numConstsStructName model = functionName model "NumConsts" := by
    rw [numConstsStructName, functionName, String.append_assoc]
    rfl
  have hvars (model : String) : numVarsStructName model = functionName model "NumVars" := by
    rw [numVarsStructName, functionName, String.append_assoc]
    rfl
  simp only [structs, structEndings, otherEndings, List.map_append, List.map_map, apply_ite (List.map _),
    List.map_cons, List.map_nil, Function.comp_def, groupStruct, oldStatesStruct, familyStruct,
    numConstsStruct, numVarsStruct, modelStruct, hold, hconsts, hvars, modelStructName_eq,
    List.append_assoc]
  rfl

variable {m : Model}

theorem otherEndings_sublist (hd : m.definition.Distinct) :
    (otherEndings m).Sublist
      ["OldStateSequences", "Parameters", "Sequences", "NumConsts", "NumVars", "Model"] := by
  have hold : (((filledGroups m.definition).filter fun g => g.kind == .states).map
      fun _ => "OldStateSequences").Sublist ["OldStateSequences"] := by
    have hcount := List.nodup_iff_count_le_one.1 (filledGroups_kinds_nodup hd) .states
    rw [List.count, List.countP_map, List.countP_eq_length_filter] at hcount
    rw [List.map_const', ← List.replicate_one, List.replicate_sublist_replicate]
    exact hcount
  have hfamilies : ((filledFamilies m.definition).map Family.structName).Sublist
      ["Parameters", "Sequences"] := List.filter_sublist.map Family.structName
  have hconsts : (if m.plan = .adaptive then ["NumConsts"] else []).Sublist ["NumConsts"] := by
    split_ifs <;> simp
  have hvars : (if m.plan = .static then [] else ["NumVars"]).Sublist ["NumVars"] := by
    split_ifs <;> simp
  exact (((hold.append hfamilies).append hconsts).append hvars).append (List.Sublist.refl _)

theorem structEndings_nodup (hd : m.definition.Distinct) : (structEndings m).Nodup := by
  have hinj : Function.Injective GroupKind.structName := fun a b hab =>
    List.inj_on_of_nodup_map (by decide : (GroupKind.all.map GroupKind.structName).Nodup)
      (mem_all_kinds a) (mem_all_kinds b) hab
  have hgroups : ((filledGroups m.definition).map (·.kind.structName)).Nodup := by
    simpa [Function.comp_def] using (filledGroups_kinds_nodup hd).map hinj
  have hothers := otherEndings_sublist hd
  refine hgroups.append (List.Nodup.sublist hothers (by decide)) fun name hname hname' => ?_
  obtain ⟨g, -, rfl⟩ := List.mem_map.1 hname
  have hfresh : ∀ k : GroupKind, k.structName ∉
      ["OldStateSequences", "Parameters", "Sequences", "NumConsts", "NumVars", "Model"] := by
    intro k
    cases k <;> decide
  exact hfresh g.kind (hothers.subset hname')

/-- No ending has a line in it, so the name of a struct shows where that of its model ends. -/
theorem functionName_notMem_structEndings (hd : m.definition.Distinct) (a b : String) :
    functionName a b ∉ structEndings m := by
  have hline : ∀ name ∈ structEndings m, '_' ∉ name.toList := by
    intro name hname
    rcases List.mem_append.1 hname with hname | hname
    · obtain ⟨g, -, rfl⟩ := List.mem_map.1 hname
      cases g.kind <;> decide
    · have hothers : ∀ name ∈ ["OldStateSequences", "Parameters", "Sequences", "NumConsts",
          "NumVars", "Model"], '_' ∉ name.toList := by decide
      exact hothers name ((otherEndings_sublist hd).subset hname)
  intro h
  exact hline _ h (by simp [functionName])

theorem unitStructs_names_nodup (hdistinct : ∀ s ∈ m.dependencyOrder, s.definition.Distinct) :
    ((unitStructs m).map Struct.name).Nodup := by
  simp only [unitStructs, List.map_flatMap, structs_names]
  refine List.nodup_flatMap.2 ⟨fun s hs => ?_, ?_⟩
  · exact (structEndings_nodup (hdistinct s hs)).map fun x y => functionName_right_inj.1
  · refine (Model.distinctNames_nodup _ _).pairwise_of_forall_ne fun s hs t ht hne => ?_
    intro name hname hname'
    obtain ⟨x, hx, rfl⟩ := List.mem_map.1 hname
    obtain ⟨y, hy, heq⟩ := List.mem_map.1 hname'
    rcases functionName_eq_iff.1 heq.symm with ⟨hst, -⟩ | ⟨z, -, rfl⟩ | ⟨z, -, rfl⟩
    · exact hne (Model.eq_of_mem_distinctNames hs ht hst)
    · exact functionName_notMem_structEndings (hdistinct s hs) _ _ hx
    · exact functionName_notMem_structEndings (hdistinct t ht) _ _ hy

end StructNames

section Ways

variable {m s : Model}

def refStructName (model : String) : GroupRef → String
  | .kind k => groupStructName model k
  | .oldStates => oldStatesStructName model

theorem mem_unitStructs (hs : s ∈ m.dependencyOrder) {struct : Struct} (h : struct ∈ structs s) :
    struct ∈ unitStructs m :=
  List.mem_flatMap.2 ⟨s, hs, h⟩

theorem GroupRef.declaring_family (r : GroupRef) : r.declaring.family = r.family := by
  cases r <;> rfl

variable {r : GroupRef} {g : Group} {v : Variable}

theorem filled_of_group? (hg : s.definition.group? r.declaring = some g) (hv : v ∈ g.vars) :
    g ∈ filledGroups s.definition ∧ g.kind = r.declaring :=
  ⟨mem_filledGroups (List.mem_of_find?_eq_some hg) hv, by simpa using List.find?_some hg⟩

theorem leads_from_group (hs : s ∈ m.dependencyOrder)
    (hg : s.definition.group? r.declaring = some g) (hv : v ∈ g.vars) :
    Leads (unitStructs m) (refStructName s.name r) [v.name] (valueMember r.declaring v) := by
  obtain ⟨hfilled, hkind⟩ := filled_of_group? hg hv
  rw [← valueMember_name r.declaring v]
  cases r with
  | kind k =>
    obtain rfl : g.kind = k := hkind
    exact .last (s := groupStruct s.definition.name (s.plan = .adaptive) g)
      (mem_unitStructs hs (groupStruct_mem_structs hfilled))
      (List.mem_flatMap.2 ⟨v, hv, List.mem_cons_self⟩)
  | oldStates =>
    exact .last (s := oldStatesStruct s.definition.name g)
      (mem_unitStructs hs (oldStatesStruct_mem_structs hfilled hkind)) (List.mem_map_of_mem hv)

theorem ref_mem_familyStruct (hg : s.definition.group? r.declaring = some g) (hv : v ∈ g.vars) :
    ⟨r.name, refStructName s.name r, 0, []⟩ ∈ (familyStruct s.definition r.family).members := by
  obtain ⟨hfilled, hkind⟩ := filled_of_group? hg hv
  cases r with
  | kind k =>
    obtain rfl : g.kind = k := hkind
    refine List.mem_append_left _ (List.mem_map.2 ⟨g, List.mem_filter.2 ⟨hfilled, ?_⟩, rfl⟩)
    exact beq_self_eq_true g.kind.family
  | oldStates =>
    have hold : s.definition.hasOldStates = true := by
      rw [Definition.hasOldStates, show s.definition.group? .states = some g from hg]
      exact (List.mem_filter.1 hfilled).2
    refine List.mem_append_right _ ?_
    rw [if_pos (by rw [hold]; rfl)]
    exact List.mem_singleton_self _

theorem leads_from_model (hs : s ∈ m.dependencyOrder)
    (hg : s.definition.group? r.declaring = some g) (hv : v ∈ g.vars) :
    Leads (unitStructs m) (modelStructName s.name) [r.family.name, r.name, v.name]
      (valueMember r.declaring v) := by
  obtain ⟨hfilled, hkind⟩ := filled_of_group? hg hv
  have hfamily : r.family ∈ filledFamilies s.definition := by
    refine List.mem_filter.2 ⟨by cases r.family <;> decide, ?_⟩
    refine List.any_eq_true.2 ⟨g, (List.mem_filter.1 hfilled).1, ?_⟩
    rw [hkind, GroupRef.declaring_family, (List.mem_filter.1 hfilled).2, Bool.and_true]
    exact beq_self_eq_true r.family
  refine .step (s := modelStruct s) (x := ⟨r.family.name, familyStructName s.name r.family, 0, []⟩)
    (mem_unitStructs hs (modelStruct_mem_structs s)) ?_ ⟨rfl, rfl⟩ ?_
  · exact List.mem_append_left _ (List.mem_append_left _ (List.mem_append_left _
      (List.mem_map_of_mem hfamily)))
  · exact .step (s := familyStruct s.definition r.family)
      (mem_unitStructs hs (familyStruct_mem_structs hfamily)) (ref_mem_familyStruct hg hv) ⟨rfl, rfl⟩
      (leads_from_group hs hg hv)

theorem leads_from_submodel (hs : s ∈ m.dependencyOrder) {e : String × Model} (he : e ∈ s.submodels)
    {path : List String} {goal : Member}
    (h : Leads (unitStructs m) (modelStructName e.2.name) path goal) :
    Leads (unitStructs m) (modelStructName s.name) (e.1 :: path) goal :=
  .step (s := modelStruct s) (x := ⟨e.1, modelStructName e.2.name, 0, []⟩)
    (mem_unitStructs hs (modelStruct_mem_structs s))
    (List.mem_append_right _ (List.mem_map_of_mem he)) ⟨rfl, rfl⟩ h

end Ways

section Access

variable {dialect : Dialect} {d ds : Definition} {m s : Model}

/-- The members of a path lead from every listed model to the variable that the path stands for
there. -/
theorem leads_of_declared (hm : Model.read dialect d = .ok m)
    (hshare : m.SharesDefinitions) (hs : m.Comprises s) (hread : Model.read dialect ds = .ok s)
    {p : VarPath} {v : Variable} (hp : ds.declared? p = some v) :
    Leads (unitStructs m) (modelStructName s.name) (memberPath p)
      (valueMember p.group.declaring v) := by
  obtain ⟨owner, r, x⟩ := p
  induction owner generalizing s ds with
  | nil =>
    obtain ⟨g, hg, hv⟩ := Option.bind_eq_some_iff.1 (show ds.var? r.declaring x = some v from hp)
    obtain rfl : v.name = x := by simpa using List.find?_some hv
    obtain ⟨rfl, -, -⟩ := Model.read_eq_ok hread
    exact leads_from_model (hshare.mem_dependencyOrder hm hs) hg (List.mem_of_find?_eq_some hv)
  | cons name owner ih =>
    obtain ⟨d', hd', hv⟩ := Option.bind_eq_some_iff.1 hp
    obtain ⟨sub, hsub, hbelow⟩ := Option.bind_eq_some_iff.1 hd'
    obtain ⟨-, hsubs, -⟩ := Model.read_eq_ok hread
    obtain ⟨e, he, hname, hreade⟩ :=
      exists_of_forall₂ (Model.readAll_forall₂ hsubs) (Definition.submodel?_mem hsub)
    obtain rfl : name = e.1 := hname
    refine leads_from_submodel (hshare.mem_dependencyOrder hm hs) he ?_
    refine ih (hs.submodel he) hreade ?_
    exact Option.bind_eq_some_iff.2 ⟨d', hbelow, hv⟩

/-- In every compiled tree whose models share a definition if they share its name, each variable that
a body of a listed model refers to is reached from the struct of the model: the members that its
code names are declared, each in the struct of the one before, structs have different names, and the
member of the variable has one pointer for every index, and one more for a link. -/
theorem access_is_declared (hd : d.Built) (hm : Model.compile dialect d = .ok m)
    (hshare : m.SharesDefinitions) (hs : s ∈ m.dependencyOrder) {f : Method} (hf : f ∈ s.methods)
    {p : VarPath} {indices : List Expr} (hp : f.body.Refers p indices) :
    ((unitStructs m).map Struct.name).Nodup ∧
    ∃ v terms link, s.definition.declared? p = some v ∧
      Term.ofExpr s (.var p indices) = .member (memberPath p) terms link ∧
      terms.length = indices.length ∧ link = p.group.declaring.isLink ∧
      Leads (unitStructs m) (modelStructName s.name) (memberPath p)
        (valueMember p.group.declaring v) ∧
      (valueMember p.group.declaring v).pointers = terms.length + (if link then 1 else 0) ∧
      (valueMember p.group.declaring v).extents = [] := by
  obtain ⟨hread, -⟩ := Model.compile_eq_ok hm
  have hmem := (Model.mem_of_mem_distinctNames hs).1
  obtain ⟨ds, -, hreads⟩ := Model.exists_read_of_mem_postorder hd hread hmem
  obtain ⟨v, hv, hlength⟩ := Model.declared_of_refers hreads hf hp
  have hterms : (Term.ofExprs s indices).length = indices.length := by
    clear hp hlength
    induction indices with
    | nil => rfl
    | cons e es ih => rw [Term.ofExprs, List.length_cons, List.length_cons, ih]
  refine ⟨unitStructs_names_nodup fun t ht => ?_, v, Term.ofExprs s indices, _, ?_, rfl, hterms, rfl,
    leads_of_declared hread hshare (Model.mem_postorder_iff.1 hmem) hreads hv, ?_, ?_⟩
  · obtain ⟨dt, hdt, hreadt⟩ :=
      Model.exists_read_of_mem_postorder hd hread (Model.mem_of_mem_distinctNames ht).1
    rw [(Model.read_eq_ok hreadt).1]
    exact hdt.distinct
  · rw [(Model.read_eq_ok hreads).1, hv]
  · rw [hterms, hlength]
    unfold valueMember
    split_ifs <;> rfl
  · unfold valueMember
    split_ifs <;> rfl

def reach : Definition where
  name := "reach"
  groups := [{ kind := .control, vars := [{ name := "c", ndim := 1 }] }]

def delta : Definition where
  name := "delta"
  sources := [⟨"delta.mdl",
    "def calc(model):\n    out.q[0] = old.s * model.east.parameters.control.c[1]\n"⟩]
  groups := [{ kind := .states, vars := [{ name := "s" }] },
    { kind := .outlets, vars := [{ name := "q", ndim := 1 }] }]
  methods := { run := ["calc"] }
  submodels := [("east", reach), ("west", reach)]

theorem delta_built : delta.Built := by
  have hreach : reach.Built :=
    .of_canonical (by decide) (by decide +kernel) (by decide) (by simp [reach])
  refine .of_canonical (by decide) (by decide +kernel) (by decide) fun e he => ?_
  simp only [delta, List.mem_cons, List.not_mem_nil, or_false] at he
  rcases he with rfl | rfl <;> exact hreach

theorem delta_sharesDefinitions {m : Model} (h : Model.read {} delta = .ok m) :
    m.SharesDefinitions := by
  obtain ⟨hdef, hsubs, -⟩ := Model.read_eq_ok h
  have hreaches : m.submodels = [("east", ⟨reach, [], []⟩), ("west", ⟨reach, [], []⟩)] :=
    (Except.ok.inj hsubs).symm
  have hmem : ∀ s ∈ m.postorder, s.definition = reach ∨ s.definition = delta := by
    intro s hs
    rw [Model.postorder_eq, hreaches] at hs
    rcases List.mem_append.1 hs with hs | hs
    · obtain ⟨e, he, hs⟩ := Model.exists_of_mem_postorderAll hs
      simp only [List.mem_cons, List.not_mem_nil, or_false] at he
      rcases he with rfl | rfl <;> exact .inl (by rw [List.mem_singleton.1 hs])
    · exact .inr (List.mem_singleton.1 hs ▸ hdef)
  intro s hs t ht hname
  unfold Model.name at hname
  rcases hmem s hs with hs | hs <;> rcases hmem t ht with ht | ht <;> rw [hs, ht] at hname ⊢
  · exact absurd hname (by decide)
  · exact absurd hname (by decide)

/-- The delta writes to a link with an index and reads a parameter of a reach. -/
theorem delta_access_is_declared :
    ∃ m f indices indices', Model.compile {} delta = .ok m ∧ delta.Built ∧ m.SharesDefinitions ∧
      m ∈ m.dependencyOrder ∧ f ∈ m.methods ∧
      f.body.Refers ⟨[], .kind .outlets, "q"⟩ indices ∧
      f.body.Refers ⟨["east"], .kind .control, "c"⟩ indices' ∧
      Leads (unitStructs m) "delta_Model" ["sequences", "outlets", "q"] ⟨"q", "double", 2, []⟩ ∧
      Leads (unitStructs m) "delta_Model" ["east", "parameters", "control", "c"]
        ⟨"c", "double", 1, []⟩ := by
  have hrun : ((Model.compile {} delta).toOption.any fun m =>
      (m.method? "calc").any fun f : Method =>
        (¬∀ t ∈ Stmt.targetsAll f.body.stmts, t.Touches (· ≠ ⟨[], .kind .outlets, "q"⟩)) ∧
        ¬∀ e ∈ Stmt.nodes f.body.stmts, e.Touches (· ≠ ⟨["east"], .kind .control, "c"⟩)) := by
    decide +kernel
  obtain ⟨m, hcompile, h⟩ := exists_ok_of_any hrun
  obtain ⟨f, hf, h⟩ := (Option.any_eq_true _ _).1 h
  obtain ⟨hwrite, hread⟩ := of_decide_eq_true h
  have hshare := delta_sharesDefinitions (Model.compile_eq_ok hcompile).1
  have hself := hshare.mem_dependencyOrder (Model.compile_eq_ok hcompile).1 (.root m)
  have hmem := (Model.method?_mem hf).1
  have hdef := (Model.read_eq_ok (Model.compile_eq_ok hcompile).1).1
  have hname : modelStructName m.name = "delta_Model" := by
    rw [Model.name, hdef]
    rfl
  simp only [not_forall] at hwrite hread
  obtain ⟨t, ht, hwrite⟩ := hwrite
  obtain ⟨e, he, hread⟩ := hread
  cases t with
  | loc x => exact absurd trivial hwrite
  | var path indices =>
    obtain rfl : path = ⟨[], .kind .outlets, "q"⟩ := not_not.1 hwrite
    cases e with
    | var path' indices' =>
      obtain rfl : path' = ⟨["east"], .kind .control, "c"⟩ := not_not.1 hread
      obtain ⟨-, v, -, -, hv, -, -, -, hleads, -⟩ :=
        access_is_declared delta_built hcompile hshare hself hmem (.inr ht)
      obtain ⟨-, w, -, -, hw, -, -, -, hleads', -⟩ :=
        access_is_declared delta_built hcompile hshare hself hmem (.inl he)
      rw [hdef] at hv hw
      obtain rfl := Option.some.inj hv
      obtain rfl := Option.some.inj hw
      rw [hname] at hleads hleads'
      exact ⟨m, f, indices, indices', hcompile, delta_built, hshare, hself, hmem, .inr ht, .inl he,
        hleads, hleads'⟩
    | _ => exact absurd trivial hread

end Access

end Code

end ProcessModel
