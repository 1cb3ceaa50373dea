import Mathlib.Data.List.Flatten
import Mathlib.Data.List.Pairwise
import Mathlib.Data.List.Perm.Subperm
import ProcessModel.Proofs.Declarations
import ProcessModel.Proofs.Dispatch

/-! The names of the functions of a unit.

A function is named for its model and its routine, with a line between the two. The routines of a
model are its methods and some with fixed names, and a name does not tell where the model ends. -/

namespace ProcessModel

namespace Code

/-- The routines for the series of a model: those of its groups, and its own. -/
def seriesRoutines (d : Definition) : List String :=
  ((seriesGroups d).map (·.kind)).flatMap
    (fun k => routines.map fun r => functionName k.structName r.name) ++
  routines.map SeriesRoutine.name

def solveRoutines : Plan → List String
  | .adaptive => ["free_numerics", "allocate_numerics", "set_point_states", "set_point_fluxes",
      "set_result_states", "set_result_fluxes", "integrate_fluxes", "reset_sum_fluxes",
      "addup_fluxes", "get_sum_fluxes", "calculate_error", "extrapolate_error", "accept_step",
      "reject_step", "solve"]
  | _ => ["solve"]

/-- The routines that prepare a model, and those that simulate it if it is not a sub-model. -/
def scaffoldRoutines (plan : Plan) (root : Bool) : List String :=
  (if plan = .adaptive then ["init_numconsts"] else []) ++ ["init", "new2old"] ++
    if root then ["update_inlets", "run", "update_outlets", "update_receivers", "update_senders"] ++
      (if plan = .static then [] else ["calculate_single_terms", "calculate_full_terms"]) ++
      solveRoutines plan ++ ["simulate"]
    else []

def fixedRoutines (m : Model) (root : Bool) : List String :=
  seriesRoutines m.definition ++ scaffoldRoutines m.plan root

theorem functionName_functionName (a b c : String) :
    functionName (functionName a b) c = functionName a (functionName b c) := by
  simp only [functionName, String.append_assoc]

theorem functionName_right_inj {a x y : String} :
    functionName a x = functionName a y ↔ x = y := by
  simp only [functionName, String.append_right_inj]

/-- Two names are the same if their parts are, or if one model's name goes on from the other's. -/
theorem functionName_eq_iff {a b x y : String} :
    functionName a x = functionName b y ↔ (a = b ∧ x = y) ∨
      (∃ z, b = functionName a z ∧ x = functionName z y) ∨
      ∃ z, a = functionName b z ∧ y = functionName z x := by
  have hgoes : ∀ {a b x y : String} {c : List Char}, b.toList = a.toList ++ c →
      '_' :: x.toList = c ++ '_' :: y.toList →
      (a = b ∧ x = y) ∨ ∃ z, b = functionName a z ∧ x = functionName z y := by
    intro a b x y c hb hx
    cases c with
    | nil =>
      refine .inl ⟨String.toList_inj.1 (by simpa using hb.symm), String.toList_inj.1 ?_⟩
      exact (List.cons.inj hx).2
    | cons c z =>
      obtain ⟨rfl, hrest⟩ := List.cons.inj hx
      refine .inr ⟨String.ofList z, String.toList_inj.1 ?_, String.toList_inj.1 ?_⟩
      · simp [functionName, hb]
      · simpa [functionName] using hrest
  constructor
  · intro h
    have hlist : a.toList ++ '_' :: x.toList = b.toList ++ '_' :: y.toList := by
      simpa [functionName] using congrArg String.toList h
    rcases List.append_eq_append_iff.1 hlist with ⟨c, hb, hx⟩ | ⟨c, ha, hy⟩
    · rcases hgoes hb hx with h | h
      · exact .inl h
      · exact .inr (.inl h)
    · rcases hgoes ha hy with ⟨h, h'⟩ | h
      · exact .inl ⟨h.symm, h'.symm⟩
      · exact .inr (.inr h)
  · rintro (⟨rfl, rfl⟩ | ⟨z, rfl, rfl⟩ | ⟨z, rfl, rfl⟩)
    · rfl
    · rw [functionName_functionName]
    · rw [functionName_functionName]

theorem seriesFunctions_names (m : Model) (root : Bool) :
    (seriesFunctions m root).map Function.name =
      (seriesRoutines m.definition).map (functionName m.name) := by
  rw [seriesFunctions, seriesRoutines, List.map_append, List.map_append, List.map_flatMap,
    List.map_flatMap, List.flatMap_map]
  simp only [List.map_map]
  congr 1
  refine List.flatMap_congr fun g _ => List.map_congr_left fun r _ => ?_
  exact functionName_functionName _ _ _

theorem solveFunctions_names (m : Model) :
    (solveFunctions m).map Function.name = (solveRoutines m.plan).map (functionName m.name) := by
  unfold solveFunctions solveRoutines
  cases m.plan <;> rfl

theorem scaffoldFunctions_names (m : Model) (settings : Settings Float) (root : Bool) :
    (scaffoldFunctions m settings root).map Function.name =
      (scaffoldRoutines m.plan root).map (functionName m.name) := by
  have hterms : (termFunctions m).map Function.name =
      (if m.plan = .static then [] else ["calculate_single_terms", "calculate_full_terms"]).map
        (functionName m.name) := by
    unfold termFunctions
    split_ifs <;> rfl
  have hconsts : (if m.plan = .adaptive then [initNumConsts m settings] else []).map Function.name =
      (if m.plan = .adaptive then ["init_numconsts"] else []).map (functionName m.name) := by
    split_ifs <;> rfl
  rw [scaffoldFunctions, scaffoldRoutines, List.map_append, List.map_append, List.map_append,
    List.map_append, hconsts]
  cases root with
  | false => rfl
  | true =>
    simp only [if_true, List.map_append, hterms, solveFunctions_names]
    rfl

theorem scaffoldRoutines_nodup (plan : Plan) (root : Bool) :
    (routines.map SeriesRoutine.name ++ scaffoldRoutines plan root).Nodup := by
  cases plan <;> cases root <;> decide

theorem mem_all_kinds (k : GroupKind) : k ∈ GroupKind.all := by
  cases k <;> decide

theorem groupRoutines_fresh (plan : Plan) (root : Bool) (k : GroupKind) (r : SeriesRoutine) :
    functionName k.structName r.name ∉
      routines.map SeriesRoutine.name ++ scaffoldRoutines plan root := by
  have hall : (GroupKind.all.all fun k => routines.all fun r =>
      !(routines.map SeriesRoutine.name ++ scaffoldRoutines .adaptive true).contains
        (functionName k.structName r.name)) = true := by
    decide +kernel
  have hmost : routines.map SeriesRoutine.name ++ scaffoldRoutines plan root ⊆
      routines.map SeriesRoutine.name ++ scaffoldRoutines .adaptive true := by
    cases plan <;> cases root <;> decide
  have hr : r ∈ routines := by
    cases r <;> decide
  have hfresh := List.all_eq_true.1 (List.all_eq_true.1 hall k (mem_all_kinds k)) r hr
  intro hmem
  rw [List.contains_iff_mem.2 (hmost hmem)] at hfresh
  cases hfresh

theorem groupRoutines_nodup {kinds : List GroupKind} (h : kinds.Nodup) :
    (kinds.flatMap fun k => routines.map fun r => functionName k.structName r.name).Nodup := by
  have hall : (GroupKind.all.flatMap fun k =>
      routines.map fun r => functionName k.structName r.name).Nodup := by decide +kernel
  obtain ⟨part, hperm, hpart⟩ := h.subperm fun k (_ : k ∈ kinds) => mem_all_kinds k
  exact (hperm.flatMap_right _).nodup_iff.1 (hall.sublist (hpart.flatMap _))

theorem fixedRoutines_nodup {m : Model} (h : m.definition.Distinct) (root : Bool) :
    (fixedRoutines m root).Nodup := by
  have hkinds : ((seriesGroups m.definition).map (·.kind)).Nodup :=
    h.kinds.sublist ((List.filter_sublist.trans List.filter_sublist).map _)
  rw [fixedRoutines, seriesRoutines, List.append_assoc, List.nodup_append]
  refine ⟨groupRoutines_nodup hkinds, scaffoldRoutines_nodup _ _, fun x hx y hy heq => ?_⟩
  obtain ⟨k, -, hx⟩ := List.mem_flatMap.1 hx
  obtain ⟨r, -, rfl⟩ := List.mem_map.1 hx
  exact groupRoutines_fresh _ _ k r (heq ▸ hy)

end Code

namespace Definition

theorem methods_of_methodFault? {model : String} {before : List String}
    {entries : List (MethodKind × String)} (h : methodFault? model before entries = none) :
    (entries.map (·.2)).Nodup ∧ ∀ e ∈ entries, e.2 ∉ before := by
  induction entries generalizing before with
  | nil => exact ⟨.nil, fun _ he => absurd he List.not_mem_nil⟩
  | cons e entries ih =>
    obtain ⟨kind, name⟩ := e
    unfold methodFault? at h
    split_ifs at h with hname hbefore
    obtain ⟨hnodup, hrest⟩ := ih h
    have hnew : name ∉ before := by simpa using hbefore
    refine ⟨List.nodup_cons.2 ⟨fun hmem => ?_, hnodup⟩, List.forall_mem_cons.2 ⟨hnew, ?_⟩⟩
    · obtain ⟨e, he, rfl⟩ := List.mem_map.1 hmem
      exact hrest e he List.mem_cons_self
    · exact fun e he hmem => hrest e he (List.mem_cons_of_mem _ hmem)

theorem Built.methods_nodup {d : Definition} (h : d.Built) :
    (d.methods.entries.map (·.2)).Nodup := by
  obtain ⟨hbuild, -⟩ := h
  exact (methods_of_methodFault? (accepted_of_build hbuild).methods).1

end Definition

theorem map_eq_of_forall₂ {α β γ : Type} {R : α → β → Prop} {f : α → γ} {g : β → γ}
    (hR : ∀ x y, R x y → g y = f x) {xs : List α} {ys : List β} (h : List.Forall₂ R xs ys) :
    ys.map g = xs.map f := by
  induction h with
  | nil => rfl
  | cons hxy _ ih => rw [List.map_cons, List.map_cons, hR _ _ hxy, ih]

namespace Model

theorem exists_of_mem_postorderAll {ms : List (String × Model)} {s : Model}
    (h : s ∈ postorderAll ms) : ∃ e ∈ ms, s ∈ e.2.postorder := by
  induction ms with
  | nil => cases h
  | cons e ms ih =>
    rw [postorderAll] at h
    rcases List.mem_append.1 h with h | h
    · exact ⟨e, List.mem_cons_self, h⟩
    · obtain ⟨e', he', hs⟩ := ih h
      exact ⟨e', List.mem_cons_of_mem _ he', hs⟩

theorem exists_read_of_mem_postorder {dialect : Dialect} {d : Definition} {m s : Model}
    (hd : d.Built) (h : read dialect d = .ok m) (hs : s ∈ m.postorder) :
    ∃ d', d'.Built ∧ read dialect d' = .ok s := by
  induction hd generalizing m with
  | intro hbuild hsub ih =>
    obtain ⟨-, hsubs, -⟩ := read_eq_ok h
    rw [postorder_eq] at hs
    rcases List.mem_append.1 hs with hs | hs
    · obtain ⟨e, he, hs⟩ := exists_of_mem_postorderAll hs
      obtain ⟨e', he', -, hread⟩ := exists_of_forall₂ (readAll_forall₂ hsubs).flip he
      exact ih e' he' hread hs
    · obtain rfl := List.mem_singleton.1 hs
      exact ⟨_, .intro hbuild hsub, h⟩

theorem read_method_names {dialect : Dialect} {d : Definition} {m : Model}
    (h : read dialect d = .ok m) : m.methods.map Method.name = d.methods.entries.map (·.2) := by
  obtain ⟨-, -, hmethods⟩ := read_eq_ok h
  refine map_eq_of_forall₂ (fun e f hf => ?_) (mapM_forall₂ hmethods)
  exact (Method.compile_yields d dialect e.1 e.2 f hf).1

theorem distinctNames_nodup (seen : List String) (ms : List Model) :
    (distinctNames seen ms).Nodup := by
  induction ms generalizing seen with
  | nil => exact .nil
  | cons m ms ih =>
    rw [distinctNames]
    split_ifs
    · exact ih seen
    · refine List.nodup_cons.2 ⟨fun hmem => ?_, ih _⟩
      exact (mem_of_mem_distinctNames hmem).2 List.mem_cons_self

end Model

namespace GeneratedUnit

open Code

/-- The routines of a model in the unit of `m`, its methods first. -/
def routineNames (m s : Model) : List String :=
  s.methods.map Method.name ++ fixedRoutines s (s.name == m.name)

/-- Whether the routines of a unit do not meet: no method is named like a fixed routine of its
model, and where the name of a model goes on from that of another, their routines differ. -/
structure RoutinesApart (m : Model) : Prop where
  own : ∀ s ∈ m.dependencyOrder, ∀ f ∈ s.methods, f.name ∉ fixedRoutines s (s.name == m.name)
  across : ∀ s ∈ m.dependencyOrder, ∀ t ∈ m.dependencyOrder, ∀ z, t.name = functionName s.name z →
    ∀ x ∈ routineNames m s, ∀ y ∈ routineNames m t, x ≠ functionName z y

variable {m : Model} {settings : Settings Float} {u : GeneratedUnit}

theorem methods_names (h : ofModel m settings = .ok u) :
    u.methods.map Function.name = m.dependencyOrder.flatMap fun s =>
      s.methods.map fun f => functionName s.name f.body.name := by
  obtain ⟨-, -, hmethods⟩ := ofModel_eq_ok h
  have hpairs : (m.dependencyOrder.flatMap fun s => s.methods.map fun f => Function.ofMethod s f) =
      (m.dependencyOrder.flatMap fun s => s.methods.map fun f => (s, f)).map
        fun p => Function.ofMethod p.1 p.2 := by
    simp only [List.map_flatMap, List.map_map, Function.comp_def]
  rw [hpairs] at hmethods
  have hnames := map_eq_of_forall₂ (f := fun p : Model × Method =>
      functionName p.1.name p.2.body.name) (g := Function.name) (fun p fn hfn => ?_)
    (List.forall₂_map_left_iff.1 (mapM_forall₂ hmethods))
  · rw [hnames]
    simp only [List.map_flatMap, List.map_map, Function.comp_def]
  · exact (Function.ofMethod_eq_ok (mapError_eq_ok hfn)).1

theorem functions_names_perm (h : ofModel m settings = .ok u)
    (hbody : ∀ s ∈ m.dependencyOrder, ∀ f ∈ s.methods, f.body.name = f.name) :
    (u.functions.map Function.name).Perm
      (m.dependencyOrder.flatMap fun s => (routineNames m s).map (functionName s.name)) := by
  obtain ⟨hseries, hscaffold, -⟩ := ofModel_eq_ok h
  have hmethods : u.methods.map Function.name = m.dependencyOrder.flatMap fun s =>
      (s.methods.map Method.name).map (functionName s.name) := by
    rw [methods_names h]
    refine List.flatMap_congr fun s hs => ?_
    rw [List.map_map]
    refine List.map_congr_left fun f hf => ?_
    rw [hbody s hs f hf]
    rfl
  have hfixed : (u.series.map Function.name ++ u.scaffold.map Function.name).Perm
      (m.dependencyOrder.flatMap fun s =>
        (fixedRoutines s (s.name == m.name)).map (functionName s.name)) := by
    simp only [hseries, hscaffold, List.map_flatMap, seriesFunctions_names,
      scaffoldFunctions_names, fixedRoutines, List.map_append]
    exact List.flatMap_append_perm _ _ _
  have hall := List.flatMap_append_perm m.dependencyOrder
    (fun s => (s.methods.map Method.name).map (functionName s.name))
    (fun s => (fixedRoutines s (s.name == m.name)).map (functionName s.name))
  rw [functions, List.map_append, List.map_append, hmethods]
  simp only [routineNames, List.map_append]
  refine (List.perm_append_comm.append_right _).trans (List.Perm.trans ?_ hall)
  rw [List.append_assoc]
  exact hfixed.append_left _

/-- Two routines of one name are routines of one model, or meet at the end of a model's name. -/
theorem RoutinesApart.disjoint (h : RoutinesApart m) {s t : Model} (hs : s ∈ m.dependencyOrder)
    (ht : t ∈ m.dependencyOrder) (hne : s ≠ t) :
    List.Disjoint ((routineNames m s).map (functionName s.name))
      ((routineNames m t).map (functionName t.name)) := by
  intro name hname hname'
  obtain ⟨x, hx, rfl⟩ := List.mem_map.1 hname
  obtain ⟨y, hy, heq⟩ := List.mem_map.1 hname'
  rcases functionName_eq_iff.1 heq.symm with ⟨hname, -⟩ | ⟨z, hname, hxy⟩ | ⟨z, hname, hyx⟩
  · exact hne (Model.eq_of_mem_distinctNames hs ht hname)
  · exact h.across s hs t ht z hname x hx y hy hxy
  · exact h.across t ht s hs z hname y hy x hx hyx

theorem RoutinesApart.of_nodup
    (hown : ∀ s ∈ m.dependencyOrder, ((routineNames m s).map (functionName s.name)).Nodup)
    (hacross : ∀ s ∈ m.dependencyOrder, ∀ t ∈ m.dependencyOrder, s ≠ t →
      List.Disjoint ((routineNames m s).map (functionName s.name))
        ((routineNames m t).map (functionName t.name))) : RoutinesApart m := by
  refine ⟨fun s hs f hf hmem => ?_, fun s hs t ht z hname x hx y hy hxy => ?_⟩
  · have hnodup := (hown s hs).of_map
    rw [routineNames, List.nodup_append] at hnodup
    exact hnodup.2.2 f.name (List.mem_map_of_mem hf) f.name hmem rfl
  · have hne : s ≠ t := by
      rintro rfl
      have hlength := congrArg (fun n => n.toList.length) hname
      simp [functionName] at hlength
    have hmeet : functionName t.name y = functionName s.name x := by
      rw [hname, hxy, functionName_functionName]
    exact hacross s hs t ht hne (List.mem_map_of_mem hx) (hmeet ▸ List.mem_map_of_mem hy)

theorem names_nodup_iff (h : ofModel m settings = .ok u)
    (hbody : ∀ s ∈ m.dependencyOrder, ∀ f ∈ s.methods, f.body.name = f.name)
    (hmethods : ∀ s ∈ m.dependencyOrder, (s.methods.map Method.name).Nodup)
    (hdistinct : ∀ s ∈ m.dependencyOrder, s.definition.Distinct) :
    (u.functions.map Function.name).Nodup ↔ RoutinesApart m := by
  rw [(functions_names_perm h hbody).nodup_iff, List.nodup_flatMap]
  constructor
  · rintro ⟨hown, hacross⟩
    have hsymm : Std.Symm (Function.onFun List.Disjoint fun s =>
        (routineNames m s).map (functionName s.name)) := ⟨fun _ _ h _ ht hs => h hs ht⟩
    exact .of_nodup hown fun s hs t ht hne => hacross.forall hs ht hne
  · refine fun hapart => ⟨fun s hs => ?_, ?_⟩
    · refine List.Nodup.map (fun x y => functionName_right_inj.1) (List.nodup_append.2
        ⟨hmethods s hs, fixedRoutines_nodup (hdistinct s hs) _, fun x hx y hy heq => ?_⟩)
      obtain ⟨f, hf, rfl⟩ := List.mem_map.1 hx
      exact hapart.own s hs f hf (heq ▸ hy)
    · exact (Model.distinctNames_nodup _ _).pairwise_of_forall_ne fun s hs t ht hne =>
        hapart.disjoint hs ht hne

theorem assemble_eq_ok {g : GeneratorSettings} {d : Definition}
    (hm : Model.compile g.dialect d = .ok m) (hu : ofModel m settings = .ok u) :
    UnitFile.assemble g settings d = .ok ⟨d.name, g.unitFile d.name, u.text⟩ := by
  rw [UnitFile.assemble, hm, ok_bind, hu]
  rfl

/-- In every unit that a built definition gives, all functions have different names if and only if
no method is named like a fixed routine of its model, and no two routines meet where the name of one
model goes on from that of another. -/
theorem function_names_nodup_iff {g : GeneratorSettings} {d : Definition} {file : UnitFile}
    (hd : d.Built) (h : UnitFile.assemble g settings d = .ok file) :
    ∃ m u, Model.compile g.dialect d = .ok m ∧ ofModel m settings = .ok u ∧ file.text = u.text ∧
      ((u.functions.map Function.name).Nodup ↔ RoutinesApart m) := by
  obtain ⟨m, hm, h⟩ := bind_eq_ok h
  obtain ⟨u, hu, h⟩ := bind_eq_ok h
  cases h
  have hread : ∀ s ∈ m.dependencyOrder, ∃ d', d'.Built ∧ Model.read g.dialect d' = .ok s :=
    fun s hs => Model.exists_read_of_mem_postorder hd (Model.compile_eq_ok hm).1
      (Model.mem_of_mem_distinctNames hs).1
  refine ⟨m, u, hm, hu, rfl, names_nodup_iff hu (fun s hs f hf => ?_) (fun s hs => ?_)
    fun s hs => ?_⟩
  · obtain ⟨d', -, hs⟩ := hread s hs
    obtain ⟨e, -, hf⟩ := Model.read_methods hs hf
    obtain ⟨hname, -, hbody, -⟩ := Method.compile_yields d' g.dialect e.1 e.2 f hf
    rw [hbody, hname]
  · obtain ⟨d', hd', hs⟩ := hread s hs
    rw [Model.read_method_names hs]
    exact hd'.methods_nodup
  · obtain ⟨d', hd', hs⟩ := hread s hs
    rw [(Model.read_eq_ok hs).1]
    exact hd'.distinct

/-- The name of the sub-model goes on from that of the basin, and yet no routines meet. -/
theorem basin_names_apart :
    ∃ file m u, UnitFile.assemble {} .standard (basin "basin_part") = .ok file ∧
      (basin "basin_part").Built ∧ Model.compile {} (basin "basin_part") = .ok m ∧
      ofModel m .standard = .ok u ∧ file.text = u.text ∧
      (u.functions.map Function.name).Nodup ∧ RoutinesApart m := by
  have hbuilt : (basin "basin_part").Built := by
    refine .of_canonical (by decide) (by decide +kernel) (by decide) fun e he => ?_
    obtain rfl := List.mem_singleton.1 he
    exact .of_canonical (by decide) (by decide +kernel) (by decide) (by simp)
  have hrun : ((Model.compile {} (basin "basin_part")).toOption.any fun m =>
      (ofModel m .standard).toOption.any fun u => (u.functions.map Function.name).Nodup) := by
    decide +kernel
  obtain ⟨m, hm, hrun⟩ := exists_ok_of_any hrun
  obtain ⟨u, hu, hnodup⟩ := exists_ok_of_any hrun
  have hfile := assemble_eq_ok (g := {}) hm hu
  obtain ⟨m', u', hm', hu', htext, hiff⟩ := function_names_nodup_iff hbuilt hfile
  cases hm'.symm.trans hm
  cases hu'.symm.trans hu
  exact ⟨_, m, u, hfile, hbuilt, hm', hu', htext, of_decide_eq_true hnodup,
    hiff.1 (of_decide_eq_true hnodup)⟩

def weir : Definition where
  name := "weir"
  sources := [⟨"weir.mdl", "def init(model):\n    flu.q = 1.0\n"⟩]
  groups := [{ kind := .fluxes, vars := [{ name := "q" }] }]
  methods := { run := ["init"] }

theorem weir_names_meet :
    ∃ file m u, UnitFile.assemble {} .standard weir = .ok file ∧ weir.Built ∧
      Model.compile {} weir = .ok m ∧ ofModel m .standard = .ok u ∧ file.text = u.text ∧
      (u.functions.map Function.name).count "weir_init" = 2 ∧
      ¬(u.functions.map Function.name).Nodup := by
  have hrun : ((Model.compile {} weir).toOption.any fun m =>
      (ofModel m .standard).toOption.any fun u =>
        (u.functions.map Function.name).count "weir_init" = 2) := by
    decide +kernel
  obtain ⟨m, hm, hu⟩ := exists_ok_of_any hrun
  obtain ⟨u, hu, hcount⟩ := exists_ok_of_any hu
  have hcount : (u.functions.map Function.name).count "weir_init" = 2 := of_decide_eq_true hcount
  have hbuilt : weir.Built :=
    .of_canonical (by decide) (by decide +kernel) (by decide) (by simp [weir])
  refine ⟨_, m, u, assemble_eq_ok (g := {}) hm hu, hbuilt,
    hm, hu, rfl, hcount, fun hnodup => ?_⟩
  have hle := List.nodup_iff_count_le_one.1 hnodup "weir_init"
  omega

end GeneratedUnit

end ProcessModel
