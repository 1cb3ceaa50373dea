import ProcessModel.Proofs.Canonical
import ProcessModel.Proofs.Compiled
import ProcessModel.Proofs.Layout
import ProcessModel.Simulation

/-! Settings of the solver in the storage of a model.

A model that is integrated adaptively gets the solver parameters its draft lacks as plain scalars, and
takes those it declares as they are. An array refuses the settings, and a variable of whole numbers or
of truth values casts them. -/

namespace ProcessModel

namespace Definition

variable {d : Definition}

theorem group?_sortGroups (h : (d.groups.map (·.kind)).Nodup) (kind : GroupKind) :
    group? { d with groups := sortGroups d.groups } kind = d.group? kind := by
  have hperm := sortGroups_perm d.groups
  cases hg : d.group? kind with
  | some g =>
    obtain rfl : g.kind = kind := by simpa using List.find?_some hg
    exact find?_of_nodup (f := fun g : Group => g.kind) ((hperm.map _).nodup_iff.2 h)
      (hperm.mem_iff.2 (List.mem_of_find?_eq_some hg))
  | none =>
    refine List.find?_eq_none.2 fun g hmem => ?_
    exact List.find?_eq_none.1 hg g (hperm.mem_iff.1 hmem)

theorem var?_of_build {draft : Definition} (h : build draft = .ok d) (hplan : d.plan = .adaptive)
    {name : String} (hname : name ∈ solverParameters) :
    d.var? .solver name = some ((draft.var? .solver name).getD { name }) := by
  obtain ⟨haccepted, rfl⟩ := build_eq_ok_iff.1 h
  rw [plan_canonical] at hplan
  rw [var?, canonical, if_pos hplan, group?_withSolverParameters, group?_sortGroups haccepted.kinds,
    Option.bind_some, get?_addSolverParameters _ hname, var?]
  cases draft.group? .solver <;> rfl

end Definition

namespace Store

variable {d : Definition} {s s' : Store}

theorem setScalar_eq_ok_iff (hd : d.Built) (h : Fits d s) {p : VarPath} {v : Variable}
    (hp : d.declared? p = some v) (value : Float) :
    s.setScalar p.key value = .ok s' ↔
      v.ndim = 0 ∧ ∃ slot, s.get? p.key = some slot ∧ s' = s.put p.key (slot.fill [] #[value]) := by
  obtain ⟨slot, hslot, hfits⟩ := h.exists_slot hd hp
  simp only [setScalar, setArray, slot_of_get? hslot, ok_bind, List.length_nil, hfits.ndim, hslot,
    Option.some.injEq, exists_eq_left']
  by_cases hndim : v.ndim = 0
  · have hshape : slot.shape = [] := List.eq_nil_of_length_eq_zero (hfits.ndim.trans hndim)
    simp [hndim, hshape, eq_comm, pure, Except.pure]
  · simp [hndim, throw, throwThe, MonadExceptOf.throw]

theorem scalar_of_get? {key : String} {slot : Slot} (h : s.get? key = some slot)
    (hshape : slot.shape = []) : s.scalar key = .ok (slot.data[0]?.getD 0.0) := by
  simp [scalar, slot_of_get? h, Slot.ndim, hshape, pure, Except.pure]

def assign (s : Store) (entries : List (VarPath × Float)) : Except Error Store :=
  entries.foldlM (fun s e => s.setScalar e.1.key e.2) s

theorem assign_cons (s : Store) (e : VarPath × Float) (entries : List (VarPath × Float)) :
    s.assign (e :: entries) = (s.setScalar e.1.key e.2).bind fun s => s.assign entries :=
  List.foldlM_cons

variable {entries : List (VarPath × Float)}

theorem exists_assign_iff (hd : d.Built) (h : Fits d s)
    (hdeclared : ∀ e ∈ entries, (d.declared? e.1).isSome) :
    (∃ s', s.assign entries = .ok s') ↔
      ∀ e ∈ entries, ∀ v, d.declared? e.1 = some v → v.ndim = 0 := by
  induction entries generalizing s with
  | nil => simp [assign, pure, Except.pure]
  | cons e entries ih =>
    obtain ⟨hhead, htail⟩ := List.forall_mem_cons.1 hdeclared
    obtain ⟨v, hv⟩ := Option.isSome_iff_exists.1 hhead
    rw [assign_cons, List.forall_mem_cons]
    simp only [hv, Option.some.injEq, forall_eq']
    constructor
    · rintro ⟨s', hs'⟩
      obtain ⟨s₁, hs₁, hs'⟩ := bind_eq_ok hs'
      have hfits : Fits d s₁ := setArray_fits hd h _ rfl s₁ hs₁
      exact ⟨((setScalar_eq_ok_iff hd h hv _).1 hs₁).1, (ih hfits htail).1 ⟨s', hs'⟩⟩
    · rintro ⟨hndim, hrest⟩
      obtain ⟨slot, hslot, -⟩ := h.exists_slot hd hv
      have hs₁ := (setScalar_eq_ok_iff hd h hv e.2).2 ⟨hndim, slot, hslot, rfl⟩
      rw [hs₁]
      exact (ih (setArray_fits hd h _ rfl _ hs₁) htail).2 hrest

theorem assign_eq_ok (hd : d.Built) (h : Fits d s)
    (hdeclared : ∀ e ∈ entries, (d.declared? e.1).isSome) (hnodup : (entries.map (·.1)).Nodup)
    (hs' : s.assign entries = .ok s') :
    (∀ key, (∀ e ∈ entries, e.1.key ≠ key) → s'.get? key = s.get? key) ∧
      ∀ e ∈ entries, ∀ v, d.declared? e.1 = some v → s'.scalar e.1.key = .ok (v.element.cast e.2) := by
  induction entries generalizing s with
  | nil =>
    cases hs'
    simp
  | cons e entries ih =>
    obtain ⟨hhead, htail⟩ := List.forall_mem_cons.1 hdeclared
    obtain ⟨hfresh, hnodup⟩ := List.nodup_cons.1 hnodup
    obtain ⟨v, hv⟩ := Option.isSome_iff_exists.1 hhead
    rw [assign_cons] at hs'
    obtain ⟨s₁, hs₁, hs'⟩ := bind_eq_ok hs'
    obtain ⟨hframe, hvalues⟩ := ih (setArray_fits hd h _ rfl s₁ hs₁) htail hnodup hs'
    obtain ⟨hndim, slot, hslot, rfl⟩ := (setScalar_eq_ok_iff hd h hv _).1 hs₁
    have hapart : ∀ e' ∈ entries, e'.1.key ≠ e.1.key := fun e' he' hkey => by
      have hpath := hd.path_eq_of_key (htail e' he') hhead hkey
      exact hfresh (List.mem_map.2 ⟨e', he', hpath⟩)
    refine ⟨fun key hkey => ?_, List.forall_mem_cons.2 ⟨fun w hw => ?_, hvalues⟩⟩
    · obtain ⟨hne, hrest⟩ := List.forall_mem_cons.1 hkey
      rw [hframe key hrest, get?_put, if_neg hne]
    · obtain rfl := Option.some.inj (hv.symm.trans hw)
      have hget : s'.get? e.1.key = some (slot.fill [] #[e.2]) := by
        rw [hframe _ hapart, get?_put, if_pos rfl, hslot]
        rfl
      rw [scalar_of_get? hget rfl, ← (h.slot_fits hd hv hslot).element]
      simp [Slot.fill]

end Store

namespace Simulation

def parameterPath (name : String) : VarPath := ⟨[], .kind .solver, name⟩

theorem parameterPath_key (name : String) :
    (parameterPath name).key = GroupKind.solver.name ++ "." ++ name := by
  have hkey : (parameterPath name).key = Text.joinWith "." [GroupKind.solver.name, name] := rfl
  rw [hkey, joinWith_cons _ (List.cons_ne_nil _ _)]
  exact congrArg _ (qualified_nil name)

def assignments (settings : Settings Float) : List (VarPath × Float) :=
  [(parameterPath "abserrormax", settings.absErrorMax),
    (parameterPath "relerrormax", settings.relErrorMax.getD Real64.nan),
    (parameterPath "reldtmin", settings.relDtMin),
    (parameterPath "reldtmax", settings.relDtMax)]

theorem setParameters_eq_assign (settings : Settings Float) (s : Store) :
    setParameters settings s = s.assign (assignments settings) := by
  have hentries : assignments settings =
      (Definition.solverParameters.zip (parameterValues settings)).map fun p =>
        (parameterPath p.1, p.2) := rfl
  rw [hentries, Store.assign, List.foldlM_map]
  simp only [parameterPath_key]
  rfl

theorem assignments_nodup (settings : Settings Float) : ((assignments settings).map (·.1)).Nodup := by
  have hpaths : (assignments settings).map (·.1) = Definition.solverParameters.map parameterPath := rfl
  rw [hpaths]
  decide

variable {settings : Settings Float}

theorem exists_of_mem_assignments {e : VarPath × Float} (h : e ∈ assignments settings) :
    ∃ name ∈ Definition.solverParameters, e.1 = parameterPath name :=
  have hpath : e.1 ∈ Definition.solverParameters.map parameterPath := List.mem_map_of_mem h
  (List.mem_map.1 hpath).imp fun _ h => ⟨h.1, h.2.symm⟩

theorem exists_mem_assignments (settings : Settings Float) {name : String}
    (h : name ∈ Definition.solverParameters) : ∃ e ∈ assignments settings, e.1 = parameterPath name :=
  have hpath : parameterPath name ∈ (assignments settings).map (·.1) :=
    List.mem_map_of_mem (f := parameterPath) h
  List.mem_map.1 hpath

/-- Whether a simulation has the solver parameters that settings ask for. -/
structure Configured (settings : Settings Float) (sim : Simulation) : Prop where
  absErrorMax : sim.store.scalar "solver.abserrormax" = .ok settings.absErrorMax
  relErrorMax : sim.store.scalar "solver.relerrormax" = .ok (settings.relErrorMax.getD Real64.nan)
  relDtMin : sim.store.scalar "solver.reldtmin" = .ok settings.relDtMin
  relDtMax : sim.store.scalar "solver.reldtmax" = .ok settings.relDtMax

theorem configured_iff {sim : Simulation} :
    Configured settings sim ↔ ∀ e ∈ assignments settings, sim.store.scalar e.1.key = .ok e.2 := by
  simp only [assignments, List.forall_mem_cons, parameterPath_key]
  exact ⟨fun h => ⟨h.1, h.2, h.3, h.4, by simp⟩, fun ⟨h₁, h₂, h₃, h₄, _⟩ => ⟨h₁, h₂, h₃, h₄⟩⟩

theorem ofModel_eq {m : Model} (hplan : m.plan = .adaptive) (hsettings : settings.fault? = none) :
    ofModel m settings =
      ((Store.ofDefinition m.definition).assign (assignments settings)).map fun store =>
        { model := m, store, solver := { settings, vars := .initial } } := by
  have hsolver : Solver.ofSettings settings = .ok { settings, vars := .initial } := by
    rw [Solver.ofSettings, hsettings]
  unfold ofModel
  simp only [hsolver, Except.mapError, ok_bind, if_pos hplan, setParameters_eq_assign]
  cases (Store.ofDefinition m.definition).assign (assignments settings) <;> rfl

section Adaptive

open Definition

variable {draft d : Definition} {m : Model} {settings : Settings Float} {sim : Simulation}

theorem declared?_parameterPath (hbuild : build draft = .ok d) (hplan : d.plan = .adaptive) {name : String}
    (hname : name ∈ solverParameters) :
    d.declared? (parameterPath name) = some ((draft.var? .solver name).getD { name }) :=
  var?_of_build hbuild hplan hname

theorem declared?_of_mem_assignments (hbuild : build draft = .ok d) (hplan : d.plan = .adaptive) :
    ∀ e ∈ assignments settings, (d.declared? e.1).isSome := by
  intro e he
  obtain ⟨name, hname, hpath⟩ := exists_of_mem_assignments he
  rw [hpath, declared?_parameterPath hbuild hplan hname]
  rfl

/-- A model takes accepted settings unless its draft declares an array among the solver parameters. -/
theorem exists_ofModel_iff (hd : d.Built) (hbuild : build draft = .ok d) (hplan : d.plan = .adaptive)
    (hm : m.definition = d) (hsettings : settings.fault? = none) :
    (∃ sim, ofModel m settings = .ok sim) ↔
      ∀ name ∈ solverParameters, ∀ v, draft.var? .solver name = some v → v.ndim = 0 := by
  have hassign : (∃ sim, ofModel m settings = .ok sim) ↔
      ∃ store, (Store.ofDefinition d).assign (assignments settings) = .ok store := by
    rw [ofModel_eq (by rw [Model.plan, hm, hplan]) hsettings, hm]
    cases (Store.ofDefinition d).assign (assignments settings) <;> simp [Except.map]
  rw [hassign, Store.exists_assign_iff hd (Store.fits_ofDefinition hd)
    (declared?_of_mem_assignments hbuild hplan)]
  constructor
  · intro h name hname v hv
    obtain ⟨e, he, hpath⟩ := exists_mem_assignments settings hname
    exact h e he v (by rw [hpath, declared?_parameterPath hbuild hplan hname, hv]; rfl)
  · intro h e he v hv
    obtain ⟨name, hname, hpath⟩ := exists_of_mem_assignments he
    rw [hpath, declared?_parameterPath hbuild hplan hname] at hv
    cases hw : draft.var? .solver name with
    | none =>
      rw [hw] at hv
      cases hv
      rfl
    | some w =>
      rw [hw] at hv
      cases hv
      exact h name hname w hw

theorem scalar_of_ofModel (hd : d.Built) (hbuild : build draft = .ok d) (hplan : d.plan = .adaptive)
    (hm : m.definition = d) (hsettings : settings.fault? = none) (hsim : ofModel m settings = .ok sim) :
    ∀ e ∈ assignments settings, sim.store.scalar e.1.key =
      .ok (((draft.var? .solver e.1.name).getD { name := e.1.name }).element.cast e.2) := by
  have hstore : (Store.ofDefinition d).assign (assignments settings) = .ok sim.store := by
    rw [ofModel_eq (by rw [Model.plan, hm, hplan]) hsettings, hm] at hsim
    cases hassign : (Store.ofDefinition d).assign (assignments settings) with
    | error e =>
      rw [hassign] at hsim
      cases hsim
    | ok store =>
      rw [hassign] at hsim
      cases hsim
      rfl
  intro e he
  obtain ⟨name, hname, hpath⟩ := exists_of_mem_assignments he
  refine (Store.assign_eq_ok hd (Store.fits_ofDefinition hd)
    (declared?_of_mem_assignments hbuild hplan) (assignments_nodup settings) hstore).2 e he _ ?_
  rw [hpath]
  exact declared?_parameterPath hbuild hplan hname

end Adaptive

def fractional : Settings Float where
  absErrorMax := 0.5
  relErrorMax := some 0.5
  relDtMin := 0.5
  relDtMax := 0.5
  dtIncrease := 2.0
  dtDecrease := 10.0
  acceptsBeforeGrowth := 1

theorem fractional_accepted : fractional.fault? = none := by
  decide +kernel

theorem half_of_mem_assignments {e : VarPath × Float} (h : e ∈ assignments fractional) : e.2 = 0.5 := by
  simp only [assignments, List.mem_cons, List.not_mem_nil, or_false] at h
  rcases h with rfl | rfl | rfl | rfl <;> rfl

theorem cast_half_iff (element : Element) : element.cast 0.5 = 0.5 ↔ element = .float := by
  cases element <;> decide +kernel

open Definition in
/-- Before the first step of a model that is integrated adaptively, every solver parameter is assigned its
setting. This succeeds if the draft declares no array among the solver parameters, and then each holds its
setting cast to its type, those that the draft lacks the setting itself. All accepted settings reach the
model as they are exactly if the draft declares solver parameters, if any, as scalars of floating point
numbers. -/
theorem settings_reach_parameters_iff {draft d : Definition} {dialect : Dialect} {m : Model}
    (hbuild : build draft = .ok d) (hsub : ∀ e ∈ d.submodels, e.2.Built) (hplan : d.plan = .adaptive)
    (hm : Model.compile dialect d = .ok m) :
    (∀ settings : Settings Float, settings.fault? = none →
      ((∃ sim, ofModel m settings = .ok sim) ↔
        ∀ name ∈ solverParameters, ∀ v, draft.var? .solver name = some v → v.ndim = 0) ∧
      ∀ sim, ofModel m settings = .ok sim → ∀ e ∈ assignments settings,
        sim.store.scalar e.1.key =
          .ok (((draft.var? .solver e.1.name).getD { name := e.1.name }).element.cast e.2)) ∧
    ((∀ settings : Settings Float, settings.fault? = none →
        ∃ sim, ofModel m settings = .ok sim ∧ Configured settings sim) ↔
      ∀ name ∈ solverParameters, ∀ v, draft.var? .solver name = some v →
        v.ndim = 0 ∧ v.element = .float) := by
  have hd : d.Built := ⟨hbuild, hsub⟩
  have hmd : m.definition = d := (Model.read_eq_ok (Model.compile_eq_ok hm).1).1
  refine ⟨fun settings hsettings => ⟨exists_ofModel_iff hd hbuild hplan hmd hsettings,
    fun sim => scalar_of_ofModel hd hbuild hplan hmd hsettings⟩, ?_, ?_⟩
  · intro h name hname v hv
    obtain ⟨sim, hsim, hconfigured⟩ := h fractional fractional_accepted
    have hndim := (exists_ofModel_iff hd hbuild hplan hmd fractional_accepted).1 ⟨sim, hsim⟩ name hname v hv
    obtain ⟨e, he, hpath⟩ := exists_mem_assignments fractional hname
    have hcast := scalar_of_ofModel hd hbuild hplan hmd fractional_accepted hsim e he
    rw [configured_iff.1 hconfigured e he, show e.1.name = name from congrArg VarPath.name hpath, hv,
      Option.getD_some, half_of_mem_assignments he, Except.ok.injEq] at hcast
    exact ⟨hndim, (cast_half_iff _).1 hcast.symm⟩
  · intro h settings hsettings
    obtain ⟨sim, hsim⟩ := (exists_ofModel_iff hd hbuild hplan hmd hsettings).2
      fun name hname v hv => (h name hname v hv).1
    refine ⟨sim, hsim, configured_iff.2 fun e he => ?_⟩
    obtain ⟨name, hname, hpath⟩ := exists_of_mem_assignments he
    rw [scalar_of_ofModel hd hbuild hplan hmd hsettings hsim e he,
      show e.1.name = name from congrArg VarPath.name hpath]
    cases hv : draft.var? .solver name with
    | none => rfl
    | some v =>
      rw [Option.getD_some, (h name hname v hv).2]
      rfl

def forebay (element : Element) : Definition where
  name := "forebay"
  sources := [⟨"forebay.mdl", "def f(model):\n    sta.y = 1.0\n"⟩]
  groups :=
    [{ kind := .solver, vars := [{ name := "abserrormax", element }] },
      { kind := .states, vars := [{ name := "y", numeric := true }] }]
  methods := { partOde := ["f"] }

def forebayBuilt (element : Element) : Definition where
  name := "forebay"
  sources := [⟨"forebay.mdl", "def f(model):\n    sta.y = 1.0\n"⟩]
  groups :=
    [{ kind := .solver
       vars := [{ name := "abserrormax", element }, { name := "relerrormax" }, { name := "reldtmin" },
         { name := "reldtmax" }] },
      { kind := .states, vars := [{ name := "y", numeric := true }] }]
  methods := { partOde := ["f"] }

theorem forebay_build (element : Element) : Definition.build (forebay element) = .ok (forebayBuilt element) := by
  refine Definition.build_eq_ok_iff.2 ⟨?_, ?_⟩
  · cases element <;> exact ⟨by decide, by decide, by decide, by decide, by decide, by decide, by decide⟩
  · rw [Definition.canonical_of_sorted (by cases element <;> decide), if_pos (by cases element <;> decide)]
    cases element <;> rfl

theorem forebay_settings_reach :
    Definition.build (forebay .float) = .ok (forebayBuilt .float) ∧
      (forebayBuilt .float).plan = .adaptive ∧
      ∃ m, Model.compile {} (forebayBuilt .float) = .ok m ∧
        ∀ settings : Settings Float, settings.fault? = none →
          ∃ sim, ofModel m settings = .ok sim ∧ Configured settings sim := by
  have hcompile : (Model.compile {} (forebayBuilt .float)).toOption.isSome := by decide +kernel
  obtain ⟨m, hm⟩ := Option.isSome_iff_exists.1 hcompile
  have hm := toOption_eq_some hm
  have hplan : (forebayBuilt .float).plan = .adaptive := by decide
  have hsub : ∀ e ∈ (forebayBuilt .float).submodels, e.2.Built := by simp [forebayBuilt]
  refine ⟨forebay_build _, hplan, m, hm, ?_⟩
  refine (settings_reach_parameters_iff (forebay_build _) hsub hplan hm).2.2 fun name hname v hv => ?_
  have hvars : ∀ name ∈ Definition.solverParameters, ∀ v ∈ (forebay .float).var? .solver name,
      v.ndim = 0 ∧ v.element = .float := by
    decide
  exact hvars name hname v hv

/-- A tolerance declared as a whole number is lost. -/
theorem forebay_loses_tolerance :
    Definition.build (forebay .int) = .ok (forebayBuilt .int) ∧
      (forebayBuilt .int).plan = .adaptive ∧ (Settings.standard : Settings Float).fault? = none ∧
      ∃ m sim, Model.compile {} (forebayBuilt .int) = .ok m ∧ ofModel m .standard = .ok sim ∧
        sim.store.scalar "solver.abserrormax" = .ok 0.0 ∧ ¬ Configured .standard sim := by
  have hrun : ((Model.compile {} (forebayBuilt .int)).toOption.any fun m =>
      (ofModel m .standard).toOption.any fun sim =>
        (sim.store.scalar "solver.abserrormax").toOption = some 0.0) := by
    decide +kernel
  have hstandard : (0.0 : Float) ≠ (Settings.standard : Settings Float).absErrorMax := by decide +kernel
  obtain ⟨m, hm, hrun⟩ := exists_ok_of_any hrun
  obtain ⟨sim, hsim, hzero⟩ := exists_ok_of_any hrun
  have hscalar := toOption_eq_some (of_decide_eq_true hzero)
  refine ⟨forebay_build _, by decide, by decide +kernel, m, sim, hm,
    hsim, hscalar, fun h => hstandard ?_⟩
  exact Except.ok.inj (hscalar.symm.trans h.absErrorMax)

end Simulation

end ProcessModel
