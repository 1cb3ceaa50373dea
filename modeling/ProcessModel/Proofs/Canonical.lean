import Mathlib.Data.List.Sort
import ProcessModel.Proofs.FunctionNames

/-! The canonical form of definitions.

It does not depend on the order of the groups of a draft: groups of different kinds have one
increasing order. The solver parameters that a model gets take no part in the integration. -/

namespace ProcessModel

namespace Definition

section Order

variable {d : Definition} {groups : List Group}

theorem sorted_lt_of_nodup (hsorted : groups.Pairwise (·.kind.rank ≤ ·.kind.rank))
    (h : (groups.map (·.kind)).Nodup) : groups.Pairwise (·.kind.rank < ·.kind.rank) := by
  rw [List.Nodup, List.pairwise_map] at h
  exact hsorted.imp₂ (fun a b hle hne => Nat.lt_of_le_of_ne hle fun heq => hne (GroupKind.rank_inj heq)) h

theorem eq_of_sorted {groups' : List Group} (hsorted : groups.Pairwise (·.kind.rank ≤ ·.kind.rank))
    (hsorted' : groups'.Pairwise (·.kind.rank ≤ ·.kind.rank)) (hperm : groups.Perm groups')
    (h : (groups.map (·.kind)).Nodup) : groups = groups' := by
  refine hperm.eq_of_pairwise (fun a b ha hb hab hba => ?_) hsorted hsorted'
  have hkind : a.kind = b.kind := GroupKind.rank_inj (Nat.le_antisymm hab hba)
  exact List.inj_on_of_nodup_map h ha (hperm.mem_iff.2 hb) hkind

theorem sortGroups_eq_of_perm (hperm : groups.Perm d.groups) (h : (d.groups.map (·.kind)).Nodup) :
    sortGroups groups = sortGroups d.groups := by
  have hperm' := (sortGroups_perm groups).trans (hperm.trans (sortGroups_perm d.groups).symm)
  refine eq_of_sorted (sortGroups_sorted _) (sortGroups_sorted _) hperm' ?_
  exact (((sortGroups_perm groups).trans hperm).map _).nodup_iff.2 h

end Order

section Parameters

theorem vars_completed (g : Group) : g.vars <+: (completed g).vars := by
  unfold completed
  split_ifs
  · exact List.prefix_append _ _
  · exact g.vars.prefix_rfl

theorem completed_numeric (g : Group) : (completed g).numeric = g.numeric := by
  unfold completed
  split_ifs
  · simp [addSolverParameters, Group.numeric, List.filter_map, Function.comp_def]
  · rfl

variable {g : Group}

theorem get?_addSolverParameters (g : Group) {name : String} (h : name ∈ solverParameters) :
    (addSolverParameters g).get? name = some ((g.get? name).getD { name }) := by
  rw [addSolverParameters, Group.get?, List.find?_append, ← Group.get?]
  cases hg : g.get? name with
  | some v => rfl
  | none =>
    have hmem : name ∈ solverParameters.filter fun n => (g.get? n).isNone :=
      List.mem_filter.2 ⟨h, by rw [hg]; rfl⟩
    have hnodup : (solverParameters.filter fun n => (g.get? n).isNone).Nodup := .filter _ (by decide)
    have hfind := find?_of_nodup (f := id) (by simpa using hnodup) hmem
    rw [Option.none_or, List.find?_map]
    simpa [Function.comp_def] using hfind

theorem completed_completed (g : Group) : completed (completed g) = completed g := by
  unfold completed
  split_ifs with hkind hkind'
  · have hnone : (solverParameters.filter fun n => ((addSolverParameters g).get? n).isNone) = [] :=
      List.filter_eq_nil_iff.2 fun name hname => by
        simp [get?_addSolverParameters g hname]
    rw [addSolverParameters, hnone, List.map_nil, List.append_nil]
  · rfl
  · rfl

variable {d : Definition}

theorem mem_solverGroups_of_mem (h : g ∈ d.groups) : g ∈ d.solverGroups := by
  unfold solverGroups
  split_ifs
  · exact h
  · exact (sortGroups_perm _).mem_iff.2 (List.mem_append_left _ h)

theorem find?_solverGroups (d : Definition) :
    d.solverGroups.find? (fun g => g.kind == .solver) =
      some ((d.group? .solver).getD { kind := .solver }) := by
  unfold solverGroups
  cases hg : d.group? .solver with
  | some g => exact hg
  | none =>
    obtain ⟨g, hfound⟩ : ∃ g, (sortGroups (d.groups ++ [{ kind := .solver }])).find?
        (fun g => g.kind == .solver) = some g := by
      refine Option.isSome_iff_exists.1 (List.find?_isSome.2 ⟨{ kind := .solver }, ?_, rfl⟩)
      exact (sortGroups_perm _).mem_iff.2 (List.mem_append_right _ (List.mem_singleton_self _))
    have hmem := (sortGroups_perm _).mem_iff.1 (List.mem_of_find?_eq_some hfound)
    have hkind := List.find?_some hfound
    rcases List.mem_append.1 hmem with hold | hnew
    · exact absurd hkind (List.find?_eq_none.1 hg g hold)
    · rw [if_neg (by simp), hfound, List.mem_singleton.1 hnew]
      rfl

theorem group?_withSolverParameters (d : Definition) :
    d.withSolverParameters.group? .solver =
      some (addSolverParameters ((d.group? .solver).getD { kind := .solver })) := by
  have hkind := List.find?_some (find?_solverGroups d)
  rw [group?, withSolverParameters_groups, List.find?_map]
  simp only [Function.comp_def, completed_kind]
  rw [find?_solverGroups, Option.map_some, completed, if_pos (by simpa using hkind)]

theorem sorted_withSolverParameters (h : d.groups.Pairwise (·.kind.rank ≤ ·.kind.rank)) :
    d.withSolverParameters.groups.Pairwise (·.kind.rank ≤ ·.kind.rank) := by
  rw [withSolverParameters_groups, List.pairwise_map]
  simp only [completed_kind]
  unfold solverGroups
  split_ifs
  · exact h
  · exact sortGroups_sorted _

theorem plan_withSolverParameters (d : Definition) : d.withSolverParameters.plan = d.plan := by
  have hgroups : (d.solverGroups.any fun g => !g.numeric.isEmpty) = d.isNumeric := by
    unfold solverGroups
    split_ifs
    · rfl
    · rw [(sortGroups_perm _).any_eq, List.any_append]
      simp [isNumeric, Group.numeric]
  have hnumeric : d.withSolverParameters.isNumeric = d.isNumeric := by
    rw [isNumeric, withSolverParameters_groups, List.any_map, ← hgroups]
    simp [Function.comp_def, completed_numeric]
  unfold plan
  rw [hnumeric]
  rfl

theorem withSolverParameters_withSolverParameters (d : Definition) :
    d.withSolverParameters.withSolverParameters = d.withSolverParameters := by
  have hgroups : d.withSolverParameters.solverGroups.map completed = d.solverGroups.map completed := by
    have hsolver : (d.withSolverParameters.group? .solver).isSome := by
      rw [group?_withSolverParameters]
      rfl
    rw [solverGroups, if_pos hsolver, withSolverParameters_groups, List.map_map]
    simp [Function.comp_def, completed_completed]
  have hself : { d.withSolverParameters with groups := d.withSolverParameters.solverGroups.map completed } =
      d.withSolverParameters := by
    rw [hgroups]
    rfl
  exact hself

end Parameters

theorem sortGroups_of_sorted {groups : List Group}
    (h : groups.Pairwise (·.kind.rank ≤ ·.kind.rank)) : sortGroups groups = groups :=
  List.mergeSort_of_pairwise (by simpa using h)

section Canonical

variable {draft : Definition}

theorem canonical_sorted (draft : Definition) :
    draft.canonical.groups.Pairwise (·.kind.rank ≤ ·.kind.rank) := by
  unfold canonical
  split_ifs
  · exact sorted_withSolverParameters (sortGroups_sorted _)
  · exact sortGroups_sorted _

theorem plan_canonical (draft : Definition) : draft.canonical.plan = draft.plan := by
  unfold canonical
  split_ifs
  · rw [plan_withSolverParameters, plan_of_perm (sortGroups_perm _)]
  · exact plan_of_perm (sortGroups_perm _)

theorem canonical_of_sorted {d : Definition} (h : d.groups.Pairwise (·.kind.rank ≤ ·.kind.rank)) :
    d.canonical = if d.plan = .adaptive then d.withSolverParameters else d := by
  have hself : { d with groups := sortGroups d.groups } = d := by
    rw [sortGroups_of_sorted h]
    cases d
    rfl
  rw [canonical, hself]

theorem canonical_canonical (draft : Definition) : draft.canonical.canonical = draft.canonical := by
  rw [canonical_of_sorted (canonical_sorted draft), plan_canonical]
  split_ifs with hplan
  · rw [canonical, if_pos hplan, withSolverParameters_withSolverParameters]
  · rfl

/-- The order of the groups of a draft plays no role. -/
theorem canonical_of_perm {groups : List Group} (hperm : groups.Perm draft.groups)
    (h : (draft.groups.map (·.kind)).Nodup) :
    canonical { draft with groups } = draft.canonical := by
  unfold canonical
  dsimp only
  rw [plan_of_perm hperm, sortGroups_eq_of_perm hperm h]

theorem canonical_parts (draft : Definition) :
    draft.canonical = { draft with groups := draft.canonical.groups } := by
  unfold canonical
  split_ifs <;> rfl

theorem exists_mem_canonical {g : Group} (h : g ∈ draft.groups) :
    ∃ g' ∈ draft.canonical.groups, g'.kind = g.kind ∧ g.vars <+: g'.vars := by
  have hsort : g ∈ sortGroups draft.groups := (sortGroups_perm _).mem_iff.2 h
  unfold canonical
  split_ifs
  · refine ⟨completed g, ?_, completed_kind g, vars_completed g⟩
    rw [withSolverParameters_groups]
    exact List.mem_map_of_mem (mem_solverGroups_of_mem hsort)
  · exact ⟨g, hsort, rfl, g.vars.prefix_rfl⟩

theorem mem_of_mem_canonical {g : Group} (h : g ∈ draft.canonical.groups) (hkind : g.kind ≠ .solver) :
    g ∈ draft.groups := by
  unfold canonical at h
  split_ifs at h
  · rw [withSolverParameters_groups] at h
    obtain ⟨g', hg', rfl⟩ := List.mem_map.1 h
    rw [completed_kind] at hkind
    rw [completed, if_neg hkind]
    rcases mem_solverGroups hg' with hg' | rfl
    · exact (sortGroups_perm _).mem_iff.1 hg'
    · exact absurd rfl hkind
  · exact (sortGroups_perm _).mem_iff.1 h

end Canonical

theorem methods_contains_iff {m : MethodLists} {name : String} :
    m.contains name = true ↔ ∃ kind, name ∈ m.get kind := by
  have hkind : ∀ kind : MethodKind, kind ∈ MethodKind.all := by
    intro kind
    cases kind <;> decide
  rw [MethodLists.contains, MethodLists.kindOf?, Option.isSome_map, List.find?_isSome]
  constructor
  · rintro ⟨e, he, hname⟩
    obtain ⟨kind, -, he⟩ := List.mem_flatMap.1 he
    obtain ⟨x, hx, rfl⟩ := List.mem_map.1 he
    exact ⟨kind, beq_iff_eq.1 hname ▸ hx⟩
  · rintro ⟨kind, h⟩
    exact ⟨(kind, name), List.mem_flatMap.2 ⟨kind, hkind kind, List.mem_map_of_mem h⟩,
      beq_self_eq_true name⟩

/-- What building returns has groups of different kinds in increasing order, different identifiers as
names within each group, methods with different names in all lists together, and references of
methods only. It has all parts of the draft: the only new variables stand behind those of the group of
solver parameters. Its plan is that of the draft. Building it again returns it, and so does building
the draft with its groups in any other order. -/
theorem build_canonical {draft d : Definition} (h : build draft = .ok d) :
    d.groups.Pairwise (·.kind.rank < ·.kind.rank) ∧
    (∀ g ∈ d.groups, (g.vars.map (·.name)).Nodup ∧ ∀ v ∈ g.vars, isIdentifier v.name = true) ∧
    (d.methods.entries.map (·.2)).Nodup ∧
    (∀ r ∈ d.references, ∃ kind, r.1 ∈ d.methods.get kind) ∧
    d = { draft with groups := d.groups } ∧
    (∀ g ∈ draft.groups, ∃ g' ∈ d.groups, g'.kind = g.kind ∧ g.vars <+: g'.vars) ∧
    (∀ g ∈ d.groups, g.kind ≠ .solver → g ∈ draft.groups) ∧
    d.plan = draft.plan ∧
    build d = .ok d ∧
    ∀ groups, groups.Perm draft.groups → build { draft with groups } = .ok d := by
  obtain ⟨haccepted, rfl⟩ := build_eq_ok_iff.1 h
  have hcanonical := haccepted.canonical
  refine ⟨sorted_lt_of_nodup (canonical_sorted draft) hcanonical.kinds, fun g hg => ?_,
    (methods_of_methodFault? hcanonical.methods).1, fun r hr => ?_, canonical_parts draft,
    fun g => exists_mem_canonical, fun g => mem_of_mem_canonical, plan_canonical draft, ?_,
    fun groups hperm => ?_⟩
  · exact ⟨hcanonical.distinct.names g hg, fun v hv => (variables_of_build h g hg v hv).1⟩
  · exact methods_contains_iff.1 (hcanonical.references r hr)
  · exact build_eq_ok_iff.2 ⟨hcanonical, (canonical_canonical draft).symm⟩
  · refine build_eq_ok_iff.2 ⟨(accepted_iff_of_perm hperm).2 haccepted, ?_⟩
    exact (canonical_of_perm hperm haccepted.kinds).symm

def millpond : Definition :=
  { name := "millpond"
    groups :=
      [{ kind := .states, vars := [{ name := "level", numeric := true }] },
        { kind := .solver, vars := [{ name := "reldtmin", element := .int }] },
        { kind := .control, vars := [{ name := "width" }] }]
    methods := { partOde := ["drain"] }
    references := [("drain", {})] }

theorem millpond_accepted : millpond.Accepted where
  name := by decide
  kinds := by decide
  groups := by decide
  methods := by decide
  references := by decide
  submodels := by decide
  aliases := by decide

theorem millpond_sorted :
    sortGroups millpond.groups =
      [{ kind := .control, vars := [{ name := "width" }] },
        { kind := .solver, vars := [{ name := "reldtmin", element := .int }] },
        { kind := .states, vars := [{ name := "level", numeric := true }] }] := by
  have hperm := sortGroups_perm millpond.groups
  refine eq_of_sorted (sortGroups_sorted _) (by decide) (hperm.trans (by decide)) ?_
  exact (hperm.map _).nodup_iff.2 millpond_accepted.kinds

theorem millpond_canonical :
    ∃ d, build millpond = .ok d ∧
      d.groups =
        [{ kind := .control, vars := [{ name := "width" }] },
          { kind := .solver
            vars := [{ name := "reldtmin", element := .int }, { name := "abserrormax" },
              { name := "relerrormax" }, { name := "reldtmax" }] },
          { kind := .states, vars := [{ name := "level", numeric := true }] }] ∧
      d.plan = .adaptive ∧ build d = .ok d ∧
      build { millpond with groups := millpond.groups.reverse } = .ok d := by
  have hplan : millpond.plan = .adaptive := by decide
  have hbuild : build millpond = .ok millpond.canonical := build_eq_ok_iff.2 ⟨millpond_accepted, rfl⟩
  obtain ⟨-, -, -, -, -, -, -, hsame, hself, hperm⟩ := build_canonical hbuild
  refine ⟨_, hbuild, ?_, hsame.trans hplan, hself, hperm _ (List.reverse_perm _)⟩
  rw [canonical, if_pos hplan, millpond_sorted]
  decide

end Definition

end ProcessModel
