import Mathlib.Data.List.Nodup
import ProcessModel.Proofs.Slots

/-! What building accepts.

Building checks a draft with its groups in order and returns its canonical form. The checks do not
depend on the order, and the solver parameters that a model gets pass them, so that the canonical
form of what is accepted is accepted as well. -/

namespace ProcessModel

theorem GroupKind.rank_inj {a b : GroupKind} (h : a.rank = b.rank) : a = b := by
  have hback := congrArg GroupKind.ofNat h
  rwa [GroupKind.rank, GroupKind.rank, GroupKind.ofNat_ctorIdx, GroupKind.ofNat_ctorIdx] at hback

namespace Definition

/-- What building checks. -/
structure Accepted (d : Definition) : Prop where
  name : isIdentifier d.name = true
  kinds : (d.groups.map (·.kind)).Nodup
  groups : ∀ g ∈ d.groups, g.fault? = none
  methods : methodFault? d.name [] d.methods.entries = none
  references : ∀ r ∈ d.references, d.methods.contains r.1 = true
  submodels : submodelFault? d [] (d.submodels.map (·.1)) = none
  aliases : ∀ a ∈ d.aliases, (Text.fields '.' a.1).all isIdentifier = true

theorem sortGroups_sorted (groups : List Group) :
    (sortGroups groups).Pairwise (·.kind.rank ≤ ·.kind.rank) := by
  have hsorted : (sortGroups groups).Pairwise fun a b =>
      decide (a.kind.rank ≤ b.kind.rank) = true :=
    List.pairwise_mergeSort (by simp only [decide_eq_true_eq]; omega) (by simp; omega) groups
  exact hsorted.imp of_decide_eq_true

theorem kinds_of_repeatedKind? {groups : List Group}
    (hsorted : groups.Pairwise (·.kind.rank ≤ ·.kind.rank)) (h : repeatedKind? groups = none) :
    (groups.map (·.kind)).Nodup := by
  have hlt : groups.Pairwise (·.kind.rank < ·.kind.rank) := by
    induction groups with
    | nil => exact .nil
    | cons a groups ih =>
      cases groups with
      | nil => simp
      | cons b rest =>
        simp only [repeatedKind?] at h
        split_ifs at h with hkind
        have hrest := ih hsorted.of_cons h
        have hab : a.kind.rank < b.kind.rank :=
          Nat.lt_of_le_of_ne (List.rel_of_pairwise_cons hsorted (by simp))
            fun heq => hkind (GroupKind.rank_inj heq)
        refine List.pairwise_cons.2 ⟨fun g hg => ?_, hrest⟩
        rcases List.mem_cons.1 hg with rfl | hmem
        · exact hab
        · exact Nat.lt_trans hab (List.rel_of_pairwise_cons hrest hmem)
  rw [List.Nodup, List.pairwise_map]
  exact hlt.imp fun hab heq => Nat.ne_of_lt hab (congrArg GroupKind.rank heq)

theorem repeatedKind?_of_nodup {groups : List Group} (h : (groups.map (·.kind)).Nodup) :
    repeatedKind? groups = none := by
  induction groups with
  | nil => rfl
  | cons a groups ih =>
    cases groups with
    | nil => rfl
    | cons b rest =>
      rw [List.map_cons, List.nodup_cons] at h
      have hne : a.kind ≠ b.kind := fun heq => h.1 (heq ▸ List.mem_cons_self)
      rw [repeatedKind?, if_neg hne]
      exact ih h.2

theorem fault?_eq_none_iff {d : Definition} (hsorted : d.groups.Pairwise (·.kind.rank ≤ ·.kind.rank)) :
    d.fault? = none ↔ d.Accepted := by
  unfold fault?
  constructor
  · intro h
    split_ifs at h with hname
    simp only [Option.or_eq_none_iff, Option.map_eq_none_iff, List.findSome?_eq_none_iff,
      List.find?_eq_none, Keyed.keys, List.forall_mem_map] at h
    obtain ⟨hkinds, hgroups, hmethods, hreferences, hsubmodels, haliases⟩ := h
    exact ⟨by simpa using hname, kinds_of_repeatedKind? hsorted hkinds, hgroups, hmethods,
      by simpa using hreferences, hsubmodels, by simpa using haliases⟩
  · intro h
    rw [if_neg (by simp [h.name])]
    simp only [Option.or_eq_none_iff, Option.map_eq_none_iff, List.findSome?_eq_none_iff,
      List.find?_eq_none, Keyed.keys, List.forall_mem_map]
    exact ⟨repeatedKind?_of_nodup h.kinds, h.groups, h.methods, by simpa using h.references,
      h.submodels, by simpa using h.aliases⟩

section Order

variable {d : Definition} {groups : List Group}

theorem submodelFault?_groups (before names : List String) :
    submodelFault? { d with groups } before names = submodelFault? d before names := by
  induction names generalizing before with
  | nil => rfl
  | cons name names ih =>
    unfold submodelFault?
    rw [ih]

theorem accepted_iff_of_perm (hperm : groups.Perm d.groups) :
    Accepted { d with groups } ↔ d.Accepted := by
  constructor
  · intro h
    exact ⟨h.name, (hperm.map _).nodup_iff.1 h.kinds, fun g hg => h.groups g (hperm.mem_iff.2 hg),
      h.methods, h.references, (submodelFault?_groups _ _).symm.trans h.submodels, h.aliases⟩
  · intro h
    exact ⟨h.name, (hperm.map _).nodup_iff.2 h.kinds, fun g hg => h.groups g (hperm.mem_iff.1 hg),
      h.methods, h.references, (submodelFault?_groups _ _).trans h.submodels, h.aliases⟩

theorem plan_of_perm (hperm : groups.Perm d.groups) : plan { d with groups } = d.plan := by
  have hnumeric : isNumeric { d with groups } = d.isNumeric := hperm.any_eq
  unfold plan
  rw [hnumeric]

theorem sortGroups_perm (groups : List Group) : (sortGroups groups).Perm groups :=
  List.mergeSort_perm _ _

end Order

def canonical (draft : Definition) : Definition :=
  if draft.plan = .adaptive then
    withSolverParameters { draft with groups := sortGroups draft.groups }
  else { draft with groups := sortGroups draft.groups }

/-- Building returns the canonical form of what it accepts. -/
theorem build_eq_ok_iff {draft d : Definition} :
    build draft = .ok d ↔ draft.Accepted ∧ d = draft.canonical := by
  have hperm := sortGroups_perm draft.groups
  unfold build canonical
  dsimp only
  rw [plan_of_perm hperm, ← accepted_iff_of_perm hperm, ← fault?_eq_none_iff (sortGroups_sorted _)]
  cases fault? { draft with groups := sortGroups draft.groups } with
  | some fault => simp
  | none => simp [eq_comm]

section Parameters

def solverGroups (d : Definition) : List Group :=
  if (d.group? .solver).isSome then d.groups else sortGroups (d.groups ++ [{ kind := .solver }])

def completed (g : Group) : Group := if g.kind = .solver then addSolverParameters g else g

theorem withSolverParameters_groups (d : Definition) :
    d.withSolverParameters.groups = d.solverGroups.map completed := rfl

@[simp] theorem completed_kind (g : Group) : (completed g).kind = g.kind := by
  unfold completed
  split_ifs <;> rfl

theorem faultFrom?_append (kind : GroupKind) (before vars more : List Variable) :
    Group.faultFrom? kind before (vars ++ more) =
      (Group.faultFrom? kind before vars).or (Group.faultFrom? kind (before ++ vars) more) := by
  induction vars generalizing before with
  | nil => simp [Group.faultFrom?]
  | cons v vars ih => simp [Group.faultFrom?, ih, Option.or_assoc]

theorem faultFrom?_scalars {before : List Variable} {names : List String}
    (hnodup : names.Nodup) (hnames : ∀ name ∈ names, isIdentifier name = true)
    (hnew : ∀ v ∈ before, v.name ∉ names) :
    Group.faultFrom? .solver before (names.map fun name => { name }) = none := by
  induction names generalizing before with
  | nil => rfl
  | cons name names ih =>
    obtain ⟨hfresh, hnodup⟩ := List.nodup_cons.1 hnodup
    obtain ⟨hname, hnames⟩ := List.forall_mem_cons.1 hnames
    have hbefore : (before.any fun w => w.name == name) = false := by
      refine List.any_eq_false.2 fun v hv heq => hnew v hv ?_
      exact beq_iff_eq.1 heq ▸ List.mem_cons_self
    rw [List.map_cons, Group.faultFrom?, Option.or_eq_none_iff]
    refine ⟨?_, ih hnodup hnames fun v hv hmem => ?_⟩
    · simp [Group.variableFault?, hname, hbefore, maxRank, GroupKind.isLink]
    · rcases List.mem_append.1 hv with hv | hv
      · exact hnew v hv (List.mem_cons_of_mem _ hmem)
      · rw [List.mem_singleton.1 hv] at hmem
        exact hfresh hmem

variable {g : Group} {d : Definition}

theorem completed_fault? (h : g.fault? = none) : (completed g).fault? = none := by
  have hsolver : ∀ name ∈ solverParameters, isIdentifier name = true := by decide
  unfold completed
  split_ifs with hkind
  · unfold Group.fault? addSolverParameters
    rw [hkind, faultFrom?_append, Option.or_eq_none_iff]
    refine ⟨hkind ▸ h, faultFrom?_scalars (List.Nodup.filter _ (by decide)) ?_ fun v hv hmem => ?_⟩
    · exact fun name hname => hsolver name (List.mem_filter.1 hname).1
    · have hnone : g.get? v.name = none := by simpa using (List.mem_filter.1 hmem).2
      exact List.find?_eq_none.1 hnone v hv (beq_self_eq_true v.name)
  · exact h

theorem mem_solverGroups (h : g ∈ d.solverGroups) : g ∈ d.groups ∨ g = { kind := .solver } := by
  unfold solverGroups at h
  split_ifs at h
  · exact .inl h
  · simpa using (sortGroups_perm _).mem_iff.1 h

theorem kinds_solverGroups (h : (d.groups.map (·.kind)).Nodup) :
    (d.solverGroups.map (·.kind)).Nodup := by
  unfold solverGroups
  split_ifs with hsolver
  · exact h
  · have hnone : d.group? .solver = none := by simpa using hsolver
    refine ((sortGroups_perm _).map _).nodup_iff.2 ?_
    rw [List.map_append]
    refine h.append (by simp) fun k hk hs => ?_
    obtain ⟨g, hg, rfl⟩ := List.mem_map.1 hk
    have hkind : g.kind = .solver := by simpa using hs
    exact absurd hkind (by simpa using List.find?_eq_none.1 hnone g hg)

theorem Accepted.withSolverParameters (h : d.Accepted) : d.withSolverParameters.Accepted where
  name := h.name
  kinds := by
    rw [withSolverParameters_groups, List.map_map]
    simpa [Function.comp_def] using kinds_solverGroups h.kinds
  groups g hg := by
    rw [withSolverParameters_groups] at hg
    obtain ⟨g', hg', rfl⟩ := List.mem_map.1 hg
    refine completed_fault? ?_
    rcases mem_solverGroups hg' with hg' | rfl
    · exact h.groups g' hg'
    · rfl
  methods := h.methods
  references := h.references
  submodels := (submodelFault?_groups _ _).trans h.submodels
  aliases := h.aliases

end Parameters

section Build

variable {d draft : Definition}

theorem Accepted.canonical (h : draft.Accepted) : draft.canonical.Accepted := by
  have hsorted := (accepted_iff_of_perm (sortGroups_perm draft.groups)).2 h
  unfold Definition.canonical
  split_ifs
  · exact hsorted.withSolverParameters
  · exact hsorted

theorem accepted_of_build (h : build draft = .ok d) : d.Accepted := by
  obtain ⟨haccepted, rfl⟩ := build_eq_ok_iff.1 h
  exact haccepted.canonical

end Build

section Faults

variable {d : Definition}

theorem submodelFault?_eq_none {before names : List String}
    (h : submodelFault? d before names = none) :
    ∀ name ∈ names, isIdentifier name = true ∧ name ∉ reservedNames := by
  induction names generalizing before with
  | nil => simp
  | cons name names ih =>
    unfold submodelFault? at h
    split_ifs at h with hfault
    simp only [Bool.or_eq_true, not_or, Bool.not_eq_true, Bool.not_eq_false'] at hfault
    obtain ⟨⟨⟨hname, hreserved⟩, -⟩, -⟩ := hfault
    exact List.forall_mem_cons.2 ⟨⟨hname, by simpa using hreserved⟩, ih h⟩

theorem faultFrom?_eq_none {kind : GroupKind} {before vars : List Variable}
    (h : Group.faultFrom? kind before vars = none) :
    ∀ v ∈ vars, isIdentifier v.name = true ∧ v.ndim ≤ maxRank ∧
      (v.numeric = true → v.element = .float) := by
  induction vars generalizing before with
  | nil => simp
  | cons v vars ih =>
    rw [Group.faultFrom?, Option.or_eq_none_iff] at h
    refine List.forall_mem_cons.2 ⟨?_, ih h.2⟩
    have hv := h.1
    unfold Group.variableFault? at hv
    split_ifs at hv with hname htwice hrank hkind hlink
    refine ⟨by simpa using hname, Nat.le_of_not_lt hrank, fun hnumeric => ?_⟩
    simp only [hnumeric, Bool.true_and, Bool.or_eq_true, not_or] at hkind
    simpa using hkind.2

end Faults

end Definition

end ProcessModel
