import ProcessModel.Proofs.FunctionNames

/-! The names of the members of structs.

A variable has a member of its own name in the struct of its group, and members that are derived from
it: its name between two lines, followed by what the member holds. No ending of a derived name is the
end of another one, so the derived members of different variables differ. -/

namespace ProcessModel

namespace Code

def derivedName (x ending : String) : String := "_" ++ x ++ "_" ++ ending

def lengthEndings (ndim : Nat) : List String :=
  ["ndim", "length"] ++ (List.range ndim).map fun axis => s!"length_{axis}"

def seriesEndings : List String :=
  ["diskflag_reading", "diskflag_writing", "path", "file", "ramflag", "array"]

def derivedEndings (adaptive : Bool) (k : GroupKind) (v : Variable) : List String :=
  (if k.family = .sequences then lengthEndings v.ndim else []) ++
    (if k.hasSeries then seriesEndings else []) ++
    (if adaptive then (v.buffers k).map Buffer.name else [])

def derivedNames (adaptive : Bool) (k : GroupKind) (v : Variable) : List String :=
  (derivedEndings adaptive k v).map (derivedName v.name)

/-- The endings of a variable with all axes and buffers. -/
def allEndings : List String :=
  lengthEndings maxRank ++ seriesEndings ++
    [Buffer.points, .results, .integrals, .sum].map Buffer.name

theorem derivedEndings_sublist {v : Variable} (h : v.ndim ≤ maxRank) (adaptive : Bool)
    (k : GroupKind) : (derivedEndings adaptive k v).Sublist allEndings := by
  have hlength : (lengthEndings v.ndim).Sublist (lengthEndings maxRank) :=
    ((List.range_sublist.2 h).map _).append_left _
  have hbuffers : (v.buffers k).Sublist [.points, .results, .integrals, .sum] := by
    unfold Variable.buffers
    split_ifs
    · cases k <;> decide
    · exact List.nil_sublist _
  refine (List.Sublist.append ?_ ?_).append ?_
  · split_ifs
    · exact hlength
    · exact List.nil_sublist _
  · split_ifs
    · exact List.Sublist.refl _
    · exact List.nil_sublist _
  · split_ifs
    · exact hbuffers.map _
    · exact List.nil_sublist _

theorem allEndings_nodup : allEndings.Nodup := by decide +kernel

theorem ending_ne_functionName {a b : String} (ha : a ∈ allEndings) (hb : b ∈ allEndings)
    (z : String) : a ≠ functionName z b := by
  have hall : (allEndings.all fun a => allEndings.all fun b =>
      !('_' :: b.toList).isSuffixOf a.toList) = true := by
    decide +kernel
  have hends := List.all_eq_true.1 (List.all_eq_true.1 hall a ha) b hb
  rintro rfl
  have hsuffix : ('_' :: b.toList).isSuffixOf (functionName z b).toList = true := by
    rw [List.isSuffixOf_iff_suffix]
    exact ⟨z.toList, by simp [functionName]⟩
  rw [hsuffix] at hends
  cases hends

theorem derivedName_inj {x y a b : String} (ha : a ∈ allEndings) (hb : b ∈ allEndings)
    (h : derivedName x a = derivedName y b) : x = y ∧ a = b := by
  have hname : functionName x a = functionName y b := by
    simpa only [derivedName, functionName, String.append_assoc, String.append_right_inj] using h
  rcases functionName_eq_iff.1 hname with h | ⟨z, -, hz⟩ | ⟨z, -, hz⟩
  · exact h
  · exact absurd hz (ending_ne_functionName ha hb z)
  · exact absurd hz (ending_ne_functionName hb ha z)

theorem valueMember_name (k : GroupKind) (v : Variable) : (valueMember k v).name = v.name := by
  unfold valueMember
  split_ifs <;> rfl

theorem variableMembers_names (adaptive : Bool) (k : GroupKind) (v : Variable) :
    (variableMembers adaptive k v).map Member.name = v.name :: derivedNames adaptive k v := by
  have haxis (axis : String) : "_length_" ++ axis = "_" ++ ("length_" ++ axis) := by
    rw [← String.append_assoc]
    rfl
  have hlength : (lengthMembers v).map Member.name =
      (lengthEndings v.ndim).map (derivedName v.name) := by
    simp [lengthMembers, lengthEndings, derivedName, String.append_assoc, ToString.toString, haxis]
  have hseries : (seriesMembers v.name).map Member.name =
      seriesEndings.map (derivedName v.name) := by
    simp [seriesMembers, seriesEndings, derivedName, String.append_assoc, ToString.toString]
  have hbuffers : (bufferMembers k v).map Member.name =
      ((v.buffers k).map Buffer.name).map (derivedName v.name) := by
    simp [bufferMembers, Buffer.fieldName, derivedName, String.append_assoc, ToString.toString]
  simp only [variableMembers, derivedNames, derivedEndings, List.map_cons, List.map_append,
    valueMember_name, apply_ite (List.map _), List.map_nil, hlength, hseries, hbuffers]

/-- The members of a group have different names exactly if no variable is named like a derived member
of another one. -/
theorem groupStruct_nodup_iff {g : Group} (hnames : (g.vars.map (·.name)).Nodup)
    (hrank : ∀ v ∈ g.vars, v.ndim ≤ maxRank) (model : String) (adaptive : Bool) :
    ((groupStruct model adaptive g).members.map Member.name).Nodup ↔
      ∀ v ∈ g.vars, ∀ w ∈ g.vars, w.name ∉ derivedNames adaptive g.kind v := by
  have hall : (groupStruct model adaptive g).members.map Member.name =
      g.vars.flatMap fun v => v.name :: derivedNames adaptive g.kind v := by
    simp only [groupStruct, List.map_flatMap, variableMembers_names]
  have hsub (v : Variable) (hv : v ∈ g.vars) := derivedEndings_sublist (hrank v hv) adaptive g.kind
  rw [hall, List.nodup_flatMap]
  constructor
  · rintro ⟨hown, hacross⟩ v hv w hw hmem
    have hsymm : Std.Symm (Function.onFun List.Disjoint fun v : Variable =>
        v.name :: derivedNames adaptive g.kind v) := ⟨fun _ _ h _ ht hs => h hs ht⟩
    by_cases hvw : v = w
    · subst hvw
      exact (List.nodup_cons.1 (hown v hv)).1 hmem
    · exact hacross.forall hv hw hvw (List.mem_cons_of_mem _ hmem) List.mem_cons_self
  · refine fun hapart => ⟨fun v hv => List.nodup_cons.2 ⟨hapart v hv v hv, ?_⟩, ?_⟩
    · refine List.Nodup.map_on (fun a ha b hb hab => ?_)
        (allEndings_nodup.sublist (hsub v hv))
      exact (derivedName_inj ((hsub v hv).subset ha) ((hsub v hv).subset hb) hab).2
    · refine (List.Nodup.of_map _ hnames).pairwise_of_forall_ne fun v hv w hw hvw => ?_
      have hne : v.name ≠ w.name := fun heq => hvw (List.inj_on_of_nodup_map hnames hv hw heq)
      intro name hname hname'
      rcases List.mem_cons.1 hname with rfl | hv' <;> rcases List.mem_cons.1 hname' with heq | hw'
      · exact hne heq
      · exact hapart w hw v hv hw'
      · exact hapart v hv w hw (heq ▸ hv')
      · obtain ⟨a, ha, rfl⟩ := List.mem_map.1 hv'
        obtain ⟨b, hb, hab⟩ := List.mem_map.1 hw'
        exact hne (derivedName_inj ((hsub w hw).subset hb) ((hsub v hv).subset ha) hab).1.symm

theorem oldStatesStruct_nodup {g : Group} (hnames : (g.vars.map (·.name)).Nodup) (model : String) :
    ((oldStatesStruct model g).members.map Member.name).Nodup := by
  rw [oldStatesStruct, List.map_map]
  exact hnames

theorem filledGroups_kinds_nodup {d : Definition} (hd : d.Distinct) :
    ((filledGroups d).map (·.kind)).Nodup :=
  hd.kinds.sublist (List.filter_sublist.map _)

theorem familyStruct_nodup {d : Definition} (hd : d.Distinct) (f : Family) :
    ((familyStruct d f).members.map Member.name).Nodup := by
  have hkinds : (((filledGroups d).filter fun g => g.kind.family == f).map (·.kind)).Nodup :=
    (filledGroups_kinds_nodup hd).sublist (List.filter_sublist.map _)
  have hnames : (((filledGroups d).filter fun g => g.kind.family == f).map
      fun g => g.kind.name).Nodup := by
    have hinj : Function.Injective GroupKind.name := fun a b hab =>
      GroupRef.kind.inj (GroupRef.name_inj (a := .kind a) (b := .kind b) hab)
    simpa [Function.comp_def] using hkinds.map hinj
  have hold : ∀ k : GroupKind, k.name ≠ GroupRef.oldStates.name := fun k hk =>
    GroupRef.noConfusion (GroupRef.name_inj (a := .kind k) (b := .oldStates) hk)
  unfold familyStruct
  simp only [List.map_append, List.map_map, Function.comp_def]
  refine hnames.append ?_ fun name hname hname' => ?_
  · split_ifs <;> simp
  · obtain ⟨g, -, rfl⟩ := List.mem_map.1 hname
    split_ifs at hname'
    · exact hold g.kind (by simpa using hname')
    · cases hname'

theorem modelStruct_nodup {m : Model} (hd : m.definition.Distinct)
    (hnames : m.submodels.map (·.1) = m.definition.submodels.map (·.1))
    (hreserved : ∀ e ∈ m.definition.submodels, e.1 ∉ Definition.reservedNames) :
    ((modelStruct m).members.map Member.name).Nodup := by
  let fixed := (filledFamilies m.definition).map Family.name ++
    (if m.plan = .adaptive then ["numconsts"] else []) ++
    (if m.plan = .static then [] else ["numvars"])
  have hall : (modelStruct m).members.map Member.name = fixed ++ m.definition.submodels.map (·.1) := by
    rw [← hnames]
    simp only [modelStruct, fixed, List.map_append, List.map_map, apply_ite (List.map _),
      Function.comp_def, List.map_cons, List.map_nil]
  have hfixed : fixed.Sublist ["parameters", "sequences", "numconsts", "numvars"] := by
    have hfamilies : ((filledFamilies m.definition).map Family.name).Sublist
        ["parameters", "sequences"] := List.filter_sublist.map Family.name
    have hconsts : (if m.plan = .adaptive then ["numconsts"] else []).Sublist ["numconsts"] := by
      split_ifs <;> simp
    have hvars : (if m.plan = .static then [] else ["numvars"]).Sublist ["numvars"] := by
      split_ifs <;> simp
    exact (hfamilies.append hconsts).append hvars
  rw [hall]
  refine (List.Nodup.sublist hfixed (by decide)).append hd.submodels fun name hname hname' => ?_
  obtain ⟨e, he, rfl⟩ := List.mem_map.1 hname'
  have hsub : ["parameters", "sequences", "numconsts", "numvars"] ⊆ Definition.reservedNames := by
    decide
  exact hreserved e he (hsub (hfixed.subset hname))

section Membership

variable {t : Model} {g : Group}

theorem mem_filledGroups {d : Definition} (hg : g ∈ d.groups) {v : Variable} (hv : v ∈ g.vars) :
    g ∈ filledGroups d := by
  refine List.mem_filter.2 ⟨hg, ?_⟩
  simpa [Group.isEmpty] using List.ne_nil_of_mem hv

theorem groupStruct_mem_structs (hg : g ∈ filledGroups t.definition) :
    groupStruct t.definition.name (t.plan = .adaptive) g ∈ structs t := by
  simp only [structs, List.mem_append]
  exact .inl (.inl (.inl (.inl (.inl (List.mem_map_of_mem hg)))))

theorem oldStatesStruct_mem_structs (hg : g ∈ filledGroups t.definition) (hkind : g.kind = .states) :
    oldStatesStruct t.definition.name g ∈ structs t := by
  simp only [structs, List.mem_append]
  refine .inl (.inl (.inl (.inl (.inr (List.mem_map_of_mem (List.mem_filter.2 ⟨hg, ?_⟩))))))
  rw [hkind]
  rfl

theorem familyStruct_mem_structs {f : Family} (hf : f ∈ filledFamilies t.definition) :
    familyStruct t.definition f ∈ structs t := by
  simp only [structs, List.mem_append]
  exact .inl (.inl (.inl (.inr (List.mem_map_of_mem hf))))

theorem modelStruct_mem_structs (t : Model) : modelStruct t ∈ structs t :=
  List.mem_append_right _ (List.mem_singleton_self _)

end Membership

end Code

namespace Model

open Code

theorem read_submodel_names {dialect : Dialect} {d : Definition} {m : Model}
    (h : read dialect d = .ok m) : m.submodels.map (·.1) = d.submodels.map (·.1) := by
  obtain ⟨-, hsubs, -⟩ := read_eq_ok h
  exact map_eq_of_forall₂ (fun _ _ hf => hf.1.symm) (readAll_forall₂ hsubs)

/-- In every model of a tree that a built definition compiles to, each struct has members of
different names if and only if no variable is named like a derived member of a variable of its
group. -/
theorem member_names_nodup_iff {dialect : Dialect} {d : Definition} {m t : Model} (hd : d.Built)
    (hm : compile dialect d = .ok m) (ht : t ∈ m.postorder) :
    (∀ s ∈ structs t, (s.members.map Member.name).Nodup) ↔
      ∀ g ∈ t.definition.groups, ∀ v ∈ g.vars, ∀ w ∈ g.vars,
        w.name ∉ derivedNames (t.plan = .adaptive) g.kind v := by
  obtain ⟨d', hd', hread⟩ := exists_read_of_mem_postorder hd (compile_eq_ok hm).1 ht
  have hsubmodels := read_submodel_names hread
  obtain ⟨rfl, -, -⟩ := read_eq_ok hread
  have hdistinct := hd'.distinct
  obtain ⟨hbuild, -⟩ := hd'
  have hgroup (g : Group) (hg : g ∈ t.definition.groups) :=
    groupStruct_nodup_iff (hdistinct.names g hg)
      (fun v hv => (Definition.variables_of_build hbuild g hg v hv).2) t.definition.name
      (t.plan = .adaptive)
  have hmem : ∀ g ∈ filledGroups t.definition, g ∈ t.definition.groups :=
    fun g hg => (List.mem_filter.1 hg).1
  constructor
  · intro h g hg v hv
    exact (hgroup g hg).1 (h _ (groupStruct_mem_structs (mem_filledGroups hg hv))) v hv
  · intro hapart s hs
    simp only [structs, List.mem_append] at hs
    rcases hs with ((((hs | hs) | hs) | hs) | hs) | hs
    · obtain ⟨g, hg, rfl⟩ := List.mem_map.1 hs
      exact (hgroup g (hmem g hg)).2 (hapart g (hmem g hg))
    · obtain ⟨g, hg, rfl⟩ := List.mem_map.1 hs
      exact oldStatesStruct_nodup (hdistinct.names g (hmem g (List.mem_filter.1 hg).1)) _
    · obtain ⟨f, -, rfl⟩ := List.mem_map.1 hs
      exact familyStruct_nodup hdistinct f
    · split_ifs at hs
      · obtain rfl := List.mem_singleton.1 hs
        exact (by decide : ((numConstsStruct "").members.map Member.name).Nodup)
      · cases hs
    · split_ifs at hs
      · cases hs
      · obtain rfl := List.mem_singleton.1 hs
        exact (by decide : ((numVarsStruct "").members.map Member.name).Nodup)
    · obtain rfl := List.mem_singleton.1 hs
      exact modelStruct_nodup hdistinct hsubmodels
        fun e he => (Definition.submodels_of_build hbuild e he).2

def sluice (second : String) : Definition where
  name := "sluice"
  groups := [{ kind := .fluxes, vars := [{ name := "q", ndim := 1 }, { name := second }] }]

theorem compile_sluice (second : String) :
    compile {} (sluice second) = .ok ⟨sluice second, [], []⟩ := rfl

/-- The second flux is named like a derived member without the line in front. -/
theorem sluice_members_apart :
    (sluice "q_length_0").Built ∧
      compile {} (sluice "q_length_0") = .ok ⟨sluice "q_length_0", [], []⟩ ∧
      ∀ s ∈ structs ⟨sluice "q_length_0", [], []⟩, (s.members.map Member.name).Nodup := by
  have hbuilt : (sluice "q_length_0").Built :=
    .of_canonical (by decide) (by decide +kernel) (by decide) (by simp [sluice])
  refine ⟨hbuilt, compile_sluice _, (member_names_nodup_iff hbuilt (compile_sluice _) ?_).2 ?_⟩
  · rw [postorder_eq]
    exact List.mem_append_right _ (List.mem_singleton_self _)
  · decide +kernel

/-- The second flux is named like a derived member of the first. -/
theorem sluice_members_meet :
    (sluice "_q_length_0").Built ∧
      compile {} (sluice "_q_length_0") = .ok ⟨sluice "_q_length_0", [], []⟩ ∧
      ∃ s ∈ structs ⟨sluice "_q_length_0", [], []⟩, s.name = "sluice_FluxSequences" ∧
        (s.members.map Member.name).count "_q_length_0" = 2 ∧
        ¬(s.members.map Member.name).Nodup := by
  have hbuilt : (sluice "_q_length_0").Built :=
    .of_canonical (by decide) (by decide +kernel) (by decide) (by simp [sluice])
  refine ⟨hbuilt, compile_sluice _, ?_⟩
  decide +kernel

end Model

end ProcessModel
