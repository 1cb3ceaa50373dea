import ProcessModel.Proofs.MemberAccess

/-! The order in which the models of a tree are emitted.

A tree is listed from its leaves to its root and every name is kept where it stands first. Where a model
is kept, all its sub-models have been passed, and what is passed is kept under its name or was kept
before. -/

namespace ProcessModel

section Grounded

variable {α β : Type} {uses : α → List β} {name : α → β} {known : List β}

/-- Whether everything in a list uses only what is known from the start or named before it. -/
def Grounded (uses : α → List β) (name : α → β) : List β → List α → Prop
  | _, [] => True
  | known, a :: l => uses a ⊆ known ∧ Grounded uses name (known ++ [name a]) l

variable {l : List α}

theorem Grounded.mono {known' : List β} (h : Grounded uses name known l) (hsub : known ⊆ known') :
    Grounded uses name known' l := by
  induction l generalizing known known' with
  | nil => trivial
  | cons a l ih =>
    refine ⟨List.Subset.trans h.1 hsub, ih h.2 ?_⟩
    exact List.append_subset.2 ⟨List.subset_append_of_subset_left _ hsub, List.subset_append_right _ _⟩

theorem grounded_append {l' : List α} : Grounded uses name known (l ++ l') ↔
    Grounded uses name known l ∧ Grounded uses name (known ++ l.map name) l' := by
  induction l generalizing known with
  | nil => simp [Grounded]
  | cons a l ih => simp [Grounded, ih, and_assoc]

theorem grounded_of_forall (h : ∀ a ∈ l, uses a ⊆ known) : Grounded uses name known l := by
  induction l generalizing known with
  | nil => trivial
  | cons a l ih =>
    refine ⟨h a List.mem_cons_self, ih fun b hb => ?_⟩
    exact List.subset_append_of_subset_left _ (h b (List.mem_cons_of_mem _ hb))

theorem Grounded.cut {before after : List α} {a : α} (h : Grounded uses name known l)
    (hl : l = before ++ a :: after) {b : β} (hb : b ∈ uses a) :
    b ∈ known ∨ b ∈ before.map name := by
  rw [hl] at h
  exact List.mem_append.1 ((grounded_append.1 h).2.1 hb)

end Grounded

namespace Model

variable {m s : Model}

def children (m : Model) : List Model := m.submodels.map (·.2)

theorem grounded_postorderAll {ms : List (String × Model)} {known : List Model}
    (h : ∀ e ∈ ms, ∀ known, Grounded children id known e.2.postorder) :
    Grounded children id known (postorderAll ms) := by
  induction ms generalizing known with
  | nil => trivial
  | cons e ms ih =>
    rw [postorderAll]
    exact grounded_append.2 ⟨h e List.mem_cons_self _, ih fun f hf => h f (List.mem_cons_of_mem _ hf)⟩

theorem grounded_postorder (m : Model) (known : List Model) :
    Grounded children id known m.postorder := by
  induction m using of_submodels generalizing known with
  | h m ih =>
    rw [postorder_eq]
    refine grounded_append.2 ⟨grounded_postorderAll ih, fun s hs => ?_, trivial⟩
    obtain ⟨e, he, rfl⟩ := List.mem_map.1 hs
    rw [List.map_id]
    exact List.mem_append_right _ (mem_postorderAll he (self_mem_postorder e.2))

def childNames (m : Model) : List String := m.children.map name

/-- Keeping the first model of every name keeps the order: what a model needs was passed, so that its
name was seen. -/
theorem grounded_distinctNames {passed ms : List Model} {seen : List String}
    (h : Grounded children id passed ms) (hseen : passed.map name ⊆ seen) :
    Grounded childNames name seen (distinctNames seen ms) := by
  induction ms generalizing passed seen with
  | nil => trivial
  | cons m ms ih =>
    have hnames : (passed ++ [m]).map name ⊆ seen ++ [m.name] := by
      rw [List.map_append]
      exact List.append_subset.2
        ⟨List.subset_append_of_subset_left _ hseen, List.subset_append_right _ _⟩
    rw [distinctNames]
    split_ifs with hm
    · refine ih h.2 (List.Subset.trans hnames (List.append_subset.2 ⟨List.Subset.refl _, ?_⟩))
      simpa using hm
    · refine ⟨List.Subset.trans (List.map_subset _ h.1) hseen, (ih h.2 ?_).mono ?_⟩
      · exact List.Subset.trans hnames (by simp)
      · simp

theorem grounded_dependencyOrder (m : Model) :
    Grounded childNames name [] m.dependencyOrder :=
  grounded_distinctNames (grounded_postorder m []) (List.Subset.refl _)

theorem distinctNames_names_nodup (seen : List String) (ms : List Model) :
    ((distinctNames seen ms).map name).Nodup := by
  induction ms generalizing seen with
  | nil => exact .nil
  | cons m ms ih =>
    rw [distinctNames]
    split_ifs
    · exact ih seen
    · refine List.nodup_cons.2 ⟨fun hmem => ?_, ih _⟩
      obtain ⟨s, hs, hname⟩ := List.mem_map.1 hmem
      exact (mem_of_mem_distinctNames hs).2 (hname ▸ List.mem_cons_self)

theorem comprises_of_listed (hs : s ∈ m.dependencyOrder) : m.Comprises s :=
  mem_postorder_iff.1 (mem_of_mem_distinctNames hs).1

/-- The model that is listed under the name of a sub-model is the sub-model, unless a model of another
definition has this name. -/
theorem exists_name_before {dialect : Dialect} {d : Definition} (h : read dialect d = .ok m)
    {before after : List Model} (hcut : m.dependencyOrder = before ++ s :: after)
    {e : String × Model} (he : e ∈ s.submodels) : ∃ r ∈ before, r.name = e.2.name ∧
      ((∀ t, m.Comprises t → t.name = e.2.name → t.definition = e.2.definition) → r = e.2) := by
  have hchild : e.2.name ∈ s.childNames := List.mem_map_of_mem (List.mem_map_of_mem he)
  obtain ⟨r, hr, hname⟩ :=
    List.mem_map.1 (((grounded_dependencyOrder m).cut hcut hchild).resolve_left List.not_mem_nil)
  have hrm : m.Comprises r := comprises_of_listed (hcut ▸ List.mem_append_left _ hr)
  have hsm : m.Comprises s := comprises_of_listed (hcut ▸ List.mem_append_right _ List.mem_cons_self)
  exact ⟨r, hr, hname, fun hsame => hrm.eq_of_definition h (hsm.submodel he) (hsame r hrm hname)⟩

/-- Whether a model is listed before another one. -/
def ListsBefore (m r s : Model) : Prop :=
  ∃ before after, m.dependencyOrder = before ++ s :: after ∧ r ∈ before

theorem ListsBefore.mem {r : Model} (h : m.ListsBefore r s) :
    r ∈ m.dependencyOrder ∧ s ∈ m.dependencyOrder := by
  obtain ⟨before, after, hcut, hr⟩ := h
  rw [hcut]
  exact ⟨List.mem_append_left _ hr, List.mem_append_right _ List.mem_cons_self⟩

theorem SharesDefinitions.listsBefore {dialect : Dialect} {d : Definition}
    (hshare : m.SharesDefinitions) (h : read dialect d = .ok m) (hs : m.Comprises s)
    {e : String × Model} (he : e ∈ s.submodels) : m.ListsBefore e.2 s := by
  obtain ⟨before, after, hcut⟩ := List.append_of_mem (hshare.mem_dependencyOrder h hs)
  obtain ⟨r, hr, -, hsame⟩ := exists_name_before h hcut he
  have hre : r = e.2 := hsame fun t ht hname =>
    hshare t (mem_postorder_iff.2 ht) e.2 (mem_postorder_iff.2 (hs.submodel he)) hname
  exact ⟨before, after, hcut, hre ▸ hr⟩

theorem Comprises.root_or_submodel (h : m.Comprises s) :
    s = m ∨ ∃ t e, m.Comprises t ∧ e ∈ t.submodels ∧ s = e.2 := by
  induction h with
  | root m => exact .inl rfl
  | @sub m s e he _ ih =>
    rcases ih with rfl | ⟨t, e', ht, he', rfl⟩
    · exact .inr ⟨m, e, .root m, he, rfl⟩
    · exact .inr ⟨t, e', .sub he ht, he', rfl⟩

/-- A tree whose sub-models are listed before the models that embed them has all its models listed,
and no two that are listed share a name. -/
theorem sharesDefinitions_of_listsBefore
    (h : ∀ s, m.Comprises s → ∀ e ∈ s.submodels, m.ListsBefore e.2 s) : m.SharesDefinitions := by
  have hroot : m ∈ m.dependencyOrder := by
    obtain ⟨r, hr, -⟩ := exists_mem_dependencyOrder (self_mem_postorder m)
    cases comprises_of_listed hr with
    | root => exact hr
    | sub he _ => exact (h m (.root m) _ he).mem.2
  have hlisted : ∀ s, m.Comprises s → s ∈ m.dependencyOrder := by
    intro s hs
    rcases hs.root_or_submodel with rfl | ⟨t, e, ht, he, rfl⟩
    · exact hroot
    · exact (h t ht e he).mem.1
  intro s hs t ht hname
  have hsame := List.inj_on_of_nodup_map (distinctNames_names_nodup [] m.postorder)
    (hlisted s (mem_postorder_iff.1 hs)) (hlisted t (mem_postorder_iff.1 ht)) hname
  rw [hsame]

end Model

namespace Code

def plainTypes : List String := ["double", "int", "bool", "char", "FILE"]

def Struct.types (s : Struct) : List String := s.members.map Member.type

theorem valueMember_type (k : GroupKind) (v : Variable) : (valueMember k v).type ∈ plainTypes := by
  have hdouble : "double" ∈ plainTypes := by decide
  have helement : v.element.cType ∈ plainTypes := by cases v.element <;> decide
  unfold valueMember
  split_ifs
  · exact hdouble
  · exact helement

theorem variableMembers_types (adaptive : Bool) (k : GroupKind) (v : Variable) :
    ∀ x ∈ variableMembers adaptive k v, x.type ∈ plainTypes := by
  have hint : "int" ∈ plainTypes := by decide
  have hdouble : "double" ∈ plainTypes := by decide
  have hseries : ∀ x ∈ seriesMembers v.name, x.type ∈ plainTypes := by
    simp [seriesMembers, plainTypes]
  have hlength : ∀ x ∈ lengthMembers v, x.type ∈ plainTypes := by
    intro x hx
    simp only [lengthMembers, List.mem_append, List.mem_cons, List.not_mem_nil, or_false,
      List.mem_map] at hx
    rcases hx with (rfl | rfl) | ⟨axis, -, rfl⟩ <;> exact hint
  have hbuffers : ∀ x ∈ bufferMembers k v, x.type ∈ plainTypes := by
    intro x hx
    obtain ⟨b, -, rfl⟩ := List.mem_map.1 hx
    exact hdouble
  refine List.forall_mem_cons.2 ⟨valueMember_type k v, fun x hx => ?_⟩
  simp only [List.mem_append, List.mem_ite_nil_right] at hx
  rcases hx with (⟨-, hx⟩ | ⟨-, hx⟩) | ⟨-, hx⟩
  · exact hlength x hx
  · exact hseries x hx
  · exact hbuffers x hx

theorem groupStruct_types (model : String) (adaptive : Bool) (g : Group) :
    (groupStruct model adaptive g).types ⊆ plainTypes := by
  intro type htype
  obtain ⟨x, hx, rfl⟩ := List.mem_map.1 htype
  obtain ⟨v, -, hx⟩ := List.mem_flatMap.1 hx
  exact variableMembers_types adaptive g.kind v x hx

theorem oldStatesStruct_types (model : String) (g : Group) :
    (oldStatesStruct model g).types ⊆ plainTypes := by
  intro type htype
  obtain ⟨x, hx, rfl⟩ := List.mem_map.1 htype
  obtain ⟨v, -, rfl⟩ := List.mem_map.1 hx
  exact valueMember_type .states v

theorem numConstsStruct_types (model : String) : (numConstsStruct model).types ⊆ plainTypes := by
  simp [Struct.types, numConstsStruct, plainTypes]

theorem numVarsStruct_types (model : String) : (numVarsStruct model).types ⊆ plainTypes := by
  simp [Struct.types, numVarsStruct, numVars, plainTypes]

theorem familyStruct_types (d : Definition) (f : Family) :
    (familyStruct d f).types ⊆ (filledGroups d).map (fun g => groupStructName d.name g.kind) ++
      ((filledGroups d).filter fun g => g.kind == .states).map fun _ => oldStatesStructName d.name := by
  intro type htype
  obtain ⟨x, hx, rfl⟩ := List.mem_map.1 htype
  rcases List.mem_append.1 hx with hx | hx
  · obtain ⟨g, hg, rfl⟩ := List.mem_map.1 hx
    exact List.mem_append_left _ (List.mem_map_of_mem (List.mem_filter.1 hg).1)
  · obtain ⟨hold, hx⟩ := List.mem_ite_nil_right.1 hx
    rw [Bool.and_eq_true, Definition.hasOldStates, Option.any_eq_true] at hold
    obtain ⟨-, g, hg, hfilled⟩ := hold
    obtain rfl := List.mem_singleton.1 hx
    have hmem : g ∈ filledGroups d :=
      List.mem_filter.2 ⟨List.mem_of_find?_eq_some hg, hfilled⟩
    refine List.mem_append_right _ (List.mem_map.2 ⟨g, List.mem_filter.2 ⟨hmem, ?_⟩, rfl⟩)
    exact List.find?_some (p := fun g : Group => g.kind == .states) hg

theorem grounded_structs {s : Model} {known : List String} (hplain : plainTypes ⊆ known)
    (hsubs : s.childNames.map modelStructName ⊆ known) :
    Grounded Struct.types Struct.name known (structs s) := by
  have hplain' (more : List String) : plainTypes ⊆ known ++ more :=
    List.subset_append_of_subset_left _ hplain
  unfold structs
  dsimp only
  simp only [grounded_append, List.append_assoc]
  refine ⟨?_, ?_, ?_, ?_, ?_, ?_, trivial⟩
  · refine grounded_of_forall fun st hst => ?_
    obtain ⟨g, -, rfl⟩ := List.mem_map.1 hst
    exact List.Subset.trans (groupStruct_types _ _ g) hplain
  · refine grounded_of_forall fun st hst => ?_
    obtain ⟨g, -, rfl⟩ := List.mem_map.1 hst
    exact List.Subset.trans (oldStatesStruct_types _ g) (hplain' _)
  · refine grounded_of_forall fun st hst => ?_
    obtain ⟨f, -, rfl⟩ := List.mem_map.1 hst
    refine List.Subset.trans (familyStruct_types _ f) (List.subset_append_of_subset_right _ ?_)
    simp [groupStruct, oldStatesStruct, Function.comp_def]
  · refine grounded_of_forall fun st hst => ?_
    obtain ⟨-, hst⟩ := List.mem_ite_nil_right.1 hst
    obtain rfl := List.mem_singleton.1 hst
    exact List.Subset.trans (numConstsStruct_types _) (hplain' _)
  · refine grounded_of_forall fun st hst => ?_
    obtain ⟨-, hst⟩ := List.mem_ite_nil_left.1 hst
    obtain rfl := List.mem_singleton.1 hst
    exact List.Subset.trans (numVarsStruct_types _) (hplain' _)
  · intro type htype
    obtain ⟨x, hx, rfl⟩ := List.mem_map.1 htype
    simp only [modelStruct, List.mem_append, List.mem_ite_nil_left, List.mem_ite_nil_right,
      List.mem_singleton] at hx
    rcases hx with ((hx | ⟨hplan, rfl⟩) | ⟨hplan, rfl⟩) | hx
    · obtain ⟨f, hf, rfl⟩ := List.mem_map.1 hx
      have hname : familyStructName s.name f ∈
          ((filledFamilies s.definition).map (familyStruct s.definition)).map Struct.name :=
        List.mem_map_of_mem (List.mem_map_of_mem hf)
      simp only [List.mem_append]
      exact .inr (.inr (.inr (.inl hname)))
    · rw [if_pos hplan]
      simp only [List.mem_append]
      exact .inr (.inr (.inr (.inr (.inl (List.mem_singleton_self _)))))
    · rw [if_neg hplan]
      simp only [List.mem_append]
      exact .inr (.inr (.inr (.inr (.inr (List.mem_singleton_self _)))))
    · obtain ⟨e, he, rfl⟩ := List.mem_map.1 hx
      refine List.mem_append_left _ (hsubs ?_)
      exact List.mem_map_of_mem (List.mem_map_of_mem (List.mem_map_of_mem he))

theorem grounded_flatMap_structs {ms : List Model} {seen known : List String}
    (h : Grounded Model.childNames Model.name seen ms) (hplain : plainTypes ⊆ known)
    (hseen : seen.map modelStructName ⊆ known) :
    Grounded Struct.types Struct.name known (ms.flatMap structs) := by
  induction ms generalizing seen known with
  | nil => trivial
  | cons m ms ih =>
    have hmodel : modelStructName m.name ∈ (structs m).map Struct.name :=
      List.mem_map_of_mem (modelStruct_mem_structs m)
    rw [List.flatMap_cons, grounded_append]
    refine ⟨grounded_structs hplain (List.Subset.trans (List.map_subset _ h.1) hseen), ih h.2 ?_ ?_⟩
    · exact List.subset_append_of_subset_left _ hplain
    · rw [List.map_append]
      refine List.append_subset.2 ⟨List.subset_append_of_subset_left _ hseen, ?_⟩
      exact List.subset_append_of_subset_right _ (List.cons_subset.2 ⟨hmodel, List.nil_subset _⟩)

end Code

namespace GeneratedUnit

open Code

/-- Whether two lists are blocks of a list, the first before the second. -/
def Blocks {α : Type} (l xs ys : List α) : Prop := ∃ p q t, l = p ++ xs ++ q ++ ys ++ t

theorem Blocks.mem_left {α : Type} {l xs ys : List α} (h : Blocks l xs ys) {x : α} (hx : x ∈ xs) :
    x ∈ l := by
  obtain ⟨p, q, t, rfl⟩ := h
  simp [hx]

theorem blocks_flatMap {α : Type} (f : Model → List α) {order before after : List Model} {r s : Model}
    (h : order = before ++ s :: after) (hr : r ∈ before) : Blocks (order.flatMap f) (f r) (f s) := by
  obtain ⟨first, mid, rfl⟩ := List.append_of_mem hr
  refine ⟨first.flatMap f, mid.flatMap f, after.flatMap f, ?_⟩
  simp [h, List.append_assoc]

theorem Blocks.of_map {α β : Type} {f : α → β} {l : List α} {xs ys : List β}
    (h : Blocks (l.map f) xs ys) : ∃ as bs, as.map f = xs ∧ bs.map f = ys ∧ Blocks l as bs := by
  obtain ⟨p, q, t, h⟩ := h
  obtain ⟨l₁, after, rfl, h₁, -⟩ := List.map_eq_append_iff.1 h
  obtain ⟨l₂, bs, rfl, h₂, hbs⟩ := List.map_eq_append_iff.1 h₁
  obtain ⟨l₃, mid, rfl, h₃, -⟩ := List.map_eq_append_iff.1 h₂
  obtain ⟨first, as, rfl, -, has⟩ := List.map_eq_append_iff.1 h₃
  exact ⟨as, bs, has, hbs, first, mid, after, rfl⟩

variable {m r s : Model} {settings : Settings Float} {u : GeneratedUnit}

theorem structs_of_ofModel (h : ofModel m settings = .ok u) :
    u.structs = m.dependencyOrder.map Code.structs := by
  obtain ⟨_, -, h⟩ := bind_eq_ok h
  obtain ⟨_, -, h⟩ := bind_eq_ok h
  obtain ⟨methods, -, h⟩ := bind_eq_ok h
  cases h
  rfl

theorem methods_of_ofModel (h : ofModel m settings = .ok u) :
    u.methods.map Except.ok =
      m.dependencyOrder.flatMap fun s => s.methods.map fun f => Function.ofMethod s f := by
  obtain ⟨-, -, hmethods⟩ := ofModel_eq_ok h
  have hall := map_eq_of_forall₂ (f := id) (g := Except.ok)
    (fun _ _ hfn => (mapError_eq_ok hfn).symm) (mapM_forall₂ hmethods)
  rwa [List.map_id] at hall

/-- In all parts of the unit of `m`, what comes from model `r` stands before what comes from model
`s`. -/
structure EmitsBefore (m : Model) (settings : Settings Float) (u : GeneratedUnit) (r s : Model) :
    Prop where
  structs : Blocks u.structs.flatten (Code.structs r) (Code.structs s)
  series : Blocks u.series (seriesFunctions r (r.name == m.name)) (seriesFunctions s (s.name == m.name))
  methods : ∃ fs gs, fs.map Except.ok = (r.methods.map fun f => Function.ofMethod r f) ∧
    gs.map Except.ok = (s.methods.map fun f => Function.ofMethod s f) ∧ Blocks u.methods fs gs
  scaffold : Blocks u.scaffold (scaffoldFunctions r settings (r.name == m.name))
    (scaffoldFunctions s settings (s.name == m.name))

theorem emitsBefore_of_cut (h : ofModel m settings = .ok u) {before after : List Model}
    (hcut : m.dependencyOrder = before ++ s :: after) (hr : r ∈ before) :
    EmitsBefore m settings u r s := by
  obtain ⟨hseries, hscaffold, -⟩ := ofModel_eq_ok h
  refine ⟨?_, ?_, ?_, ?_⟩
  · rw [structs_of_ofModel h, ← List.flatMap_def]
    exact blocks_flatMap _ hcut hr
  · rw [hseries]
    exact blocks_flatMap _ hcut hr
  · refine Blocks.of_map ?_
    rw [methods_of_ofModel h]
    exact blocks_flatMap _ hcut hr
  · rw [hscaffold]
    exact blocks_flatMap _ hcut hr

theorem EmitsBefore.of_listsBefore (h : ofModel m settings = .ok u) (hlists : m.ListsBefore r s) :
    EmitsBefore m settings u r s := by
  obtain ⟨before, after, hcut, hr⟩ := hlists
  exact emitsBefore_of_cut h hcut hr

/-- In every compiled tree the order lists models of the tree, each name once and the name of every
model. Before a model that is listed, the names of its sub-models are listed, so that in every part of
a unit the code under these names stands before the code of the model; it is the code of the sub-model
itself if no model of the tree shares the name but not the definition. All sub-models of the tree are
themselves listed before the models that embed them exactly if models of one name have one definition,
and their code is emitted before then. No struct of a unit has a member of a type that is declared
after it. -/
theorem emits_submodels_first {dialect : Dialect} {d : Definition}
    (hm : Model.compile dialect d = .ok m) :
    (m.dependencyOrder.map Model.name).Nodup ∧
    (∀ s ∈ m.dependencyOrder, m.Comprises s) ∧
    (∀ s, m.Comprises s → s.name ∈ m.dependencyOrder.map Model.name) ∧
    (∀ before s after, m.dependencyOrder = before ++ s :: after → ∀ e ∈ s.submodels,
      ∃ r ∈ before, r.name = e.2.name ∧
        ((∀ t, m.Comprises t → t.name = e.2.name → t.definition = e.2.definition) → r = e.2) ∧
        ∀ settings u, ofModel m settings = .ok u → EmitsBefore m settings u r s) ∧
    ((∀ s, m.Comprises s → ∀ e ∈ s.submodels, m.ListsBefore e.2 s) ↔ m.SharesDefinitions) ∧
    (m.SharesDefinitions → ∀ settings u, ofModel m settings = .ok u →
      ∀ s, m.Comprises s → ∀ e ∈ s.submodels, EmitsBefore m settings u e.2 s) ∧
    ∀ settings u, ofModel m settings = .ok u → ∀ before st after,
      u.structs.flatten = before ++ st :: after → ∀ x ∈ st.members,
        x.type ∈ plainTypes ∨ x.type ∈ before.map Struct.name := by
  have hread := (Model.compile_eq_ok hm).1
  refine ⟨Model.distinctNames_names_nodup _ _, fun s hs => Model.comprises_of_listed hs, fun s hs => ?_,
    fun before s after hcut e he => ?_, ⟨Model.sharesDefinitions_of_listsBefore, fun hshare s hs e he =>
      hshare.listsBefore hread hs he⟩, fun hshare settings u hu s hs e he =>
      .of_listsBefore hu (hshare.listsBefore hread hs he),
    fun settings u hu before st after hcut x hx => ?_⟩
  · obtain ⟨r, hr, hname⟩ := Model.exists_mem_dependencyOrder (Model.mem_postorder_iff.2 hs)
    exact List.mem_map.2 ⟨r, hr, hname⟩
  · obtain ⟨r, hr, hname, hsame⟩ := Model.exists_name_before hread hcut he
    exact ⟨r, hr, hname, hsame, fun settings u hu => emitsBefore_of_cut hu hcut hr⟩
  · rw [structs_of_ofModel hu, ← List.flatMap_def] at hcut
    have hgrounded := grounded_flatMap_structs (Model.grounded_dependencyOrder m)
      (List.Subset.refl plainTypes) (List.nil_subset _)
    exact hgrounded.cut hcut (List.mem_map_of_mem hx)

def ditch : Definition where
  name := "ditch"
  sources := [⟨"ditch.mdl", "def get(model):\n    return 1.0\n"⟩]
  groups := [{ kind := .control, vars := [{ name := "c" }] }]
  methods := { add := ["get"] }

/-- A polder with a wetland that a ditch leads to, and a ditch of its own. -/
def polder : Definition where
  name := "polder"
  submodels := [("north", {
    name := "wetland"
    sources := [⟨"wetland.mdl", "def get(model):\n    return model.feed.get()\n"⟩]
    methods := { add := ["get"] }
    submodels := [("feed", ditch)] }), ("drain", ditch)]

/-- The ditch is emitted once, before the wetland, and both before the polder. -/
theorem polder_emits_submodels_first :
    ∃ m u a b c, Model.compile {} polder = .ok m ∧ ofModel m .standard = .ok u ∧
      m.dependencyOrder = [a, b, c] ∧ a.name = "ditch" ∧ b.name = "wetland" ∧ c.name = "polder" ∧
      EmitsBefore m .standard u a b ∧ EmitsBefore m .standard u a c ∧
      EmitsBefore m .standard u b c := by
  have hrun : ((Model.compile {} polder).toOption.any fun m =>
      (ofModel m .standard).toOption.any fun _ =>
        m.dependencyOrder.map (fun s => (s.name, s.childNames)) =
          [("ditch", []), ("wetland", ["ditch"]), ("polder", ["wetland", "ditch"])]) := by
    decide +kernel
  obtain ⟨m, hcompile, hu⟩ := exists_ok_of_any hrun
  obtain ⟨u, hunit, horder⟩ := exists_ok_of_any hu
  obtain ⟨-, -, -, hfirst, -⟩ := emits_submodels_first hcompile
  have hbefore {p s t} (hcut : m.dependencyOrder = p ++ s :: t) {x : String}
      (hx : x ∈ s.childNames) : ∃ r ∈ p, r.name = x ∧ EmitsBefore m .standard u r s := by
    obtain ⟨child, hchild, rfl⟩ := List.mem_map.1 hx
    obtain ⟨e, he, rfl⟩ := List.mem_map.1 hchild
    obtain ⟨r, hr, hname, -, hemits⟩ := hfirst p s t hcut e he
    exact ⟨r, hr, hname, hemits .standard u hunit⟩
  obtain ⟨a, l, horder, ha, hl⟩ := List.map_eq_cons_iff.1 (of_decide_eq_true horder)
  obtain ⟨b, l, rfl, hb, hl⟩ := List.map_eq_cons_iff.1 hl
  obtain ⟨c, l, rfl, hc, hl⟩ := List.map_eq_cons_iff.1 hl
  obtain rfl := List.map_eq_nil_iff.1 hl
  obtain ⟨haname, -⟩ := Prod.mk.inj ha
  obtain ⟨hbname, hbsubs⟩ := Prod.mk.inj hb
  obtain ⟨hcname, hcsubs⟩ := Prod.mk.inj hc
  obtain ⟨r₁, hr₁, -, hab⟩ := hbefore (p := [a]) horder (x := "ditch") (by simp [hbsubs])
  obtain ⟨r₂, hr₂, hname₂, hac⟩ :=
    hbefore (p := [a, b]) horder (x := "ditch") (by simp [hcsubs])
  obtain ⟨r₃, hr₃, hname₃, hbc⟩ :=
    hbefore (p := [a, b]) horder (x := "wetland") (by simp [hcsubs])
  obtain rfl : r₁ = a := by simpa using hr₁
  obtain rfl : r₂ = r₁ := by
    rcases List.mem_pair.1 hr₂ with h | rfl
    · exact h
    · exact absurd (hname₂.symm.trans hbname) (by decide)
  obtain rfl : r₃ = b := by
    rcases List.mem_pair.1 hr₃ with rfl | h
    · exact absurd (hname₃.symm.trans haname) (by decide)
    · exact h
  exact ⟨m, u, r₂, r₃, c, hcompile, hunit, horder, haname, hbname, hcname, hab, hac, hbc⟩

def gate (method body : String) (groups : List Group) : Definition where
  name := "gate"
  sources := [⟨"gate.mdl", "def " ++ method ++ "(model):\n    return " ++ body ++ "\n"⟩]
  groups
  methods := { add := [method] }

/-- A levee with two gates of one name, one of which has a parameter. -/
def levee : Definition where
  name := "levee"
  sources := [⟨"levee.mdl",
    "def calc(model):\n    model.sequences.fluxes.q = model.north.get() + model.south.put()\n"⟩]
  groups := [{ kind := .fluxes, vars := [{ name := "q" }] }]
  methods := { run := ["calc"] }
  submodels := [("north", gate "get" "1.0" []),
    ("south", gate "put" "model.parameters.control.c" [{ kind := .control, vars := [{ name := "c" }] }])]

/-- The levee calls a method of the second gate, of which the unit has neither this routine nor the
struct of its parameters. -/
theorem levee_omits_submodel :
    ∃ m u e, Model.compile {} levee = .ok m ∧ ofModel m .standard = .ok u ∧
      m ∈ m.dependencyOrder ∧ e ∈ m.submodels ∧
      (∃ f ∈ e.2.methods, ∀ fn ∈ u.functions, fn.name ≠ functionName e.2.name f.body.name) ∧
      (∃ st ∈ Code.structs e.2, ∀ st' ∈ u.structs.flatten, st'.name ≠ st.name) ∧
      ¬m.SharesDefinitions ∧ ¬EmitsBefore m .standard u e.2 m := by
  have hrun : ((Model.compile {} levee).toOption.any fun m =>
      (ofModel m .standard).toOption.any fun u =>
        (∀ e ∈ m.submodels, ∀ s ∈ e.2.postorder, s.name ≠ m.name) ∧ ∃ e ∈ m.submodels,
        (∃ f ∈ e.2.methods, ∀ fn ∈ u.functions, fn.name ≠ functionName e.2.name f.body.name) ∧
        ∃ st ∈ Code.structs e.2, ∀ st' ∈ u.structs.flatten, st'.name ≠ st.name) := by
    decide +kernel
  obtain ⟨m, hm, hu⟩ := exists_ok_of_any hrun
  obtain ⟨u, hunit, hnames⟩ := exists_ok_of_any hu
  obtain ⟨hnames, e, he, ⟨f, hf, hlost⟩, hstruct⟩ := of_decide_eq_true hnames
  have hlisted : m ∈ m.dependencyOrder := by
    obtain ⟨r, hr, hname⟩ := Model.exists_mem_dependencyOrder (Model.self_mem_postorder m)
    cases Model.comprises_of_listed hr with
    | root => exact hr
    | sub he hs => exact absurd hname (hnames _ he r (Model.mem_postorder_iff.2 hs))
  have homits : ¬EmitsBefore m .standard u e.2 m := by
    intro hemits
    obtain ⟨fs, gs, hfs, -, hblocks⟩ := hemits.methods
    have hok : Function.ofMethod e.2 f ∈ fs.map Except.ok := hfs ▸ List.mem_map_of_mem hf
    obtain ⟨fn, hfn, hok⟩ := List.mem_map.1 hok
    refine hlost fn ((mem_functions_iff hunit).2 (.inl (hblocks.mem_left hfn))) ?_
    exact (Function.ofMethod_eq_ok hok.symm).1
  refine ⟨m, u, e, hm, hunit, hlisted, he, ⟨f, hf, hlost⟩, hstruct, fun hshare => homits ?_, homits⟩
  exact .of_listsBefore hunit (hshare.listsBefore (Model.compile_eq_ok hm).1 (.root m) he)

end GeneratedUnit

end ProcessModel
