import ProcessModel.Proofs.Storage

/-! Where the values of a tree are kept.

The fresh store of a tree is filled slot after slot, and no slot takes the place of another: the
paths of its slots are those of the variables, and once more those of the states for their old
values. -/

namespace ProcessModel

namespace Keyed

variable {α : Type} {key : String} {table : Keyed α}

theorem insert_perm (h : key ∉ table.keys) (value : α) :
    (insert key value table).Perm ((key, value) :: table) := by
  induction table with
  | nil => exact .refl _
  | cons e table ih =>
    obtain ⟨k, v⟩ := e
    have hk : key ≠ k := by
      rintro rfl
      exact h List.mem_cons_self
    have hrest : key ∉ keys table := fun hmem => h (List.mem_cons_of_mem _ hmem)
    by_cases hlt : key < k
    · simp [insert, hlt]
    · simp only [insert, hlt, hk, if_false]
      exact ((ih hrest).cons _).trans (.swap _ _ _)

theorem foldl_insert_perm (entries : List (String × α)) (h : (keys (entries ++ table)).Nodup) :
    (entries.foldl (fun t e => insert e.1 e.2 t) table).Perm (entries ++ table) := by
  induction entries generalizing table with
  | nil => exact .refl _
  | cons e entries ih =>
    have hnew : e.1 ∉ table.keys := by
      intro hmem
      obtain ⟨x, hx, heq⟩ := List.mem_map.1 hmem
      exact (List.nodup_cons.1 h).1 (List.mem_map.2 ⟨x, List.mem_append_right _ hx, heq⟩)
    have hperm : (entries ++ insert e.1 e.2 table).Perm (e :: entries ++ table) :=
      ((insert_perm hnew e.2).append_left entries).trans List.perm_middle
    exact (ih ((hperm.map _).nodup_iff.2 h)).trans hperm

theorem ofList_perm {entries : List (String × α)} (h : (keys entries).Nodup) :
    (ofList entries).Perm entries :=
  (foldl_insert_perm entries (by simpa using h)).trans (by simp)

end Keyed

/-- The path of a state's value at the start of the step. -/
def VarPath.old (p : VarPath) : VarPath := { p with group := .oldStates }

def VarPath.isState (p : VarPath) : Bool := p.group = .kind .states

namespace Definition

mutual

/-- The paths of the variables of a tree below `owner`, in the order of declaration. -/
def paths (owner : List String) : Definition → List VarPath
  | ⟨_, _, _, groups, _, _, _, submodels⟩ =>
    (groups.flatMap fun g => g.vars.map fun v => ⟨owner, .kind g.kind, v.name⟩) ++
      pathsAll owner submodels

def pathsAll (owner : List String) : List (String × Definition) → List VarPath
  | [] => []
  | (name, d) :: rest => paths (owner ++ [name]) d ++ pathsAll owner rest

end

theorem paths_eq (owner : List String) (d : Definition) :
    d.paths owner = (d.groups.flatMap fun g => g.vars.map fun v => ⟨owner, .kind g.kind, v.name⟩) ++
      pathsAll owner d.submodels := by
  cases d
  rw [paths]

theorem pathsAll_eq (owner : List String) (subs : List (String × Definition)) :
    pathsAll owner subs = subs.flatMap fun e => e.2.paths (owner ++ [e.1]) := by
  induction subs with
  | nil => rw [pathsAll, List.flatMap_nil]
  | cons e subs ih => rw [pathsAll, ih, List.flatMap_cons]

mutual

theorem exists_of_mem_paths {owner : List String} {d : Definition} {p : VarPath}
    (h : p ∈ d.paths owner) : ∃ o k name, p = ⟨owner ++ o, .kind k, name⟩ := by
  match d with
  | ⟨_, _, _, groups, _, _, _, submodels⟩ =>
    rw [paths] at h
    rcases List.mem_append.1 h with hgroup | hbelow
    · obtain ⟨g, -, hvars⟩ := List.mem_flatMap.1 hgroup
      obtain ⟨v, -, rfl⟩ := List.mem_map.1 hvars
      exact ⟨[], g.kind, v.name, by rw [List.append_nil]⟩
    · obtain ⟨e, -, o, k, name, rfl⟩ := exists_of_mem_pathsAll hbelow
      exact ⟨e :: o, k, name, by rw [List.append_assoc, List.singleton_append]⟩

theorem exists_of_mem_pathsAll {owner : List String} {subs : List (String × Definition)}
    {p : VarPath} (h : p ∈ pathsAll owner subs) :
    ∃ x, x ∈ subs.map (·.1) ∧ ∃ o k name, p = ⟨owner ++ [x] ++ o, .kind k, name⟩ := by
  match subs with
  | [] => simp [pathsAll] at h
  | (x, d) :: rest =>
    rw [pathsAll] at h
    rcases List.mem_append.1 h with hhere | hrest
    · exact ⟨x, List.mem_cons_self, exists_of_mem_paths hhere⟩
    · obtain ⟨y, hy, hp⟩ := exists_of_mem_pathsAll hrest
      exact ⟨y, List.mem_cons_of_mem _ hy, hp⟩

end

theorem Distinct.groupPaths_nodup {d : Definition} (h : d.Distinct) (owner : List String) :
    (d.groups.flatMap fun g => g.vars.map fun v =>
      (⟨owner, .kind g.kind, v.name⟩ : VarPath)).Nodup := by
  have hvars : ∀ g ∈ d.groups,
      (g.vars.map fun v => (⟨owner, .kind g.kind, v.name⟩ : VarPath)).Nodup := by
    intro g hg
    refine .of_map (·.name) ?_
    simpa [Function.comp_def] using h.names g hg
  refine List.nodup_flatMap.2 ⟨hvars, (List.pairwise_map.1 h.kinds).imp ?_⟩
  intro a b hkind p ha hb
  obtain ⟨v, -, rfl⟩ := List.mem_map.1 ha
  obtain ⟨w, -, heq⟩ := List.mem_map.1 hb
  simp only [VarPath.mk.injEq, GroupRef.kind.injEq] at heq
  exact hkind heq.2.1.symm

theorem Built.paths_nodup {d : Definition} (hd : d.Built) (owner : List String) :
    (d.paths owner).Nodup := by
  induction hd generalizing owner with
  | intro hbuild hsub ih =>
    have hdistinct := distinct_of_build hbuild
    rw [paths_eq]
    refine (hdistinct.groupPaths_nodup owner).append ?_ ?_
    · rw [pathsAll_eq]
      refine List.nodup_flatMap.2 ⟨fun e he => ih e he _,
        (List.pairwise_map.1 hdistinct.submodels).imp fun {a b} hname p ha hb => ?_⟩
      obtain ⟨o, k, name, rfl⟩ := exists_of_mem_paths ha
      obtain ⟨o', k', name', heq⟩ := exists_of_mem_paths hb
      simp only [VarPath.mk.injEq, List.append_assoc, List.append_cancel_left_eq] at heq
      exact hname (List.cons.inj heq.1).1
    · intro p hgroup hbelow
      obtain ⟨g, -, hvars⟩ := List.mem_flatMap.1 hgroup
      obtain ⟨v, -, rfl⟩ := List.mem_map.1 hvars
      obtain ⟨x, -, o, k, name, heq⟩ := exists_of_mem_pathsAll hbelow
      simp at heq

end Definition

namespace Store

open Definition

def slotPaths (p : VarPath) : List VarPath := p :: if p.isState then [p.old] else []

theorem slotsOf_paths (owner : List String) (k : GroupKind) (v : Variable) :
    (slotsOf owner k v).map (·.path) = slotPaths ⟨owner, .kind k, v.name⟩ := by
  by_cases hk : k = .states <;>
    simp [slotsOf, slotPaths, VarPath.isState, VarPath.old, Slot.fresh, hk]

mutual

theorem freshSlots_paths (owner : List String) (d : Definition) :
    (freshSlots owner d).map (·.path) = (d.paths owner).flatMap slotPaths := by
  match d with
  | ⟨_, _, _, groups, _, _, _, submodels⟩ =>
    rw [freshSlots, paths, List.map_append, List.flatMap_append,
      freshSlotsAll_paths owner submodels]
    simp [List.map_flatMap, List.flatMap_assoc, List.flatMap_map, slotsOf_paths]

theorem freshSlotsAll_paths (owner : List String) (subs : List (String × Definition)) :
    (freshSlotsAll owner subs).map (·.path) = (pathsAll owner subs).flatMap slotPaths := by
  match subs with
  | [] => rw [freshSlotsAll, pathsAll, List.map_nil, List.flatMap_nil]
  | (name, d) :: rest =>
    rw [freshSlotsAll, pathsAll, List.map_append, List.flatMap_append, freshSlots_paths _ d,
      freshSlotsAll_paths owner rest]

end

theorem flatMap_cons_perm {α : Type} (l : List α) (f : α → List α) :
    (l.flatMap fun x => x :: f x).Perm (l ++ l.flatMap f) := by
  induction l with
  | nil => exact .refl _
  | cons x l ih =>
    simp only [List.flatMap_cons, List.cons_append]
    refine .cons x ((ih.append_left (f x)).trans ?_)
    rw [← List.append_assoc, ← List.append_assoc]
    exact List.perm_append_comm.append_right _

/-- The slots of a tree: one for each variable, and one more for each state. -/
theorem freshSlots_paths_perm (owner : List String) (d : Definition) :
    ((freshSlots owner d).map (·.path)).Perm
      (d.paths owner ++ ((d.paths owner).filter VarPath.isState).map VarPath.old) := by
  have hold : ∀ l : List VarPath, (l.flatMap fun p => if p.isState then [p.old] else []) =
      (l.filter VarPath.isState).map VarPath.old := by
    intro l
    induction l with
    | nil => rfl
    | cons p l ih => by_cases hp : p.isState <;> simp [hp, ih]
  rw [freshSlots_paths, ← hold]
  exact flatMap_cons_perm _ _

variable {d : Definition}

variable {p : VarPath}

section

variable (hd : d.Built)
include hd

theorem mem_freshSlots_paths : p ∈ (freshSlots [] d).map (·.path) ↔ (d.declared? p).isSome := by
  rw [List.mem_map]
  constructor
  · rintro ⟨slot, hslot, rfl⟩
    obtain ⟨q, v, hq, rfl⟩ := declared_of_mem_freshSlots hd hslot
    simp [Slot.fresh, VarPath.below, hq]
  · intro hp
    obtain ⟨v, hv⟩ := Option.isSome_iff_exists.1 hp
    obtain ⟨d', hd', hv⟩ := Option.bind_eq_some_iff.1 hv
    exact ⟨_, fresh_mem_freshSlots [] hd' hv, rfl⟩

theorem mem_paths_iff : p ∈ d.paths [] ↔ (d.declared? p).isSome ∧ p.group ≠ .oldStates := by
  rw [← mem_freshSlots_paths hd, freshSlots_paths, List.mem_flatMap]
  constructor
  · intro hp
    obtain ⟨o, k, name, rfl⟩ := exists_of_mem_paths hp
    exact ⟨⟨_, hp, List.mem_cons_self⟩, by simp⟩
  · rintro ⟨⟨q, hq, hpq⟩, hgroup⟩
    rcases List.mem_cons.1 hpq with rfl | hold
    · exact hq
    · split_ifs at hold
      · obtain rfl := List.mem_singleton.1 hold
        exact absurd rfl hgroup
      · cases hold

theorem slotPaths_nodup :
    (d.paths [] ++ ((d.paths []).filter VarPath.isState).map VarPath.old).Nodup := by
  refine (hd.paths_nodup []).append ?_ ?_
  · refine ((hd.paths_nodup []).filter _).map_on fun p hp q hq heq => ?_
    have hgroup : ∀ r ∈ (d.paths []).filter VarPath.isState, r.group = .kind .states :=
      fun r hr => of_decide_eq_true (List.mem_filter.1 hr).2
    obtain ⟨o, g, name⟩ := p
    obtain ⟨o', g', name'⟩ := q
    obtain rfl : g = _ := hgroup _ hp
    obtain rfl : g' = _ := hgroup _ hq
    simpa [VarPath.old] using heq
  · intro p hp hold
    obtain ⟨q, -, rfl⟩ := List.mem_map.1 hold
    exact ((mem_paths_iff hd).1 hp).2 rfl

/-- The keys of the slots of a tree are distinct, so that none is overwritten. -/
theorem freshSlots_keys_nodup : ((freshSlots [] d).map fun s => s.path.key).Nodup := by
  have hpaths := (freshSlots_paths_perm [] d).nodup_iff.2 (slotPaths_nodup hd)
  have hkeys := hpaths.map_on (f := VarPath.key) fun p hp q hq heq =>
    hd.path_eq_of_key ((mem_freshSlots_paths hd).1 hp) ((mem_freshSlots_paths hd).1 hq) heq
  rwa [List.map_map] at hkeys

theorem ofDefinition_perm :
    (ofDefinition d).Perm ((freshSlots [] d).map fun s => (s.path.key, s)) := by
  refine Keyed.ofList_perm ?_
  rw [Keyed.keys, List.map_map]
  exact freshSlots_keys_nodup hd

theorem ofDefinition_paths :
    ((ofDefinition d).map (·.2.path)).Perm
      (d.paths [] ++ ((d.paths []).filter VarPath.isState).map VarPath.old) := by
  refine ((ofDefinition_perm hd).map _).trans ?_
  rw [List.map_map]
  exact freshSlots_paths_perm [] d

theorem ofDefinition_keys_nodup : (ofDefinition d).keys.Nodup := by
  have hkeys := ((ofDefinition_perm hd).map (·.1)).nodup_iff.2
  rw [List.map_map] at hkeys
  exact hkeys (freshSlots_keys_nodup hd)

end

variable {s : Store} {slot : Slot}

theorem Fits.exists_slot (hd : d.Built) (h : Fits d s) {v : Variable}
    (hp : d.declared? p = some v) : ∃ slot, s.get? p.key = some slot ∧ slot.Fits p v := by
  have hmem : p.key ∈ s.keys := by
    rw [h.keys, mem_keys_iff]
    exact ⟨_, (get?_ofDefinition hd).2 ⟨p, v, hp, rfl, rfl⟩⟩
  obtain ⟨slot, hslot⟩ := mem_keys_iff.1 hmem
  exact ⟨slot, hslot, h.slot_fits hd hp hslot⟩

theorem get?_newToOld (s : Store) (key : String) :
    s.newToOld.get? key = (s.get? key).map s.renewed := by
  rw [newToOld_eq, get?_map s fun _ => s.renewed]

theorem renewed_of_ne (h : slot.path.group ≠ .oldStates) : s.renewed slot = slot := by
  rw [renewed, if_neg h]

theorem renewed_of_get? {new : Slot} (h : slot.path.group = .oldStates)
    (hnew : s.get? { slot.path with group := .kind .states }.key = some new) :
    s.renewed slot = { slot with shape := new.shape, data := new.data } := by
  rw [renewed, if_pos h, hnew]

section

variable (hd : d.Built) (h : Fits d s)
include hd h

theorem Fits.get?_newToOld_of_mem (hp : p ∈ d.paths []) : s.newToOld.get? p.key = s.get? p.key := by
  obtain ⟨hdeclared, hgroup⟩ := (mem_paths_iff hd).1 hp
  obtain ⟨v, hv⟩ := Option.isSome_iff_exists.1 hdeclared
  obtain ⟨slot, hslot, hfits⟩ := h.exists_slot hd hv
  rw [get?_newToOld, hslot, Option.map_some, renewed_of_ne (hfits.path ▸ hgroup)]

theorem Fits.get?_newToOld_old (hp : p ∈ d.paths []) (hstate : p.isState) :
    ∃ new old, s.get? p.key = some new ∧ s.get? p.old.key = some old ∧
      s.newToOld.get? p.old.key = some { old with shape := new.shape, data := new.data } := by
  obtain ⟨v, hv⟩ := Option.isSome_iff_exists.1 ((mem_paths_iff hd).1 hp).1
  replace hstate : p.group = .kind .states := of_decide_eq_true hstate
  obtain ⟨new, hnew, -⟩ := h.exists_slot hd hv
  obtain ⟨old, hold, hfits⟩ := h.exists_old hd hv hstate
  have hpath : ({ old.path with group := .kind .states } : VarPath) = p := by
    rw [hfits.path, ← hstate]
  refine ⟨new, old, hnew, hold, ?_⟩
  rw [get?_newToOld, VarPath.old, hold, Option.map_some,
    renewed_of_get? (by rw [hfits.path]) (hpath ▸ hnew)]

theorem Fits.get?_of_mem {e : String × Slot} (he : e ∈ s) : s.get? e.1 = some e.2 := by
  have hnodup : (s.map (·.1)).Nodup := by
    have hkeys := ofDefinition_keys_nodup hd
    rwa [← h.keys] at hkeys
  rw [Keyed.get?, find?_of_nodup hnodup he]
  rfl

theorem Fits.newToOld_newToOld : s.newToOld.newToOld = s.newToOld := by
  rw [newToOld_eq s.newToOld, newToOld_eq s, List.map_map]
  refine List.map_congr_left fun e he => ?_
  rw [← newToOld_eq]
  refine Prod.ext rfl ?_
  obtain ⟨p, v, hp, -, hfits⟩ := h.slots _ _ (h.get?_of_mem hd he)
  by_cases hgroup : e.2.path.group = .oldStates
  · have hstate : d.declared? { p with group := .kind .states } = some v := by
      rw [← hp, ← hfits.path]
      simp [declared?, hgroup, GroupRef.declaring]
    obtain ⟨new, hnew, hnewFits⟩ := h.exists_slot hd hstate
    rw [← hfits.path] at hnew
    have hrenewed := renewed_of_get? hgroup hnew
    have hkept : s.newToOld.get? { e.2.path with group := .kind .states }.key = some new := by
      rw [get?_newToOld, hnew, Option.map_some, renewed_of_ne (by rw [hnewFits.path]; simp)]
    show s.newToOld.renewed (s.renewed e.2) = s.renewed e.2
    rw [hrenewed]
    exact renewed_of_get? hgroup hkept
  · show s.newToOld.renewed (s.renewed e.2) = s.renewed e.2
    rw [renewed_of_ne hgroup, renewed_of_ne hgroup]

end

/-- The key of a variable of a tree, or of the old value of a state, is no other's. The fresh store
has therefore one slot for each variable and one more for each state, and in filling it nothing is
overwritten. When the states of a store become the old ones, each old value gets the array of its
state and keeps its path and element type, the slots of all variables stay as they are, and doing it
again changes nothing. -/
theorem slots_unshared (hd : d.Built) :
    (∀ p q, (d.declared? p).isSome → (d.declared? q).isSome → p.key = q.key → p = q) ∧
    (∀ p, (d.declared? p).isSome ↔
      p ∈ d.paths [] ++ ((d.paths []).filter VarPath.isState).map VarPath.old) ∧
    (d.paths [] ++ ((d.paths []).filter VarPath.isState).map VarPath.old).Nodup ∧
    ((ofDefinition d).map (·.2.path)).Perm
      (d.paths [] ++ ((d.paths []).filter VarPath.isState).map VarPath.old) ∧
    (ofDefinition d).Perm ((freshSlots [] d).map fun slot => (slot.path.key, slot)) ∧
    (ofDefinition d).length = (d.paths []).length + ((d.paths []).filter VarPath.isState).length ∧
    ∀ s, Reached d s →
      s.newToOld.keys = s.keys ∧
      (∀ p ∈ d.paths [], s.newToOld.get? p.key = s.get? p.key) ∧
      (∀ p ∈ d.paths [], p.isState → ∃ new old, s.newToOld.get? p.key = some new ∧
        s.get? p.old.key = some old ∧
        s.newToOld.get? p.old.key = some { old with shape := new.shape, data := new.data }) ∧
      s.newToOld.newToOld = s.newToOld := by
  have hpaths := ofDefinition_paths hd
  refine ⟨fun p q => hd.path_eq_of_key, fun p => ?_, slotPaths_nodup hd, hpaths,
    ofDefinition_perm hd, ?_, fun s hs => ?_⟩
  · rw [← mem_freshSlots_paths hd, (freshSlots_paths_perm [] d).mem_iff]
  · simpa using hpaths.length_eq
  · have hfits := hs.fits hd
    refine ⟨(newToOld_fits hd hfits).keys.trans hfits.keys.symm,
      fun p hp => hfits.get?_newToOld_of_mem hd hp, fun p hp hstate => ?_,
      hfits.newToOld_newToOld hd⟩
    obtain ⟨new, old, hnew, hold, hrenewed⟩ := hfits.get?_newToOld_old hd hp hstate
    exact ⟨new, old, (hfits.get?_newToOld_of_mem hd hp).trans hnew, hold, hrenewed⟩

def terrace : Definition where
  name := "terrace"
  groups := [{ kind := .states, vars := [{ name := "s", ndim := 1 }] }]
  submodels := [("states", {
    name := "bed"
    groups := [{ kind := .inputs, vars := [{ name := "s" }] },
      { kind := .states, vars := [{ name := "s", ndim := 1, element := .int }] }] })]

/-- Five slots for three variables with two states among them; the bed's old value follows its
state, that of the terrace follows its own. -/
theorem terrace_slots_unshared :
    terrace.Built ∧
    (terrace.paths []).map VarPath.key = ["states.s", "states.inputs.s", "states.states.s"] ∧
    (ofDefinition terrace).length = 5 ∧
    ∃ s, Reached terrace s ∧ s.flat "states.old_states.s" = .ok #[1.0, 2.0] ∧
      s.newToOld.flat "states.old_states.s" = .ok #[3.0, 4.0] ∧
      s.newToOld.get? "states.s" = s.get? "states.s" ∧ s.newToOld.newToOld = s.newToOld := by
  have hbuilt : terrace.Built := by
    refine .of_canonical (by decide) (by decide +kernel) (by decide) ?_
    simp only [terrace, List.mem_singleton, forall_eq]
    exact .of_canonical (by decide) (by decide +kernel) (by decide) (by simp)
  obtain ⟨-, -, -, -, -, hlength, hrun⟩ := slots_unshared hbuilt
  have hreached : Reached terrace (after terrace [.setArray "states.states.s" [2] #[1.5, 2.0],
      .setFlat "states.states.s" #[3.0, 4.0]]) :=
    .change (.change .fresh (.setArray "states.states.s" [2] #[1.5, 2.0]) rfl)
      (.setFlat "states.states.s" #[3.0, 4.0]) trivial
  obtain ⟨-, hkept, -, hagain⟩ := hrun _ hreached
  have hpaths : (terrace.paths []).map VarPath.key =
    ["states.s", "states.inputs.s", "states.states.s"] := by decide +kernel
  refine ⟨hbuilt, hpaths, hlength.trans (by decide +kernel), _, hreached,
    toOption_eq_some (by decide +kernel), toOption_eq_some (by decide +kernel),
    hkept ⟨[], .kind .states, "s"⟩ (by decide +kernel), hagain⟩

end Store

end ProcessModel
