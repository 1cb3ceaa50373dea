import Mathlib.Data.List.Nodup
import ProcessModel.Proofs.Keys

/-! The variables of a tree and the slots of its fresh store.

In a definition that was built the groups have different kinds, the variables of a group different
names, and so have the sub-models. A path therefore leads to at most one variable, and the key of a
variable leads back to its path. -/

namespace ProcessModel

theorem GroupRef.name_inj {a b : GroupRef} (h : a.name = b.name) : a = b := by
  have hkind : ∀ k : GroupKind, GroupKind.ofName? k.name = some k := by
    intro k
    cases k <;> decide
  have hold : GroupKind.ofName? GroupRef.oldStates.name = none := by decide
  cases a with
  | kind k =>
    cases b with
    | kind l =>
      have hback := congrArg GroupKind.ofName? (show k.name = l.name from h)
      rw [hkind, hkind] at hback
      exact congrArg kind (Option.some.inj hback)
    | oldStates => exact absurd (hkind k) (by rw [show k.name = _ from h, hold]; simp)
  | oldStates =>
    cases b with
    | kind l => exact absurd (hkind l) (by rw [show l.name = _ from h.symm, hold]; simp)
    | oldStates => rfl

theorem find?_of_nodup {α β : Type} [DecidableEq β] {f : α → β} {l : List α} (h : (l.map f).Nodup)
    {x : α} (hx : x ∈ l) : l.find? (fun y => f y == f x) = some x := by
  induction l with
  | nil => cases hx
  | cons y l ih =>
    rw [List.map_cons, List.nodup_cons] at h
    rcases List.mem_cons.1 hx with rfl | hmem
    · simp
    · have hne : f y ≠ f x := fun heq => h.1 (heq ▸ List.mem_map_of_mem hmem)
      simp [hne, ih h.2 hmem]

namespace Definition

/-- No name of a definition stands for two things. -/
structure Distinct (d : Definition) : Prop where
  kinds : (d.groups.map (·.kind)).Nodup
  names : ∀ g ∈ d.groups, (g.vars.map (·.name)).Nodup
  submodels : (d.submodels.map (·.1)).Nodup

theorem names_of_faultFrom? {kind : GroupKind} {before vars : List Variable}
    (h : Group.faultFrom? kind before vars = none) :
    (vars.map (·.name)).Nodup ∧ ∀ v ∈ vars, ∀ w ∈ before, w.name ≠ v.name := by
  induction vars generalizing before with
  | nil => simp
  | cons v vars ih =>
    rw [Group.faultFrom?, Option.or_eq_none_iff] at h
    obtain ⟨hnodup, hrest⟩ := ih h.2
    have hv : ∀ w ∈ before, w.name ≠ v.name := by
      intro w hw heq
      have hany : (before.any fun w => w.name == v.name) = true :=
        List.any_eq_true.2 ⟨w, hw, by simp [heq]⟩
      by_cases hname : isIdentifier v.name <;> simp [Group.variableFault?, hany, hname] at h
    refine ⟨?_, List.forall_mem_cons.2 ⟨hv, fun w hw u hu => hrest w hw u (by simp [hu])⟩⟩
    rw [List.map_cons, List.nodup_cons]
    refine ⟨fun hmem => ?_, hnodup⟩
    obtain ⟨w, hw, heq⟩ := List.mem_map.1 hmem
    exact hrest w hw v (by simp) heq.symm

variable {d : Definition}

theorem submodels_of_submodelFault? {before names : List String}
    (h : submodelFault? d before names = none) : names.Nodup ∧ ∀ name ∈ names, name ∉ before := by
  induction names generalizing before with
  | nil => simp
  | cons name names ih =>
    unfold submodelFault? at h
    split_ifs at h with hfault
    simp only [Bool.or_eq_true, not_or, List.contains_iff_mem] at hfault
    obtain ⟨hnodup, hrest⟩ := ih h
    refine ⟨List.nodup_cons.2 ⟨fun hmem => hrest name hmem (by simp), hnodup⟩, ?_⟩
    exact List.forall_mem_cons.2 ⟨hfault.2, fun x hx hb => hrest x hx (by simp [hb])⟩

theorem Accepted.distinct (h : d.Accepted) : d.Distinct :=
  ⟨h.kinds, fun g hg => (names_of_faultFrom? (h.groups g hg)).1,
    (submodels_of_submodelFault? h.submodels).1⟩

theorem distinct_of_build {draft : Definition} (h : build draft = .ok d) : d.Distinct :=
  (accepted_of_build h).distinct

namespace Distinct

variable {d : Definition}

theorem var?_eq (h : d.Distinct) {g : Group} (hg : g ∈ d.groups) {v : Variable} (hv : v ∈ g.vars) :
    d.var? g.kind v.name = some v := by
  have hgroup : d.group? g.kind = some g := find?_of_nodup h.kinds hg
  rw [var?, hgroup]
  exact find?_of_nodup (h.names g hg) hv

theorem submodel?_eq (h : d.Distinct) {e : String × Definition} (he : e ∈ d.submodels) :
    d.submodel? e.1 = some e.2 := by
  rw [submodel?, find?_of_nodup h.submodels he]
  rfl

end Distinct

theorem Built.distinct (h : d.Built) : d.Distinct := by
  obtain ⟨hbuild, -⟩ := h
  exact distinct_of_build hbuild

theorem Built.path_eq_of_key (h : d.Built) {p q : VarPath} (hp : (d.declared? p).isSome)
    (hq : (d.declared? q).isSome) (hkey : p.key = q.key) : p = q := by
  have hnames := joinWith_inj (h.pointless hp) (h.pointless hq) (by simp) (by simp) hkey
  have howner : p.owner = q.owner := List.append_inj_left' hnames rfl
  have hrest : [p.group.name, p.name] = [q.group.name, q.name] := List.append_inj_right' hnames rfl
  simp only [List.cons.injEq, and_true] at hrest
  cases p
  cases q
  simp only [VarPath.mk.injEq]
  exact ⟨howner, GroupRef.name_inj hrest.1, hrest.2⟩

end Definition

namespace Store

variable {owner : List String} {slot : Slot}

theorem mem_slotsOf {k : GroupKind} {v : Variable} (h : slot ∈ slotsOf owner k v) :
    ∃ r : GroupRef, r.declaring = k ∧ slot = .fresh ⟨owner, r, v.name⟩ v.element v.ndim := by
  obtain ⟨r, hr, rfl⟩ := List.mem_map.1 h
  refine ⟨r, ?_, rfl⟩
  split_ifs at hr with hk
  · simp only [List.mem_cons, List.not_mem_nil, or_false] at hr
    rcases hr with rfl | rfl
    · rfl
    · exact hk.symm
  · obtain rfl := List.mem_singleton.1 hr
    rfl

theorem exists_of_mem_freshSlotsAll {subs : List (String × Definition)}
    (h : slot ∈ freshSlotsAll owner subs) : ∃ e ∈ subs, slot ∈ freshSlots (owner ++ [e.1]) e.2 := by
  induction subs with
  | nil => simp [freshSlotsAll] at h
  | cons e subs ih =>
    obtain ⟨name, d⟩ := e
    rw [freshSlotsAll] at h
    rcases List.mem_append.1 h with hhere | hrest
    · exact ⟨(name, d), by simp, hhere⟩
    · obtain ⟨e, he, hslot⟩ := ih hrest
      exact ⟨e, by simp [he], hslot⟩

theorem declared_of_mem_freshSlots {d : Definition} (hd : d.Built) (h : slot ∈ freshSlots owner d) :
    ∃ p v, d.declared? p = some v ∧ slot = .fresh (p.below owner) v.element v.ndim := by
  induction hd generalizing owner with
  | intro hbuild hsub ih =>
    have hdistinct := Definition.distinct_of_build hbuild
    rw [freshSlots_eq] at h
    rcases List.mem_append.1 h with hgroup | hbelow
    · obtain ⟨g, hg, hvars⟩ := List.mem_flatMap.1 hgroup
      obtain ⟨v, hv, hslot⟩ := List.mem_flatMap.1 hvars
      obtain ⟨r, hr, rfl⟩ := mem_slotsOf hslot
      refine ⟨⟨[], r, v.name⟩, v, ?_, by simp [VarPath.below]⟩
      rw [Definition.declared?, hr]
      exact hdistinct.var?_eq hg hv
    · obtain ⟨e, he, hslot⟩ := exists_of_mem_freshSlotsAll hbelow
      obtain ⟨p, v, hp, rfl⟩ := ih e he hslot
      refine ⟨p.below [e.1], v, ?_, by rw [VarPath.below_below]⟩
      rw [← hp]
      simp [Definition.declared?, Definition.descend?, VarPath.below, hdistinct.submodel?_eq he]

/-- The fresh store has one slot under the key of every variable of the tree, and no other. -/
theorem get?_ofDefinition {d : Definition} (hd : d.Built) {key : String} :
    (ofDefinition d).get? key = some slot ↔
      ∃ p v, d.declared? p = some v ∧ p.key = key ∧ slot = .fresh p v.element v.ndim := by
  have hsound : ∀ slot, (ofDefinition d).get? key = some slot →
      ∃ p v, d.declared? p = some v ∧ p.key = key ∧ slot = .fresh p v.element v.ndim := by
    intro slot h
    obtain ⟨slot, hslot, heq⟩ := List.mem_map.1 (Keyed.mem_of_get?_ofList h)
    cases heq
    obtain ⟨p, v, hp, rfl⟩ := declared_of_mem_freshSlots hd hslot
    exact ⟨p, v, hp, rfl, rfl⟩
  refine ⟨hsound slot, ?_⟩
  rintro ⟨p, v, hp, rfl, rfl⟩
  have hp' : (d.declared? p).isSome := by rw [hp]; rfl
  obtain ⟨slot, hslot⟩ := Option.isSome_iff_exists.1 (isSome_get?_ofDefinition hp')
  obtain ⟨q, w, hq, hkey, rfl⟩ := hsound slot hslot
  obtain rfl := hd.path_eq_of_key (by rw [hq]; rfl) hp' hkey
  obtain rfl := Option.some.inj (hq.symm.trans hp)
  exact hslot

end Store

end ProcessModel
