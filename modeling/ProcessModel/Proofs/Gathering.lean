import ProcessModel.Proofs.Canonical
import ProcessModel.Proofs.Layout
import ProcessModel.Proofs.Playback

/-! The integrated variables of a group as one vector.

Distributing a vector fills one variable after the other, each with as many values as it has elements.
The variables are numbers that no cast changes and have keys of their own. -/

namespace ProcessModel

namespace Definition

/-- The paths of the variables of kind `k` that are integrated, in the order of declaration. -/
def integrated (d : Definition) (k : GroupKind) : List VarPath :=
  (d.numeric k).map fun v => ⟨[], .kind k, v.name⟩

theorem integrated_keys (d : Definition) (k : GroupKind) :
    (d.integrated k).map VarPath.key = NumericKeys.ofDefinition d k := by
  rw [integrated, NumericKeys.ofDefinition, List.map_map]
  refine List.map_congr_left fun v _ => ?_
  simp [VarPath.key, Text.joinWith, GroupRef.name, String.intercalate_cons_cons]

variable {d : Definition}

theorem mem_numeric {k : GroupKind} {v : Variable} (h : v ∈ d.numeric k) :
    ∃ g ∈ d.groups, g.kind = k ∧ v ∈ g.vars ∧ v.numeric = true := by
  unfold numeric at h
  cases hg : d.group? k with
  | none => simp [hg] at h
  | some g =>
    rw [hg, Option.map_some, Option.getD_some, Group.numeric, List.mem_filter] at h
    exact ⟨g, List.mem_of_find?_eq_some hg, by simpa using List.find?_some hg, h⟩

theorem Built.declared_integrated (hd : d.Built) {k : GroupKind} {p : VarPath}
    (h : p ∈ d.integrated k) : ∃ v, d.declared? p = some v ∧ v.element = .float := by
  obtain ⟨v, hv, rfl⟩ := List.mem_map.1 h
  obtain ⟨g, hg, rfl, hmem, hnumeric⟩ := mem_numeric hv
  have hdeclared := hd.distinct.var?_eq hg hmem
  obtain ⟨hbuild, -⟩ := hd
  have hfault := (accepted_of_build hbuild).groups g hg
  exact ⟨v, hdeclared, (faultFrom?_eq_none hfault v hmem).2.2 hnumeric⟩

theorem Built.integrated_keys_nodup (hd : d.Built) (k : GroupKind) :
    ((d.integrated k).map VarPath.key).Nodup := by
  have hpaths : (d.integrated k).Nodup := by
    unfold integrated numeric
    cases hg : d.group? k with
    | none => simp
    | some g =>
      have hnames := hd.distinct.names g (List.mem_of_find?_eq_some hg)
      refine .of_map (·.name) ?_
      rw [List.map_map]
      exact hnames.sublist (List.filter_sublist.map _)
  refine hpaths.map_on fun p hp q hq hkey => ?_
  obtain ⟨v, hv, -⟩ := hd.declared_integrated hp
  obtain ⟨w, hw, -⟩ := hd.declared_integrated hq
  exact hd.path_eq_of_key (by rw [hv]; rfl) (by rw [hw]; rfl) hkey

end Definition

def Slot.withData (s : Slot) (data : Array Float) : Slot := ⟨s.path, s.element, s.shape, data⟩

namespace Store

variable {s : Store} {key : String} {slot : Slot}

def sizeAt (s : Store) (p : VarPath) : Nat :=
  ((s.get? p.key).map fun slot => shapeSize slot.shape).getD 0

theorem fill_of_float (h : slot.element = .float) (data : Array Float) :
    slot.fill slot.shape data = slot.withData data := by
  have hcast : data.map Element.float.cast = data := Array.map_id data
  rw [Slot.fill, Slot.withData, h, hcast]

theorem length_valuesAt_of_get? (h : s.get? key = some slot) :
    (s.valuesAt key).length = slot.data.size := by
  rw [valuesAt, h, Option.map_some, Option.getD_some, Array.length_toList]

theorem put_of_get? (hnodup : s.keys.Nodup) (h : s.get? key = some slot) : s.put key slot = s := by
  have hslot : ∀ e ∈ s, e.1 = key → e.2 = slot := by
    rintro e he rfl
    have hfind := find?_of_nodup hnodup he
    rw [Keyed.get?, hfind] at h
    exact Option.some.inj h
  unfold put
  conv_rhs => rw [← List.map_id s]
  refine List.map_congr_left fun e he => ?_
  by_cases hkey : e.1 = key
  · rw [if_pos hkey, ← hslot e he hkey]
    rfl
  · rw [if_neg hkey]
    rfl

end Store

namespace NumericKeys

open Store

variable {s : Store} {key : String} {keys : NumericKeys} {slot : Slot} {values : List Float}

theorem gather_cons (hslot : s.get? key = some slot) (h : gather keys s = .ok values) :
    gather (key :: keys) s = .ok (slot.data.toList ++ values) := by
  unfold gather at h ⊢
  obtain ⟨parts, hparts, h⟩ := bind_eq_ok h
  have hflat : s.flat key = .ok slot.data := by
    rw [flat, slot_of_get? hslot]
    rfl
  rw [List.mapM_cons, hflat, ok_bind, pure_bind, hparts]
  cases h
  rfl

theorem scatter_cons (hslot : s.get? key = some slot) (hfloat : slot.element = .float)
    (hlength : slot.data.size ≤ values.length) :
    scatter s (key :: keys) values =
      scatter (s.put key (slot.withData (values.take slot.data.size).toArray)) keys
        (values.drop slot.data.size) := by
  have hsize : (values.take slot.data.size).toArray.size = slot.data.size := by simpa using hlength
  rw [scatter, slot_of_get? hslot]
  dsimp only
  rw [setFlat_of_get? hslot hsize, fill_of_float hfloat]

/-- What distributing a vector of the right length does: gathering gives the vector back, and of the
slots only the elements of these variables change, not their number. -/
theorem scatter_returns (hnodup : keys.Nodup)
    (hfloat : ∀ key ∈ keys, ∃ slot, s.get? key = some slot ∧ slot.element = .float)
    (hlength : values.length = (keys.map fun key => (s.valuesAt key).length).sum) :
    ∃ s', scatter s keys values = (s', .ok ()) ∧ gather keys s' = .ok values ∧
      (∀ key ∉ keys, s'.get? key = s.get? key) ∧
      ∀ key slot, s.get? key = some slot →
        ∃ data, data.size = slot.data.size ∧ s'.get? key = some (slot.withData data) := by
  induction keys generalizing s values with
  | nil =>
    obtain rfl := List.length_eq_zero_iff.1 hlength
    exact ⟨s, rfl, rfl, fun _ _ => rfl, fun _ slot hslot => ⟨slot.data, rfl, hslot⟩⟩
  | cons key keys ih =>
    obtain ⟨⟨slot, hslot, helement⟩, hfloat⟩ := List.forall_mem_cons.1 hfloat
    obtain ⟨hnew, hnodup⟩ := List.nodup_cons.1 hnodup
    rw [List.map_cons, List.sum_cons, length_valuesAt_of_get? hslot] at hlength
    have hle : slot.data.size ≤ values.length := by omega
    let part := slot.withData (values.take slot.data.size).toArray
    have hput : (s.put key part).get? key = some part := by
      rw [get?_put, if_pos rfl, hslot, Option.map_some]
    have hothers : ∀ other ≠ key, (s.put key part).get? other = s.get? other := by
      intro other hother
      rw [get?_put, if_neg (Ne.symm hother)]
    have hkeys : ∀ other ∈ keys, (s.put key part).get? other = s.get? other :=
      fun other hother => hothers other fun heq => hnew (heq ▸ hother)
    have hrest : (values.drop slot.data.size).length =
        (keys.map fun other => ((s.put key part).valuesAt other).length).sum := by
      have hsame : (keys.map fun other => ((s.put key part).valuesAt other).length) =
          keys.map fun other => (s.valuesAt other).length :=
        List.map_congr_left fun other hother => by rw [valuesAt, valuesAt, hkeys other hother]
      rw [hsame, List.length_drop]
      omega
    obtain ⟨s', hscatter, hgather, hframe, hsizes⟩ := ih (s := s.put key part) hnodup
      (fun other hother => by rw [hkeys other hother]; exact hfloat other hother) hrest
    refine ⟨s', (scatter_cons hslot helement hle).trans hscatter, ?_, ?_, ?_⟩
    · have hpart := gather_cons ((hframe key hnew).trans hput) hgather
      have hdata : part.data.toList = values.take slot.data.size := rfl
      rwa [hdata, List.take_append_drop] at hpart
    · intro other hother
      obtain ⟨hne, hother⟩ := not_or.1 (mt List.mem_cons.2 hother)
      rw [hframe other hother, hothers other hne]
    · intro other old hold
      by_cases hother : other = key
      · subst hother
        cases hold.symm.trans hslot
        obtain ⟨data, hdata, hget⟩ := hsizes other part hput
        exact ⟨data, by simpa [part, Slot.withData, hle] using hdata, hget⟩
      · exact hsizes other old ((hothers other hother).trans hold)

theorem scatter_gather (hnodup : s.keys.Nodup)
    (hfloat : ∀ key ∈ keys, ∃ slot, s.get? key = some slot ∧ slot.element = .float) :
    ∃ values, gather keys s = .ok values ∧
      values.length = (keys.map fun key => (s.valuesAt key).length).sum ∧
      scatter s keys values = (s, .ok ()) := by
  induction keys with
  | nil => exact ⟨[], rfl, rfl, rfl⟩
  | cons key keys ih =>
    obtain ⟨⟨slot, hslot, helement⟩, hfloat⟩ := List.forall_mem_cons.1 hfloat
    obtain ⟨values, hgather, hlength, hscatter⟩ := ih hfloat
    refine ⟨slot.data.toList ++ values, gather_cons hslot hgather, ?_, ?_⟩
    · rw [List.map_cons, List.sum_cons, length_valuesAt_of_get? hslot, ← hlength]
      simp
    · have hself :
          slot.withData ((slot.data.toList ++ values).take slot.data.size).toArray = slot := by
        simp [Slot.withData, ← Array.length_toList]
      rw [scatter_cons hslot helement (by simp), hself, put_of_get? hnodup hslot]
      simpa [← Array.length_toList] using hscatter

variable {d : Definition}

theorem exists_float_slot (hd : d.Built) (h : Fits d s) {k : GroupKind}
    (hkey : key ∈ ofDefinition d k) : ∃ slot, s.get? key = some slot ∧ slot.element = .float := by
  rw [← Definition.integrated_keys] at hkey
  obtain ⟨p, hp, rfl⟩ := List.mem_map.1 hkey
  obtain ⟨v, hv, hfloat⟩ := hd.declared_integrated hp
  obtain ⟨slot, hslot, hfits⟩ := h.exists_slot hd hv
  exact ⟨slot, hslot, hfits.element.trans hfloat⟩

theorem length_valuesAt (h : Fits d s) (p : VarPath) : (s.valuesAt p.key).length = s.sizeAt p := by
  cases hslot : s.get? p.key with
  | none => simp [valuesAt, sizeAt, hslot]
  | some slot =>
    obtain ⟨q, v, -, -, hfits⟩ := h.slots _ _ hslot
    rw [length_valuesAt_of_get? hslot, hfits.size, sizeAt, hslot]
    rfl

theorem sum_sizeAt (h : Fits d s) (k : GroupKind) :
    ((ofDefinition d k).map fun key => (s.valuesAt key).length).sum =
      ((d.integrated k).map s.sizeAt).sum := by
  rw [← Definition.integrated_keys, List.map_map]
  exact congrArg List.sum (List.map_congr_left fun p _ => length_valuesAt h p)

/-- In every store of a definition that can be reached, and for the integrated variables of every
kind: a vector with as many values as these variables have elements is distributed among them, and
gathering gives it back. The other slots stay as they are, and the slots of the variables keep all but
their elements. Gathering succeeds as well, and distributing what was gathered leaves the store as it
is. -/
theorem gathers_what_it_scatters (hd : d.Built) (h : Reached d s) (k : GroupKind) :
    (∀ values : List Float, values.length = ((d.integrated k).map s.sizeAt).sum →
      ∃ s', scatter s (ofDefinition d k) values = (s', .ok ()) ∧
        gather (ofDefinition d k) s' = .ok values ∧
        (∀ key, (∀ p ∈ d.integrated k, p.key ≠ key) → s'.get? key = s.get? key) ∧
        ∀ p ∈ d.integrated k, ∃ slot data, s.get? p.key = some slot ∧
          data.size = slot.data.size ∧ s'.get? p.key = some (slot.withData data)) ∧
    ∃ values, gather (ofDefinition d k) s = .ok values ∧
      values.length = ((d.integrated k).map s.sizeAt).sum ∧
      scatter s (ofDefinition d k) values = (s, .ok ()) := by
  have hfits := h.fits hd
  have hfloat := fun key (hkey : key ∈ ofDefinition d k) => exists_float_slot hd hfits hkey
  constructor
  · intro values hlength
    rw [← sum_sizeAt hfits] at hlength
    have hnodup : (ofDefinition d k).Nodup :=
      Definition.integrated_keys d k ▸ hd.integrated_keys_nodup k
    obtain ⟨s', hscatter, hgather, hframe, hsizes⟩ := scatter_returns hnodup hfloat hlength
    refine ⟨s', hscatter, hgather, fun key hkey => hframe key ?_, fun p hp => ?_⟩
    · rw [← Definition.integrated_keys, List.mem_map]
      rintro ⟨p, hp, heq⟩
      exact hkey p hp heq
    · obtain ⟨v, hv, -⟩ := hd.declared_integrated hp
      obtain ⟨slot, hslot, -⟩ := hfits.exists_slot hd hv
      obtain ⟨data, hdata, hget⟩ := hsizes _ slot hslot
      exact ⟨slot, data, hslot, hdata, hget⟩
  · have hnodup : s.keys.Nodup := hfits.keys ▸ ofDefinition_keys_nodup hd
    obtain ⟨values, hgather, hlength, hscatter⟩ := scatter_gather hnodup hfloat
    exact ⟨values, hgather, hlength.trans (sum_sizeAt hfits k), hscatter⟩

def headrace : Definition where
  name := "headrace"
  groups := [{
    kind := .fluxes
    vars := [{ name := "inflow", ndim := 1, numeric := true }, { name := "gates", element := .int },
      { name := "loss", ndim := 2, numeric := true }, { name := "head", numeric := true }] }]

def headraceStore : Store :=
  after headrace [.setShape "fluxes.inflow" [2], .setShape "fluxes.loss" [3, 0],
    .setScalar "fluxes.gates" 7.0]

/-- Two inflows, no losses and a head make a vector of three numbers. -/
theorem headrace_gathers :
    headrace.Built ∧ Reached headrace headraceStore ∧
      ((headrace.integrated .fluxes).map headraceStore.sizeAt).sum = 3 ∧
      ∃ s', scatter headraceStore (ofDefinition headrace .fluxes) [1.0, 2.5, 4.0] = (s', .ok ()) ∧
        gather (ofDefinition headrace .fluxes) s' = .ok [1.0, 2.5, 4.0] ∧
        s'.scalar "fluxes.gates" = .ok 7.0 := by
  have hbuilt : headrace.Built :=
    .of_canonical (by decide) (by decide +kernel) (by decide) (by simp [headrace])
  have hreached : Reached headrace headraceStore :=
    .change (.change (.change .fresh (.setShape "fluxes.inflow" [2]) trivial)
      (.setShape "fluxes.loss" [3, 0]) trivial) (.setScalar "fluxes.gates" 7.0) trivial
  have hsize : ((headrace.integrated .fluxes).map headraceStore.sizeAt).sum = 3 := by decide +kernel
  obtain ⟨hscatter, -⟩ := gathers_what_it_scatters hbuilt hreached .fluxes
  obtain ⟨s', hs', hgather, hframe, -⟩ := hscatter [1.0, 2.5, 4.0] hsize.symm
  refine ⟨hbuilt, hreached, hsize, s', hs', hgather, ?_⟩
  have hgates : (headraceStore.scalar "fluxes.gates").toOption = some 7.0 := by decide +kernel
  have hother : ∀ p ∈ headrace.integrated .fluxes, p.key ≠ "fluxes.gates" := by decide +kernel
  rw [scalar, Store.slot, hframe _ hother]
  exact toOption_eq_some hgates

end NumericKeys

end ProcessModel
