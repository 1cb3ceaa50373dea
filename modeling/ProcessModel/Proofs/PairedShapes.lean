import Mathlib.Data.List.Induction
import ProcessModel.Proofs.Layout

/-! The shapes of a state and of its old value.

A state that gets a new shape takes its old value along, but the old value can be given a shape of
its own. -/

namespace ProcessModel

namespace Store

def shape? (s : Store) (key : String) : Option (List Nat) := (s.get? key).map (·.shape)

def pairShapes (s : Store) (p : VarPath) : Option (List Nat) × Option (List Nat) :=
  (s.shape? p.key, s.shape? p.old.key)

theorem shape?_put {s : Store} {key : String} {slot : Slot} (h : s.get? key = some slot)
    (filled : Slot) (other : String) :
    (s.put key filled).shape? other =
      if key = other then some filled.shape else s.shape? other := by
  rw [shape?, get?_put]
  split_ifs with hkey
  · rw [← hkey, h]
    rfl
  · rfl

theorem shape?_put_of_shape_eq {s : Store} {key : String} {slot filled : Slot}
    (h : s.get? key = some slot) (hshape : filled.shape = slot.shape) (other : String) :
    (s.put key filled).shape? other = s.shape? other := by
  rw [shape?_put h]
  split_ifs with hkey
  · rw [← hkey, shape?, h, hshape]
    rfl
  · rfl

end Store

namespace StoreChange

/-- The shape that a change asks for the array under a key, if it asks for any. -/
def shape? (key : String) : StoreChange → Option (List Nat)
  | .setScalar k _ => if k = key then some [] else none
  | .setArray k shape _ | .setShape k shape => if k = key then some shape else none
  | _ => none

/-- Whether a change gives the array under a key a shape: it asks for it and is not refused. -/
def Shapes (c : StoreChange) (s : Store) (key : String) (shape : List Nat) : Prop :=
  c.shape? key = some shape ∧ ∃ s', c.attempt s = .ok s'

/-- Whether a change gives an old value another shape than that of its state. -/
def Parts (c : StoreChange) (s : Store) (p : VarPath) : Prop :=
  ∃ shape, c.Shapes s p.old.key shape ∧ s.shape? p.key ≠ some shape

/-- Whether a change gives a state and its old value one shape: the states become the old ones, the
state gets a new shape, or the old value gets that of the state. -/
def Joins (c : StoreChange) (s : Store) (p : VarPath) : Prop :=
  c = .newToOld ∨ (∃ shape, c.Shapes s p.key shape ∧ s.shape? p.key ≠ some shape) ∨
    ∃ shape, c.Shapes s p.old.key shape ∧ s.shape? p.key = some shape

end StoreChange

namespace Store

variable {d : Definition} {s s' : Store} {key : String} {p : VarPath}

theorem isSome_declared?_old (hstate : p.group = .kind .states) (h : (d.declared? p).isSome) :
    (d.declared? p.old).isSome := by
  rwa [VarPath.old, declared?_oldStates hstate]

theorem key_ne_old_key (hd : d.Built) {q : VarPath} (hp : (d.declared? p).isSome)
    (hq : (d.declared? q).isSome) (hpstate : p.group = .kind .states)
    (hqstate : q.group = .kind .states) : q.key ≠ p.old.key := by
  intro heq
  rw [hd.path_eq_of_key hq (isSome_declared?_old hpstate hp) heq] at hqstate
  cases hqstate

theorem old_key_ne_old_key (hd : d.Built) {q : VarPath} (hp : (d.declared? p).isSome)
    (hq : (d.declared? q).isSome) (hpstate : p.group = .kind .states)
    (hqstate : q.group = .kind .states) (h : q.key ≠ p.key) : q.old.key ≠ p.old.key := by
  intro heq
  have hpaths := hd.path_eq_of_key (isSome_declared?_old hqstate hq)
    (isSome_declared?_old hpstate hp) heq
  obtain ⟨o, g, name⟩ := p
  obtain ⟨o', g', name'⟩ := q
  obtain rfl : g = _ := hpstate
  obtain rfl : g' = _ := hqstate
  simp only [VarPath.old, VarPath.mk.injEq, true_and] at hpaths
  exact h (by rw [hpaths.1, hpaths.2])

variable {shape : List Nat} {data : Array Float}

/-- What setting an array does: a new array under the key, and under the old key as well where the
variable is a state and its shape changes. -/
theorem setArray_eq_ok (h : s.setArray key shape data = .ok s') :
    ∃ slot, s.get? key = some slot ∧
      (s' = s.put key (slot.fill shape data) ∧ (slot.shape = shape ∨ oldKey? slot = none) ∨
        slot.shape ≠ shape ∧ ∃ old oldSlot, oldKey? slot = some old ∧
          (s.put key (slot.fill shape data)).get? old = some oldSlot ∧
          s' = (s.put key (slot.fill shape data)).put old
            { oldSlot with shape := shape, data := (slot.fill shape data).data }) := by
  obtain ⟨slot, hslot, h⟩ := bind_eq_ok h
  refine ⟨slot, slot_eq_ok hslot, ?_⟩
  by_cases hndim : slot.ndim ≠ shape.length
  · rw [if_pos hndim] at h
    cases h
  rw [if_neg hndim] at h
  dsimp only at h
  split_ifs at h with hshape
  · cases h
    exact .inl ⟨rfl, .inl hshape⟩
  · cases hold : oldKey? slot with
    | none =>
      rw [hold] at h
      cases h
      exact .inl ⟨rfl, .inr rfl⟩
    | some old =>
      rw [hold] at h
      obtain ⟨oldSlot, hget, h⟩ := bind_eq_ok h
      cases h
      exact .inr ⟨hshape, old, oldSlot, rfl, slot_eq_ok hget, rfl⟩

theorem setShape_eq_ok (h : s.setShape key shape = .ok s') :
    s.setArray key shape (Array.replicate (shapeSize shape) 0.0) = .ok s' := by
  obtain ⟨slot, -, h⟩ := bind_eq_ok h
  by_cases hndim : slot.ndim ≠ shape.length
  · rw [if_pos hndim] at h
    cases h
  rw [if_neg hndim] at h
  dsimp only at h
  by_cases hlarge : (!isShape shape) = true
  · rw [if_pos hlarge] at h
    cases h
  · rwa [if_neg hlarge] at h

theorem shape?_setFlat (h : s.setFlat key data = .ok s') (other : String) :
    s'.shape? other = s.shape? other := by
  obtain ⟨slot, hslot, h⟩ := bind_eq_ok h
  by_cases hsize : slot.data.size ≠ data.size
  · rw [if_pos hsize] at h
    cases h
  rw [if_neg hsize] at h
  cases h
  refine shape?_put_of_shape_eq (slot_eq_ok hslot) ?_ other
  rfl

theorem shape?_write {path : VarPath} {index : List Int64} {value : Float}
    (h : s.write path index value = .ok s') (other : String) :
    s'.shape? other = s.shape? other := by
  obtain ⟨slot, hslot, h⟩ := bind_eq_ok h
  obtain ⟨i, -, h⟩ := bind_eq_ok h
  cases h
  refine shape?_put_of_shape_eq (slot_eq_ok hslot) ?_ other
  rfl

theorem setArray_pairShapes (hd : d.Built) (h : Fits d s) (hp : p ∈ d.paths []) (hstate : p.isState)
    (hset : s.setArray key shape data = .ok s') :
    s'.pairShapes p =
      if key = p.key then
        (some shape, if s.shape? p.key = some shape then s.shape? p.old.key else some shape)
      else if key = p.old.key then (s.shape? p.key, some shape)
      else s.pairShapes p := by
  have hdeclared := ((mem_paths_iff hd).1 hp).1
  replace hstate : p.group = .kind .states := of_decide_eq_true hstate
  have hne := key_ne_old_key hd hdeclared hdeclared hstate hstate
  obtain ⟨slot, hslot, hset⟩ := setArray_eq_ok hset
  obtain ⟨q, v, hq, rfl, hfits⟩ := h.slots _ _ hslot
  have hqsome : (d.declared? q).isSome := by rw [hq]; rfl
  have hshape : s.shape? q.key = some slot.shape := by rw [shape?, hslot]; rfl
  rcases hset with ⟨rfl, hkept⟩ | ⟨hnew, oldKey, oldSlot, hold, hget, rfl⟩
  · rw [pairShapes, shape?_put hslot, shape?_put hslot]
    by_cases hkey : q.key = p.key
    · obtain rfl := hd.path_eq_of_key hqsome hdeclared hkey
      have hsame : slot.shape = shape := by
        refine hkept.resolve_right ?_
        simp [oldKey?, hfits.path, hstate]
      simp [hne, hshape, hsame, Slot.fill]
    · by_cases hkeyOld : q.key = p.old.key
      · simp [hkeyOld, Slot.fill, hne.symm]
      · simp [hkey, hkeyOld, pairShapes]
  · obtain ⟨hqstate, rfl⟩ : slot.path.group = .kind .states ∧ slot.path.old.key = oldKey :=
      oldKey?_eq_some hold
    rw [hfits.path] at hqstate hget ⊢
    rw [pairShapes, shape?_put hget, shape?_put hget, shape?_put hslot, shape?_put hslot]
    by_cases hkey : q.key = p.key
    · obtain rfl := hd.path_eq_of_key hqsome hdeclared hkey
      simp [hne.symm, hshape, hnew, Slot.fill]
    · have hkeyOld := key_ne_old_key hd hdeclared hqsome hstate hqstate
      have hfirst := (key_ne_old_key hd hqsome hdeclared hqstate hstate).symm
      have hsecond := old_key_ne_old_key hd hdeclared hqsome hstate hqstate hkey
      simp [hkey, hkeyOld, hfirst, hsecond, pairShapes]

theorem newToOld_pairShapes (hd : d.Built) (h : Fits d s) (hp : p ∈ d.paths [])
    (hstate : p.isState) : s.newToOld.pairShapes p = (s.shape? p.key, s.shape? p.key) := by
  obtain ⟨new, old, hnew, -, hrenewed⟩ := h.get?_newToOld_old hd hp hstate
  rw [pairShapes, shape?, shape?, shape?, h.get?_newToOld_of_mem hd hp, hrenewed, hnew]
  rfl

/-- The ways in which a change that is not refused bears on a state and its old value. -/
inductive PairStep (c : StoreChange) (s s' : Store) (p : VarPath) : Prop
  | renew (hc : c = .newToOld) (h : s'.pairShapes p = (s.shape? p.key, s.shape? p.key))
  | state (shape : List Nat) (hc : c ≠ .newToOld) (hkey : c.shape? p.key = some shape)
      (hold : c.shape? p.old.key = none) (h : s'.pairShapes p =
        (some shape, if s.shape? p.key = some shape then s.shape? p.old.key else some shape))
  | old (shape : List Nat) (hc : c ≠ .newToOld) (hkey : c.shape? p.key = none)
      (hold : c.shape? p.old.key = some shape) (h : s'.pairShapes p = (s.shape? p.key, some shape))
  | other (hc : c ≠ .newToOld) (hkey : c.shape? p.key = none) (hold : c.shape? p.old.key = none)
      (h : s'.pairShapes p = s.pairShapes p)

variable {c : StoreChange}

section

variable (hd : d.Built) (h : Fits d s) (hp : p ∈ d.paths []) (hstate : p.isState)
include hd h hp hstate

theorem pairStep_of_attempt (hc : c.attempt s = .ok s') : PairStep c s s' p := by
  have hdeclared := ((mem_paths_iff hd).1 hp).1
  have hne : p.old.key ≠ p.key := (key_ne_old_key hd hdeclared hdeclared
    (of_decide_eq_true hstate) (of_decide_eq_true hstate)).symm
  have harray : ∀ key shape data, s.setArray key shape data = .ok s' → c ≠ .newToOld →
      (∀ other, c.shape? other = if key = other then some shape else none) → PairStep c s s' p := by
    intro key shape data hset hc hshape
    have hpair := setArray_pairShapes hd h hp hstate hset
    by_cases hkey : key = p.key
    · exact .state shape hc (by simp [hshape, hkey]) (by simp [hshape, hkey, hne.symm])
        (by simpa [hkey] using hpair)
    · by_cases hkeyOld : key = p.old.key
      · exact .old shape hc (by simp [hshape, hkeyOld, hne]) (by simp [hshape, hkeyOld])
          (by simpa [hkeyOld, hne] using hpair)
      · exact .other hc (by simp [hshape, hkey]) (by simp [hshape, hkeyOld])
          (by simpa [hkey, hkeyOld] using hpair)
  cases c with
  | setScalar key value => exact harray key [] _ hc (by simp) fun _ => rfl
  | setArray key shape data => exact harray key shape data hc (by simp) fun _ => rfl
  | setShape key shape => exact harray key shape _ (setShape_eq_ok hc) (by simp) fun _ => rfl
  | setFlat key data =>
    exact .other (by simp) rfl rfl (by
      rw [pairShapes, shape?_setFlat hc, shape?_setFlat hc, pairShapes])
  | write path index value =>
    exact .other (by simp) rfl rfl (by
      rw [pairShapes, shape?_write hc, shape?_write hc, pairShapes])
  | newToOld =>
    cases hc
    exact .renew rfl (newToOld_pairShapes hd h hp hstate)

def Together (s : Store) (p : VarPath) : Prop := s.shape? p.key = s.shape? p.old.key

theorem not_joins_of_parts (hparts : c.Parts s p) : ¬c.Joins s p := by
  obtain ⟨shape, ⟨hshape, s', hs'⟩, hother⟩ := hparts
  cases pairStep_of_attempt hd h hp hstate hs' with
  | renew hc =>
    subst hc
    cases hshape
  | state _ _ _ hold =>
    rw [hold] at hshape
    cases hshape
  | old _ hc hkey hold =>
    rintro (rfl | ⟨_, ⟨hstate, -⟩, -⟩ | ⟨_, ⟨hsame, -⟩, heq⟩)
    · exact hc rfl
    · rw [hkey] at hstate
      cases hstate
    · rw [hsame] at hshape
      exact hother (heq.trans hshape)
  | other _ _ hold =>
    rw [hold] at hshape
    cases hshape

theorem together_apply_iff (c : StoreChange) :
    Together (c.apply s) p ↔ Together s p ∧ ¬c.Parts s p ∨ c.Joins s p := by
  cases hc : c.attempt s with
  | error e =>
    have hrefused : ∀ key shape, ¬c.Shapes s key shape := by
      rintro key shape ⟨-, s', hs'⟩
      rw [hc] at hs'
      cases hs'
    have hne : c ≠ .newToOld := by
      rintro rfl
      cases hc
    simp [StoreChange.apply, hc, StoreChange.Parts, StoreChange.Joins, hrefused, hne]
  | ok s' =>
    have happly : c.apply s = s' := by rw [StoreChange.apply, hc]
    have htogether : Together s' p ↔ (s'.pairShapes p).1 = (s'.pairShapes p).2 := Iff.rfl
    rw [happly, htogether]
    cases pairStep_of_attempt hd h hp hstate hc with
    | renew hnew hpair => simp [hpair, hnew, StoreChange.Joins]
    | state shape hne hkey hold hpair =>
      by_cases hsame : s.shape? p.key = some shape <;>
        simp [hpair, hsame, hne, hkey, hold, hc, Together, StoreChange.Parts, StoreChange.Joins,
          StoreChange.Shapes]
    | old shape hne hkey hold hpair =>
      by_cases hsame : s.shape? p.key = some shape <;>
        simp [hpair, hsame, hne, hkey, hold, hc, StoreChange.Parts, StoreChange.Joins,
          StoreChange.Shapes]
    | other hne hkey hold hpair =>
      rw [hpair]
      simp [pairShapes, hne, hkey, hold, Together, StoreChange.Parts, StoreChange.Joins,
        StoreChange.Shapes]

end

variable {changes : List StoreChange}

theorem after_concat (d : Definition) (changes : List StoreChange) (c : StoreChange) :
    after d (changes ++ [c]) = c.apply (after d changes) := by
  simp [after]

theorem after_fits (hd : d.Built) (hc : ∀ c ∈ changes, c.Regular) : Fits d (after d changes) := by
  induction changes using List.reverseRecOn with
  | nil => exact fits_ofDefinition hd
  | append_singleton changes c ih =>
    rw [after_concat]
    exact apply_fits hd (ih fun c' hc' => hc c' (by simp [hc'])) (hc c (by simp))

theorem together_ofDefinition (hd : d.Built) (hp : p ∈ d.paths []) (hstate : p.isState) :
    Together (ofDefinition d) p := by
  obtain ⟨v, hv⟩ := Option.isSome_iff_exists.1 ((mem_paths_iff hd).1 hp).1
  have hold : d.declared? p.old = some v :=
    (declared?_oldStates (of_decide_eq_true hstate)).trans hv
  rw [Together, shape?, shape?, (get?_ofDefinition hd).2 ⟨p, v, hv, rfl, rfl⟩,
    (get?_ofDefinition hd).2 ⟨p.old, v, hold, rfl, rfl⟩]
  rfl

/-- Whether every change of a sequence that parts a state and its old value is followed by one that
joins them. -/
def Rejoined (d : Definition) (changes : List StoreChange) (p : VarPath) : Prop :=
  ∀ before c rest, changes = before ++ c :: rest → c.Parts (after d before) p →
    ∃ mid c' rest', rest = mid ++ c' :: rest' ∧ c'.Joins (after d (before ++ c :: mid)) p

theorem concat_eq_append_cons {α : Type} {l before rest : List α} {x y : α}
    (h : l ++ [x] = before ++ y :: rest) :
    (l = before ∧ x = y ∧ rest = []) ∨ ∃ rest', rest = rest' ++ [x] ∧ l = before ++ y :: rest' := by
  rcases List.eq_nil_or_concat' rest with rfl | ⟨rest', z, rfl⟩
  · obtain ⟨rfl, hlast⟩ := List.append_inj' h rfl
    exact .inl ⟨rfl, List.singleton_inj.1 hlast, rfl⟩
  · rw [← List.cons_append, ← List.append_assoc] at h
    obtain ⟨rfl, hlast⟩ := List.append_inj' h rfl
    obtain rfl := List.singleton_inj.1 hlast
    exact .inr ⟨rest', rfl, rfl⟩

theorem rejoined_concat_of_joins (hjoins : c.Joins (after d changes) p)
    (hparts : ¬c.Parts (after d changes) p) : Rejoined d (changes ++ [c]) p := by
  intro before c₀ rest hsplit hc₀
  rcases concat_eq_append_cons hsplit with ⟨rfl, rfl, -⟩ | ⟨mid, rfl, rfl⟩
  · exact absurd hc₀ hparts
  · exact ⟨mid, c, [], rfl, hjoins⟩

theorem rejoined_concat_iff (hjoins : ¬c.Joins (after d changes) p) :
    Rejoined d (changes ++ [c]) p ↔ Rejoined d changes p ∧ ¬c.Parts (after d changes) p := by
  constructor
  · intro h
    refine ⟨fun before c₀ rest hsplit hc₀ => ?_, fun hparts => ?_⟩
    · subst hsplit
      obtain ⟨mid, c', rest', hrest, hc'⟩ := h before c₀ (rest ++ [c]) (by simp) hc₀
      rcases concat_eq_append_cons hrest with ⟨rfl, rfl, -⟩ | ⟨rest', -, rfl⟩
      · exact absurd hc' hjoins
      · exact ⟨mid, c', rest', rfl, hc'⟩
    · obtain ⟨mid, c', rest', hrest, -⟩ := h changes c [] rfl hparts
      simp at hrest
  · rintro ⟨h, hparts⟩ before c₀ rest hsplit hc₀
    rcases concat_eq_append_cons hsplit with ⟨rfl, rfl, -⟩ | ⟨rest, rfl, rfl⟩
    · exact absurd hc₀ hparts
    · obtain ⟨mid, c', rest', rfl, hc'⟩ := h before c₀ rest rfl hc₀
      exact ⟨mid, c', rest' ++ [c], by simp, hc'⟩

/-- After a sequence of changes a state and its old value have one shape exactly if the changes that
part them are all followed by one that joins them. -/
theorem together_after_iff (hd : d.Built) (hp : p ∈ d.paths []) (hstate : p.isState)
    (hc : ∀ c ∈ changes, c.Regular) : Together (after d changes) p ↔ Rejoined d changes p := by
  induction changes using List.reverseRecOn with
  | nil =>
    refine iff_of_true (together_ofDefinition hd hp hstate) fun before c rest hsplit => ?_
    simp at hsplit
  | append_singleton changes c ih =>
    have hregular : ∀ c ∈ changes, c.Regular := fun c' hc' => hc c' (by simp [hc'])
    have hfits := after_fits hd hregular
    rw [after_concat, together_apply_iff hd hfits hp hstate, ih hregular]
    by_cases hjoins : c.Joins (after d changes) p
    · have hparts : ¬c.Parts (after d changes) p := fun h =>
        not_joins_of_parts hd hfits hp hstate h hjoins
      exact iff_of_true (.inr hjoins) (rejoined_concat_of_joins hjoins hparts)
    · rw [rejoined_concat_iff hjoins]
      simp [hjoins]

/-- After any sequence of changes a state and its old value have arrays of one number of dimensions.
They have one shape exactly if every change that gives the old value a shape of its own is followed
by one that joins them again; so they always have while no array is set under the key of the old
value. -/
theorem shapes_agree_iff_rejoined (hd : d.Built) (hc : ∀ c ∈ changes, c.Regular)
    (hp : p ∈ d.paths []) (hstate : p.isState) :
    ∃ new old, (after d changes).get? p.key = some new ∧
      (after d changes).get? p.old.key = some old ∧ new.ndim = old.ndim ∧
      (new.shape = old.shape ↔ Rejoined d changes p) ∧
      ((∀ c ∈ changes, c.shape? p.old.key = none) → new.shape = old.shape) := by
  have hfits := after_fits hd hc
  obtain ⟨v, hv⟩ := Option.isSome_iff_exists.1 ((mem_paths_iff hd).1 hp).1
  obtain ⟨new, hnew, hnewFits⟩ := hfits.exists_slot hd hv
  obtain ⟨old, hold, holdFits⟩ := hfits.exists_old hd hv (of_decide_eq_true hstate)
  have htogether : Together (after d changes) p ↔ new.shape = old.shape := by
    rw [Together, shape?, shape?, hnew, VarPath.old, hold, Option.map_some, Option.map_some,
      Option.some_inj]
  have hiff := htogether.symm.trans (together_after_iff hd hp hstate hc)
  refine ⟨new, old, hnew, hold, hnewFits.ndim.trans holdFits.ndim.symm, hiff, fun hnone => ?_⟩
  refine hiff.2 fun before c rest hsplit hparts => ?_
  obtain ⟨shape, ⟨hshape, -⟩, -⟩ := hparts
  rw [hnone c (by simp [hsplit])] at hshape
  cases hshape

def fish : VarPath := ⟨[], .kind .states, "n"⟩

def partingChanges : List StoreChange := [.setShape "states.n" [2], .setShape "old_states.n" [3]]

/-- The old number of fish gets a shape of its own until the numbers become the old ones. -/
theorem hatchery_rejoined :
    hatchery.Built ∧ (∀ c ∈ partingChanges ++ [.newToOld], c.Regular) ∧
    fish ∈ hatchery.paths [] ∧ fish.isState ∧
    Rejoined hatchery (partingChanges ++ [.newToOld]) fish := by
  have hregular : ∀ c ∈ partingChanges ++ [.newToOld], c.Regular := by
    simp [partingChanges, StoreChange.Regular]
  have hmem : fish ∈ hatchery.paths [] := by decide +kernel
  obtain ⟨new, old, hnew, hold, -, hiff, -⟩ :=
    shapes_agree_iff_rejoined hatchery_built hregular hmem rfl
  have hshape : (after hatchery (partingChanges ++ [.newToOld])).shape? fish.key =
      (after hatchery (partingChanges ++ [.newToOld])).shape? fish.old.key := by decide +kernel
  rw [shape?, shape?, hnew, hold] at hshape
  exact ⟨hatchery_built, hregular, hmem, rfl, hiff.1 (Option.some.inj hshape)⟩

/-- Two numbers of fish, and three old ones. -/
theorem hatchery_parted :
    hatchery.Built ∧ (∀ c ∈ partingChanges, c.Regular) ∧ fish ∈ hatchery.paths [] ∧ fish.isState ∧
    (after hatchery partingChanges).shape? fish.key = some [2] ∧
    (after hatchery partingChanges).shape? fish.old.key = some [3] :=
  ⟨hatchery_built, by simp [partingChanges, StoreChange.Regular], by decide +kernel, rfl,
    by decide +kernel, by decide +kernel⟩

end Store

end ProcessModel
