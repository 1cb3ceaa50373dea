import Mathlib.Tactic.Common
import ProcessModel.Proofs.Outcome
import ProcessModel.Store

/-! The keys of tables and of stores.

Looking up a name in a table says all there is to know about it. A store keeps the names it started
with, whatever is done to it, and a fresh store has one for every variable of the tree. -/

namespace ProcessModel

namespace Keyed

variable {α : Type}

@[simp] theorem get?_nil (key : String) : get? ([] : Keyed α) key = none := rfl

theorem get?_cons (p : String × α) (table : Keyed α) (key : String) :
    get? (p :: table) key = if p.1 = key then some p.2 else get? table key := by
  by_cases h : p.1 = key <;> simp [get?, h]

theorem mem_of_get? {table : Keyed α} {key : String} {value : α} (h : table.get? key = some value) :
    (key, value) ∈ table := by
  obtain ⟨e, he, rfl⟩ := Option.map_eq_some_iff.1 h
  obtain rfl : e.1 = key := by simpa using List.find?_some he
  exact List.mem_of_find?_eq_some he

theorem get?_insert (key : String) (value : α) (table : Keyed α) (other : String) :
    (insert key value table).get? other = if key = other then some value else table.get? other := by
  induction table with
  | nil => simp [insert, get?_cons]
  | cons p table ih =>
    obtain ⟨k, v⟩ := p
    by_cases hlt : key < k
    · simp [insert, hlt, get?_cons]
    by_cases heq : key = k
    · subst heq
      by_cases h : key = other <;> simp [insert, get?_cons, h]
    · simp only [insert, hlt, heq, if_false]
      rw [get?_cons, ih, get?_cons]
      by_cases h : key = other
      · subst h
        simp [Ne.symm heq]
      · simp [h]

theorem get?_foldl_insert (entries : List (String × α)) (table : Keyed α) (key : String) :
    (entries.foldl (fun t p => insert p.1 p.2 t) table).get? key =
      ((entries.reverse.find? fun p => p.1 == key).map (·.2)).or (table.get? key) := by
  induction entries generalizing table with
  | nil => simp
  | cons p entries ih =>
    rw [List.foldl_cons, ih, get?_insert, List.reverse_cons, List.find?_append]
    cases List.find? (fun p => p.1 == key) entries.reverse with
    | some q => simp
    | none => by_cases h : p.1 = key <;> simp [h]

/-- Of several entries with one name the last counts. -/
theorem get?_ofList (entries : List (String × α)) (key : String) :
    (ofList entries).get? key = (entries.reverse.find? fun p => p.1 == key).map (·.2) := by
  rw [ofList, get?_foldl_insert]
  simp

theorem mem_of_get?_ofList {entries : List (String × α)} {key : String} {value : α}
    (h : (ofList entries).get? key = some value) : (key, value) ∈ entries := by
  rw [get?_ofList] at h
  exact List.mem_reverse.1 (mem_of_get? h)

theorem isSome_get?_ofList (entries : List (String × α)) (key : String) :
    ((ofList entries).get? key).isSome ↔ ∃ p ∈ entries, p.1 = key := by
  rw [get?_ofList, Option.isSome_map, List.find?_isSome]
  simp

end Keyed

inductive StoreChange
  | setScalar (key : String) (value : Float)
  | setArray (key : String) (shape : List Nat) (data : Array Float)
  | setShape (key : String) (shape : List Nat)
  | setFlat (key : String) (data : Array Float)
  | write (path : VarPath) (index : List Int64) (value : Float)
  | newToOld

namespace StoreChange

def attempt (s : Store) : StoreChange → Except Error Store
  | .setScalar key value => s.setScalar key value
  | .setArray key shape data => s.setArray key shape data
  | .setShape key shape => s.setShape key shape
  | .setFlat key data => s.setFlat key data
  | .write path index value => s.write path index value
  | .newToOld => .ok s.newToOld

def apply (s : Store) (c : StoreChange) : Store :=
  match c.attempt s with
  | .ok s' => s'
  | .error _ => s

end StoreChange

namespace Store

def after (d : Definition) (changes : List StoreChange) : Store :=
  changes.foldl StoreChange.apply (ofDefinition d)

/-- Whether a store has a slot wherever another one has. -/
def Covers (fresh s : Store) : Prop := ∀ key, (fresh.get? key).isSome → (s.get? key).isSome

theorem covers_refl (s : Store) : Covers s s := fun _ h => h

theorem get?_put (s : Store) (key : String) (slot : Slot) (other : String) :
    (s.put key slot).get? other =
      if key = other then (s.get? other).map fun _ => slot else s.get? other := by
  induction s with
  | nil => simp [put]
  | cons e s ih =>
    have hput : put (e :: s) key slot = (if e.1 = key then (e.1, slot) else e) :: put s key slot := rfl
    rw [hput, Keyed.get?_cons, Keyed.get?_cons, ih]
    by_cases he : e.1 = key <;> by_cases ho : key = other <;> by_cases hk : e.1 = other <;>
      simp_all

theorem get?_map (table : Store) (f : String → Slot → Slot) (key : String) :
    Keyed.get? (table.map fun e => (e.1, f e.1 e.2)) key = (table.get? key).map (f key) := by
  induction table with
  | nil => rfl
  | cons e table ih =>
    rw [List.map_cons, Keyed.get?_cons, Keyed.get?_cons, ih]
    split_ifs with h
    · rw [← h]
      rfl
    · rfl

variable {s : Store}

theorem slot_of_get? {key : String} {slot : Slot} (h : s.get? key = some slot) :
    s.slot key = .ok slot := by
  rw [Store.slot, h]

theorem slot_of_isSome {key : String} (h : (s.get? key).isSome) :
    ∃ slot, s.slot key = .ok slot := by
  obtain ⟨slot, hs⟩ := Option.isSome_iff_exists.1 h
  exact ⟨slot, by simp [Store.slot, hs]⟩

theorem offset_cases (key : String) (slot : Slot) (index : List Int64) :
    (∃ i, offset key slot index = .ok i) ∨
      offset key slot index = .error (.outOfBounds key (index.map Int64.toInt) slot.shape) := by
  unfold offset
  split
  · exact .inl ⟨_, rfl⟩
  · exact .inr rfl

theorem read_cases {path : VarPath} (h : (s.get? path.key).isSome) (index : List Int64) :
    (∃ r, s.read path index = .ok r) ∨
      ∃ shape, s.read path index = .error (.outOfBounds path.key (index.map Int64.toInt) shape) := by
  obtain ⟨slot, hs⟩ := slot_of_isSome h
  unfold read
  rw [hs]
  rcases offset_cases path.key slot index with ⟨i, hi⟩ | hi
  · exact .inl ⟨_, by simp only [ok_bind, hi]; rfl⟩
  · exact .inr ⟨slot.shape, by simp only [ok_bind, hi, error_bind]⟩

theorem write_cases {path : VarPath} (h : (s.get? path.key).isSome) (index : List Int64)
    (value : Float) :
    (∃ s', s.write path index value = .ok s') ∨
      ∃ shape, s.write path index value =
        .error (.outOfBounds path.key (index.map Int64.toInt) shape) := by
  obtain ⟨slot, hs⟩ := slot_of_isSome h
  unfold write
  rw [hs]
  rcases offset_cases path.key slot index with ⟨i, hi⟩ | hi
  · exact .inl ⟨_, by simp only [ok_bind, hi]; rfl⟩
  · exact .inr ⟨slot.shape, by simp only [ok_bind, hi, error_bind]⟩

variable {fresh s s' : Store}

theorem Covers.put (h : Covers fresh s) (key : String) (slot : Slot) :
    Covers fresh (s.put key slot) := by
  intro other ho
  rw [get?_put]
  split_ifs
  · simpa using h other ho
  · exact h other ho

theorem isSome_get?_newToOld (s : Store) (key : String) :
    (s.newToOld.get? key).isSome = (s.get? key).isSome := by
  have hmap : ∀ (f : String × Slot → String × Slot) (t : Store), (∀ e, (f e).1 = e.1) →
      (Keyed.get? (t.map f) key).isSome = (t.get? key).isSome := by
    intro f t hf
    induction t with
    | nil => rfl
    | cons e t ih =>
      rw [List.map_cons, Keyed.get?_cons, Keyed.get?_cons, hf]
      split_ifs <;> simp [ih]
  apply hmap
  intro e
  dsimp only
  split_ifs
  · split <;> rfl
  · rfl

section

variable (h : Covers fresh s)
include h

theorem setArray_covers (key : String) (shape : List Nat) (data : Array Float) :
    Yields (Covers fresh) (s.setArray key shape data) := by
  refine yields_bind (yields_true _) fun slot _ => yields_refuse ?_
  dsimp only
  split_ifs
  · exact yields_pure (h.put _ _)
  · cases oldKey? slot with
    | none => exact yields_pure (h.put _ _)
    | some old =>
      exact yields_bind (yields_true _) fun _ _ => yields_pure ((h.put _ _).put _ _)

theorem setShape_covers (key : String) (shape : List Nat) :
    Yields (Covers fresh) (s.setShape key shape) := by
  refine yields_bind (yields_true _) fun slot _ => yields_refuse ?_
  exact yields_refuse (setArray_covers h _ _ _)

theorem setFlat_covers (key : String) (data : Array Float) :
    Yields (Covers fresh) (s.setFlat key data) :=
  yields_bind (yields_true _) fun _ _ => yields_refuse (yields_pure (h.put _ _))

theorem write_covers (path : VarPath) (index : List Int64) (value : Float) :
    Yields (Covers fresh) (s.write path index value) :=
  yields_bind (yields_true _) fun _ _ =>
    yields_bind (yields_true _) fun _ _ => yields_pure (h.put _ _)

theorem newToOld_covers : Covers fresh s.newToOld := by
  intro key hk
  rw [isSome_get?_newToOld]
  exact h key hk

theorem attempt_covers (c : StoreChange) : Yields (Covers fresh) (c.attempt s) := by
  cases c with
  | setScalar key value => exact setArray_covers h _ _ _
  | setArray key shape data => exact setArray_covers h _ _ _
  | setShape key shape => exact setShape_covers h _ _
  | setFlat key data => exact setFlat_covers h _ _
  | write path index value => exact write_covers h _ _ _
  | newToOld => exact yields_ok (newToOld_covers h)

theorem apply_covers (c : StoreChange) : Covers fresh (c.apply s) := by
  unfold StoreChange.apply
  cases hc : c.attempt s with
  | ok s' => exact attempt_covers h c s' hc
  | error e => exact h

end

theorem after_covers (d : Definition) (changes : List StoreChange) :
    Covers (ofDefinition d) (after d changes) := by
  have hrun : ∀ s, Covers (ofDefinition d) s →
      Covers (ofDefinition d) (changes.foldl StoreChange.apply s) := by
    induction changes with
    | nil => exact fun _ h => h
    | cons c changes ih => exact fun s h => ih _ (apply_covers h c)
  exact hrun _ (covers_refl _)

end Store

namespace Definition

def declared? (d : Definition) (p : VarPath) : Option Variable :=
  (d.descend? p.owner).bind fun d => d.var? p.group.declaring p.name

theorem submodel?_mem {d s : Definition} {name : String} (h : d.submodel? name = some s) :
    (name, s) ∈ d.submodels :=
  Keyed.mem_of_get? h

theorem var?_mem {d : Definition} {k : GroupKind} {name : String} {v : Variable}
    (h : d.var? k name = some v) : ∃ g ∈ d.groups, g.kind = k ∧ v ∈ g.vars ∧ v.name = name := by
  obtain ⟨g, hg, hv⟩ := Option.bind_eq_some_iff.1 h
  refine ⟨g, List.mem_of_find?_eq_some hg, by simpa using List.find?_some hg, ?_⟩
  exact ⟨List.mem_of_find?_eq_some hv, by simpa using List.find?_some hv⟩

end Definition

namespace Store

theorem fresh_mem_slotsOf (owner : List String) (g : GroupRef) (v : Variable) :
    Slot.fresh ⟨owner, g, v.name⟩ v.element v.ndim ∈ slotsOf owner g.declaring v := by
  cases g with
  | kind k => by_cases h : k = .states <;> simp [slotsOf, GroupRef.declaring, h]
  | oldStates => simp [slotsOf, GroupRef.declaring]

theorem freshSlots_eq (owner : List String) (d : Definition) :
    freshSlots owner d = (d.groups.flatMap fun g => g.vars.flatMap (slotsOf owner g.kind)) ++
      freshSlotsAll owner d.submodels := by
  cases d
  rw [freshSlots]

variable {d : Definition}

theorem mem_freshSlotsAll {owner : List String} {subs : List (String × Definition)} {name : String}
    {slot : Slot} (h : (name, d) ∈ subs) (hs : slot ∈ freshSlots (owner ++ [name]) d) :
    slot ∈ freshSlotsAll owner subs := by
  induction subs with
  | nil => cases h
  | cons e subs ih =>
    obtain ⟨n, s⟩ := e
    rw [freshSlotsAll]
    rcases List.mem_cons.1 h with he | hm
    · cases he
      exact List.mem_append_left _ hs
    · exact List.mem_append_right _ (ih hm)

theorem fresh_mem_freshSlots (owner : List String) {o : List String} {d' : Definition}
    {g : GroupRef} {name : String} {v : Variable} (hd : d.descend? o = some d')
    (hv : d'.var? g.declaring name = some v) :
    Slot.fresh ⟨owner ++ o, g, name⟩ v.element v.ndim ∈ freshSlots owner d := by
  induction o generalizing owner d with
  | nil =>
    cases hd
    obtain ⟨group, hg, hk, hm, rfl⟩ := Definition.var?_mem hv
    rw [freshSlots_eq, List.append_nil]
    refine List.mem_append_left _ (List.mem_flatMap.2 ⟨group, hg, List.mem_flatMap.2 ⟨v, hm, ?_⟩⟩)
    rw [hk]
    exact fresh_mem_slotsOf owner g v
  | cons sub rest ih =>
    obtain ⟨s, hs, hd⟩ := Option.bind_eq_some_iff.1 hd
    have hmem := ih (owner ++ [sub]) hd
    rw [List.append_assoc, List.singleton_append] at hmem
    rw [freshSlots_eq]
    exact List.mem_append_right _ (mem_freshSlotsAll (Definition.submodel?_mem hs) hmem)

theorem isSome_get?_ofDefinition {p : VarPath} (h : (d.declared? p).isSome) :
    ((ofDefinition d).get? p.key).isSome := by
  obtain ⟨v, hv⟩ := Option.isSome_iff_exists.1 h
  obtain ⟨d', hd, hv⟩ := Option.bind_eq_some_iff.1 hv
  have hmem := fresh_mem_freshSlots [] hd hv
  refine (Keyed.isSome_get?_ofList _ _).2 ⟨_, List.mem_map.2 ⟨_, hmem, rfl⟩, ?_⟩
  rfl

end Store

end ProcessModel
