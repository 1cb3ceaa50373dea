import ProcessModel.Proofs.Storage

/-! Loading one series among others.

Each channel loads into the slot of its own variable, so that channels of other variables neither
notice nor disturb what one of them loads. -/

namespace ProcessModel

namespace Store

variable {s : Store} {key other : String} {slot : Slot}

def valuesAt (s : Store) (key : String) : List Float := ((s.get? key).map (·.data.toList)).getD []

theorem put_comm (h : other ≠ key) (s : Store) (slot slot' : Slot) :
    (s.put key slot).put other slot' = (s.put other slot').put key slot := by
  unfold put
  rw [List.map_map, List.map_map]
  refine List.map_congr_left fun e _ => ?_
  by_cases hkey : e.1 = key
  · subst hkey
    simp [Ne.symm h]
  · by_cases hother : e.1 = other <;> simp [hkey, hother, h]

theorem slot_put_of_ne (h : other ≠ key) (s : Store) (slot : Slot) :
    (s.put key slot).slot other = s.slot other := by
  rw [Store.slot, get?_put, if_neg (Ne.symm h)]
  rfl

theorem flat_put {old : Slot} (h : s.get? key = some old) (slot : Slot) :
    (s.put key slot).flat key = .ok slot.data := by
  have hget : (s.put key slot).get? key = some slot := by
    rw [get?_put, if_pos rfl, h, Option.map_some]
  rw [flat, slot_of_get? hget]
  rfl

theorem setFlat_put_of_ne (h : other ≠ key) (s : Store) (slot : Slot) (data : Array Float) :
    (s.put key slot).setFlat other data = (s.setFlat other data).map (·.put key slot) := by
  unfold setFlat
  rw [slot_put_of_ne h]
  cases s.slot other with
  | error e => rfl
  | ok t =>
    rw [ok_bind, ok_bind]
    split_ifs
    · rfl
    · exact congrArg Except.ok (put_comm h s _ _)

theorem setFlat_of_get? {data : Array Float} (h : s.get? key = some slot)
    (hsize : data.size = slot.data.size) :
    s.setFlat key data = .ok (s.put key (slot.fill slot.shape data)) := by
  rw [setFlat, slot_of_get? h, ok_bind, if_neg (not_not.2 hsize.symm)]
  rfl

end Store

namespace Channels

variable {c : Channel} {cs before after : Channels} {disk : Disk} {s s' : Store} {idx : Nat}
  {key : String} {slot : Slot}

def loadOne (c : Channel) (disk : Disk) (s : Store) (idx : Nat) : Except Error Store := do
  let values ← s.flat c.key
  match ← ((record c values.size idx : StateM Disk _).run disk).1 with
  | none => return s
  | some values => s.setFlat c.key values.toArray

def loaded (cs : Channels) (disk : Disk) (s : Store) (idx : Nat) : Store × Except Error Unit :=
  ((load s idx cs : StateM Disk _).run disk).1

theorem record_disk (c : Channel) (length idx : Nat) (disk : Disk) :
    ((record c length idx : StateM Disk _).run disk).2 = disk := by
  unfold record
  split_ifs
  · rw [Store.run_bind_state]
    split <;> rfl
  · rfl
  · split <;> rfl
  · rfl

theorem loaded_cons_ok (h : loadOne c disk s idx = .ok s') :
    loaded (c :: cs) disk s idx = loaded cs disk s' idx := by
  obtain ⟨values, hflat, h⟩ := bind_eq_ok h
  obtain ⟨values?, hrecord, h⟩ := bind_eq_ok h
  rw [loaded, load, hflat]
  dsimp only
  rw [Store.run_bind_state, hrecord, record_disk]
  cases values? with
  | none =>
    cases h
    rfl
  | some values =>
    dsimp only at h ⊢
    rw [h]
    rfl

variable {e : Error}

theorem loaded_cons_error (h : loadOne c disk s idx = .error e) :
    loaded (c :: cs) disk s idx = (s, .error e) := by
  rw [loaded, load]
  rw [loadOne] at h
  cases hflat : s.flat c.key with
  | error e =>
    rw [hflat] at h
    cases h
    rfl
  | ok values =>
    rw [hflat, ok_bind] at h
    dsimp only
    rw [Store.run_bind_state]
    cases hrecord : ((record c values.size idx : StateM Disk _).run disk).1 with
    | error e =>
      rw [hrecord] at h
      cases h
      rfl
    | ok values? =>
      rw [hrecord, ok_bind] at h
      cases values? with
      | none => cases h
      | some values =>
        dsimp only at h ⊢
        rw [h]
        rfl

theorem loaded_append_ok (h : loaded before disk s idx = (s', .ok ())) :
    loaded (before ++ after) disk s idx = loaded after disk s' idx := by
  induction before generalizing s with
  | nil =>
    cases h
    rfl
  | cons c before ih =>
    cases hone : loadOne c disk s idx with
    | error e =>
      rw [loaded_cons_error hone] at h
      cases h
    | ok t =>
      rw [loaded_cons_ok hone] at h
      rw [List.cons_append, loaded_cons_ok hone, ih h]

theorem loaded_append_error (h : loaded before disk s idx = (s', .error e)) :
    loaded (before ++ after) disk s idx = (s', .error e) := by
  induction before generalizing s with
  | nil => cases h
  | cons c before ih =>
    cases hone : loadOne c disk s idx with
    | error e =>
      rw [loaded_cons_error hone] at h
      rw [List.cons_append, loaded_cons_error hone, h]
    | ok t =>
      rw [loaded_cons_ok hone] at h
      rw [List.cons_append, loaded_cons_ok hone, ih h]

/-! ### Other channels -/

theorem loadOne_put (h : c.key ≠ key) (disk : Disk) (s : Store) (slot : Slot) (idx : Nat) :
    loadOne c disk (s.put key slot) idx = (loadOne c disk s idx).map (·.put key slot) := by
  unfold loadOne Store.flat
  rw [Store.slot_put_of_ne h]
  cases s.slot c.key with
  | error e => rfl
  | ok t =>
    simp only [ok_bind, pure_bind]
    cases ((record c t.data.size idx : StateM Disk _).run disk).1 with
    | error e => rfl
    | ok values? =>
      cases values? with
      | none => rfl
      | some values => exact Store.setFlat_put_of_ne h s slot _

theorem get?_of_loadOne (h : c.key ≠ key) (hone : loadOne c disk s idx = .ok s') :
    s'.get? key = s.get? key := by
  obtain ⟨values, -, hone⟩ := bind_eq_ok hone
  obtain ⟨values?, -, hone⟩ := bind_eq_ok hone
  cases values? with
  | none =>
    cases hone
    rfl
  | some values =>
    obtain ⟨slot, -, hone⟩ := bind_eq_ok hone
    dsimp only at hone
    split_ifs at hone
    · cases hone
    · cases hone
      rw [Store.get?_put, if_neg h]

theorem loaded_put (h : ∀ c ∈ cs, c.key ≠ key) (disk : Disk) (s : Store) (slot : Slot)
    (idx : Nat) :
    loaded cs disk (s.put key slot) idx =
      ((loaded cs disk s idx).1.put key slot, (loaded cs disk s idx).2) := by
  induction cs generalizing s with
  | nil => rfl
  | cons c cs ih =>
    have hput := loadOne_put (h c List.mem_cons_self) disk s slot idx
    cases hone : loadOne c disk s idx with
    | error e =>
      rw [hone] at hput
      rw [loaded_cons_error hone, loaded_cons_error hput]
    | ok t =>
      rw [hone] at hput
      rw [loaded_cons_ok hone, loaded_cons_ok hput, ih fun c hc => h c (List.mem_cons_of_mem _ hc)]

theorem get?_loaded (h : ∀ c ∈ cs, c.key ≠ key) (disk : Disk) (s : Store) (idx : Nat) :
    (loaded cs disk s idx).1.get? key = s.get? key := by
  induction cs generalizing s with
  | nil => rfl
  | cons c cs ih =>
    cases hone : loadOne c disk s idx with
    | error e => rw [loaded_cons_error hone]
    | ok t =>
      rw [loaded_cons_ok hone, ih fun c hc => h c (List.mem_cons_of_mem _ hc),
        get?_of_loadOne (h c List.mem_cons_self) hone]

/-! ### One channel among others -/

theorem loadOne_record {values : List Float} (hslot : s.get? c.key = some slot)
    (hrecord : ((record c slot.data.size idx : StateM Disk _).run disk).1 = .ok (some values))
    (hsize : values.length = slot.data.size) :
    loadOne c disk s idx = .ok (s.put c.key (slot.fill slot.shape values.toArray)) := by
  rw [loadOne, Store.flat, Store.slot_of_get? hslot]
  simp only [ok_bind, pure_bind]
  rw [hrecord]
  exact Store.setFlat_of_get? hslot hsize

/-- Loading with one more channel ends as without it, and its record is in the store then. -/
theorem loaded_record {values : List Float} (hbefore : ∀ o ∈ before, o.key ≠ c.key)
    (hafter : ∀ o ∈ after, o.key ≠ c.key) (hslot : s.get? c.key = some slot)
    (hrecord : ((record c slot.data.size idx : StateM Disk _).run disk).1 = .ok (some values))
    (hsize : values.length = slot.data.size) :
    (loaded (before ++ c :: after) disk s idx).2 = (loaded (before ++ after) disk s idx).2 ∧
      ((loaded (before ++ after) disk s idx).2 = .ok () →
        (loaded (before ++ c :: after) disk s idx).1 =
          (loaded (before ++ after) disk s idx).1.put c.key
            (slot.fill slot.shape values.toArray)) := by
  have hkept := get?_loaded hbefore disk s idx
  rcases hloaded : loaded before disk s idx with ⟨t, e | _⟩
  · rw [loaded_append_error hloaded, loaded_append_error hloaded]
    exact ⟨rfl, fun h => by cases h⟩
  · rw [hloaded] at hkept
    rw [loaded_append_ok hloaded, loaded_append_ok hloaded,
      loaded_cons_ok (loadOne_record (hkept.trans hslot) hrecord hsize), loaded_put hafter]
    exact ⟨rfl, fun _ => rfl⟩

theorem loaded_no_record (hbefore : ∀ o ∈ before, o.key ≠ c.key) (hslot : s.get? c.key = some slot)
    (hrecord : ((record c slot.data.size idx : StateM Disk _).run disk).1 = .error e) :
    ∃ e, (loaded (before ++ c :: after) disk s idx).2 = .error e := by
  have hkept := get?_loaded hbefore disk s idx
  rcases hloaded : loaded before disk s idx with ⟨t, e' | _⟩
  · rw [loaded_append_error hloaded]
    exact ⟨e', rfl⟩
  · rw [hloaded] at hkept
    have hone : loadOne c disk t idx = .error e := by
      rw [loadOne, Store.flat, Store.slot_of_get? (hkept.trans hslot)]
      simp only [ok_bind, pure_bind]
      rw [hrecord]
      rfl
    rw [loaded_append_ok hloaded, loaded_cons_error hone]
    exact ⟨e, rfl⟩

end Channels

end ProcessModel
