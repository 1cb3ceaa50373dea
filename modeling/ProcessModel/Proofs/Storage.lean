import ProcessModel.Files.Disk
import ProcessModel.Proofs.Casts
import ProcessModel.Proofs.Declarations
import ProcessModel.Proofs.Safety
import ProcessModel.Series

/-! What stays true of a store, whatever is done to it.

Every way to write keeps the form of a store, those that copy an array from one slot to another
because a state and its old value have the same declaration. -/

namespace ProcessModel

namespace Slot

/-- Whether a slot is one of variable `v` at path `p`. -/
structure Fits (p : VarPath) (v : Variable) (s : Slot) : Prop where
  path : s.path = p
  element : s.element = v.element
  ndim : s.ndim = v.ndim
  size : s.data.size = shapeSize s.shape
  cast : ∀ x ∈ s.data, v.element.cast x = x

variable {p q : VarPath} {v : Variable} {s t : Slot}

theorem fits_fresh (p : VarPath) (v : Variable) : Fits p v (.fresh p v.element v.ndim) := by
  refine ⟨rfl, rfl, by simp [ndim, fresh], by simp [fresh], fun x hx => ?_⟩
  obtain ⟨-, rfl⟩ := Array.mem_replicate.1 hx
  cases v.element <;> decide

theorem Fits.fill (h : s.Fits p v) {shape : List Nat} {data : Array Float}
    (hndim : s.ndim = shape.length) (hsize : data.size = shapeSize shape) :
    (s.fill shape data).Fits p v := by
  have hsize' : (s.fill shape data).data.size = shapeSize shape := by simpa [Slot.fill] using hsize
  refine ⟨h.path, h.element, hndim.symm.trans h.ndim, hsize', fun x hx => ?_⟩
  obtain ⟨y, -, rfl⟩ := Array.mem_map.1 hx
  rw [h.element]
  exact Element.cast_cast _ _

theorem Fits.set (h : s.Fits p v) (i : Nat) (value : Float) : (s.set i value).Fits p v := by
  refine ⟨h.path, h.element, h.ndim, by simpa [Slot.set] using h.size, fun x hx => ?_⟩
  rcases Array.mem_or_eq_of_mem_setIfInBounds hx with hmem | rfl
  · exact h.cast x hmem
  · rw [h.element]
    exact Element.cast_cast _ _

theorem Fits.copy (h : s.Fits p v) (ht : t.Fits q v) :
    ({ s with shape := t.shape, data := t.data } : Slot).Fits p v :=
  ⟨h.path, h.element, ht.ndim, ht.size, ht.cast⟩

end Slot

namespace Store

/-- Whether a store is one of a definition: a slot for each of its variables, and no other. -/
structure Fits (d : Definition) (s : Store) : Prop where
  keys : s.keys = (ofDefinition d).keys
  slots : ∀ key slot, s.get? key = some slot →
    ∃ p v, d.declared? p = some v ∧ p.key = key ∧ slot.Fits p v

variable {d : Definition} {s s' : Store} {key : String} {slot : Slot}

theorem fits_ofDefinition (hd : d.Built) : Fits d (ofDefinition d) := by
  refine ⟨rfl, fun key slot h => ?_⟩
  obtain ⟨p, v, hp, hkey, rfl⟩ := (get?_ofDefinition hd).1 h
  exact ⟨p, v, hp, hkey, Slot.fits_fresh p v⟩

theorem slot_eq_ok (h : s.slot key = .ok slot) : s.get? key = some slot := by
  unfold Store.slot at h
  split at h
  · cases h
    assumption
  · cases h

theorem mem_keys_iff : key ∈ s.keys ↔ ∃ slot, s.get? key = some slot := by
  induction s with
  | nil => simp [Keyed.keys]
  | cons e s ih =>
    rw [Keyed.keys, List.map_cons, List.mem_cons, Keyed.get?_cons]
    split_ifs with h
    · simp [h]
    · rw [← ih]
      simp [Keyed.keys, Ne.symm h]

theorem keys_put (s : Store) (key : String) (slot : Slot) : (s.put key slot).keys = s.keys := by
  rw [put, Keyed.keys, List.map_map]
  refine List.map_congr_left fun e _ => ?_
  by_cases he : e.1 = key <;> simp [he]

variable {p : VarPath} {v : Variable}

theorem Fits.slot_fits (hd : d.Built) (h : Fits d s) (hp : d.declared? p = some v)
    (hslot : s.get? p.key = some slot) : slot.Fits p v := by
  obtain ⟨q, w, hq, hkey, hfits⟩ := h.slots _ _ hslot
  obtain rfl := hd.path_eq_of_key (by rw [hq]; rfl) (by rw [hp]; rfl) hkey
  obtain rfl := Option.some.inj (hq.symm.trans hp)
  exact hfits

theorem Fits.put (h : Fits d s) (hp : d.declared? p = some v) (hslot : slot.Fits p v) :
    Fits d (s.put p.key slot) := by
  refine ⟨(keys_put s _ _).trans h.keys, fun key other hother => ?_⟩
  rw [get?_put] at hother
  split_ifs at hother with hkey
  · obtain ⟨-, -, rfl⟩ := Option.map_eq_some_iff.1 hother
    exact ⟨p, v, hp, hkey, hslot⟩
  · exact h.slots key other hother

theorem declared?_oldStates (h : p.group = .kind .states) :
    d.declared? { p with group := .oldStates } = d.declared? p := by
  simp [Definition.declared?, h, GroupRef.declaring]

theorem Fits.exists_old (hd : d.Built) (h : Fits d s) (hp : d.declared? p = some v)
    (hstate : p.group = .kind .states) :
    ∃ old, s.get? { p with group := .oldStates }.key = some old ∧
      old.Fits { p with group := .oldStates } v := by
  have hold : d.declared? { p with group := .oldStates } = some v :=
    (declared?_oldStates hstate).trans hp
  have hmem : { p with group := .oldStates }.key ∈ s.keys := by
    rw [h.keys, mem_keys_iff]
    exact ⟨_, (get?_ofDefinition hd).2 ⟨_, v, hold, rfl, rfl⟩⟩
  obtain ⟨old, hget⟩ := mem_keys_iff.1 hmem
  exact ⟨old, hget, h.slot_fits hd hold hget⟩

theorem oldKey?_eq_some {old : String} (h : oldKey? slot = some old) :
    slot.path.group = .kind .states ∧ { slot.path with group := .oldStates }.key = old := by
  unfold oldKey? at h
  split_ifs at h with hstate
  exact ⟨hstate, Option.some.inj h⟩

theorem setArray_fits (hd : d.Built) (h : Fits d s) (key : String) {shape : List Nat}
    {data : Array Float} (hsize : data.size = shapeSize shape) :
    Yields (Fits d) (s.setArray key shape data) := by
  refine yields_bind (fun slot hslot => slot_eq_ok hslot) fun slot hslot => ?_
  obtain ⟨p, v, hp, rfl, hfits⟩ := h.slots _ _ hslot
  by_cases hndim : slot.ndim ≠ shape.length
  · rw [if_pos hndim]
    exact yields_error _
  rw [if_neg hndim]
  have hfilled := hfits.fill (not_not.1 hndim) hsize
  have hput := h.put hp hfilled
  dsimp only
  split_ifs with hshape
  · exact yields_pure hput
  cases hold : oldKey? slot with
  | none => exact yields_pure hput
  | some key =>
    -- the old value has the declaration of the state, so that its array needs no cast
    obtain ⟨hstate, rfl⟩ := oldKey?_eq_some hold
    rw [hfits.path] at hstate ⊢
    refine yields_bind (fun old hget => slot_eq_ok hget) fun old hget => yields_pure ?_
    have hdeclared := (declared?_oldStates (d := d) hstate).trans hp
    exact hput.put hdeclared ((hput.slot_fits hd hdeclared hget).copy hfilled)

theorem exists_setArray (hd : d.Built) (h : Fits d s) {shape : List Nat} (data : Array Float)
    (hslot : s.get? key = some slot) (hndim : slot.ndim = shape.length) :
    ∃ s', s.setArray key shape data = .ok s' := by
  obtain ⟨p, v, hp, rfl, hfits⟩ := h.slots _ _ hslot
  simp only [setArray, slot_of_get? hslot, ok_bind, hndim, ne_eq, not_true_eq_false, if_false]
  split_ifs with hshape
  · exact ⟨_, rfl⟩
  cases hold : oldKey? slot with
  | none => exact ⟨_, rfl⟩
  | some key =>
    obtain ⟨hstate, rfl⟩ := oldKey?_eq_some hold
    rw [hfits.path] at hstate ⊢
    obtain ⟨old, hget, -⟩ := h.exists_old hd hp hstate
    have hsome : ((s.put p.key (slot.fill shape data)).get?
        { p with group := .oldStates }.key).isSome := by
      rw [get?_put, hget]
      split_ifs <;> rfl
    obtain ⟨old, hget⟩ := slot_of_isSome hsome
    dsimp only
    rw [hget]
    exact ⟨_, rfl⟩

theorem setShape_fits (hd : d.Built) (h : Fits d s) (key : String) (shape : List Nat) :
    Yields (Fits d) (s.setShape key shape) := by
  refine yields_bind (yields_true _) fun slot _ => yields_refuse ?_
  exact yields_refuse (setArray_fits hd h _ (by simp))

theorem setFlat_fits (h : Fits d s) (key : String) (data : Array Float) :
    Yields (Fits d) (s.setFlat key data) := by
  refine yields_bind (fun slot hslot => slot_eq_ok hslot) fun slot hslot => ?_
  obtain ⟨p, v, hp, rfl, hfits⟩ := h.slots _ _ hslot
  by_cases hsize : slot.data.size ≠ data.size
  · rw [if_pos hsize]
    exact yields_error _
  · rw [if_neg hsize]
    exact yields_pure (h.put hp (hfits.fill rfl ((not_not.1 hsize).symm.trans hfits.size)))

theorem write_fits (h : Fits d s) (path : VarPath) (index : List Int64) (value : Float) :
    Yields (Fits d) (s.write path index value) := by
  refine yields_bind (fun slot hslot => slot_eq_ok hslot) fun slot hslot => ?_
  obtain ⟨p, v, hp, hkey, hfits⟩ := h.slots _ _ hslot
  refine yields_bind (yields_true _) fun i _ => yields_pure ?_
  rw [← hkey]
  exact h.put hp (hfits.set i value)

/-- What becomes of a slot when the states of store `s` become the old ones. -/
def renewed (s : Store) (slot : Slot) : Slot :=
  if slot.path.group = .oldStates then
    match s.get? { slot.path with group := .kind .states }.key with
    | some new => { slot with shape := new.shape, data := new.data }
    | none => slot
  else slot

theorem newToOld_eq (s : Store) : s.newToOld = s.map fun e => (e.1, s.renewed e.2) := by
  refine List.map_congr_left fun e _ => ?_
  unfold renewed
  split_ifs
  · cases s.get? { e.2.path with group := .kind .states }.key <;> rfl
  · rfl

theorem renewed_fits (hd : d.Built) (h : Fits d s) (hp : d.declared? p = some v)
    (hfits : slot.Fits p v) : (s.renewed slot).Fits p v := by
  unfold renewed
  split_ifs with hold
  · split
    · rename_i new hnew
      have hstate : d.declared? { p with group := .kind .states } = some v := by
        rw [← hp, ← hfits.path]
        simp [Definition.declared?, hold, GroupRef.declaring]
      rw [hfits.path] at hnew
      exact hfits.copy (h.slot_fits hd hstate hnew)
    · exact hfits
  · exact hfits

theorem newToOld_fits (hd : d.Built) (h : Fits d s) : Fits d s.newToOld := by
  have hkeys : s.newToOld.keys = s.keys := by
    rw [newToOld_eq, Keyed.keys, List.map_map]
    rfl
  refine ⟨hkeys.trans h.keys, fun key slot hslot => ?_⟩
  rw [newToOld_eq, get?_map s fun _ => s.renewed, Option.map_eq_some_iff] at hslot
  obtain ⟨slot, hslot, rfl⟩ := hslot
  obtain ⟨p, v, hp, hkey, hfits⟩ := h.slots _ _ hslot
  exact ⟨p, v, hp, hkey, renewed_fits hd h hp hfits⟩

end Store

/-- Whether a change sets an array that has as many elements as its shape says. -/
def StoreChange.Regular : StoreChange → Prop
  | .setArray _ shape data => data.size = shapeSize shape
  | _ => True

namespace Store

variable {d : Definition} {s : Store}

theorem attempt_fits (hd : d.Built) (h : Fits d s) {c : StoreChange} (hc : c.Regular) :
    Yields (Fits d) (c.attempt s) := by
  cases c with
  | setScalar key value => exact setArray_fits hd h key rfl
  | setArray key shape data => exact setArray_fits hd h key hc
  | setShape key shape => exact setShape_fits hd h key shape
  | setFlat key data => exact setFlat_fits h key data
  | write path index value => exact write_fits h path index value
  | newToOld => exact yields_ok (newToOld_fits hd h)

theorem apply_fits (hd : d.Built) (h : Fits d s) {c : StoreChange} (hc : c.Regular) :
    Fits d (c.apply s) := by
  unfold StoreChange.apply
  cases hs : c.attempt s with
  | ok s' => exact attempt_fits hd h hc s' hs
  | error e => exact h

theorem scatter_fits (h : Fits d s) (keys : NumericKeys) (values : List Float) :
    Fits d (NumericKeys.scatter s keys values).1 := by
  induction keys generalizing s values with
  | nil => exact h
  | cons key keys ih =>
    unfold NumericKeys.scatter
    split
    · exact h
    · split
      · exact h
      · rename_i slot _ s' hs
        exact ih (setFlat_fits h key _ s' hs) _

theorem run_bind_state {σ α β : Type} (x : StateM σ α) (f : α → StateM σ β) (s : σ) :
    (x >>= f).run s = (f (x.run s).1).run (x.run s).2 := rfl

theorem load_fits (h : Fits d s) (channels : Channels) (idx : Nat) (disk : Disk) :
    Fits d ((channels.load s idx : StateM Disk _).run disk).1.1 := by
  induction channels generalizing s disk with
  | nil => exact h
  | cons c channels ih =>
    unfold Channels.load
    split
    · exact h
    · rename_i values hvalues
      rw [run_bind_state]
      generalize (Channels.record c values.size idx : StateM Disk _).run disk = r
      split
      · exact h
      · exact ih h _
      · split
        · exact h
        · rename_i s' hs
          exact ih (setFlat_fits h c.key _ s' hs) _

end Store

def Interpreter.left {ε σ α : Type} : EStateM.Result ε σ α → σ
  | .ok _ s => s
  | .error _ s => s

theorem Keeps.left {ε σ α : Type} {P : σ → Prop} {E : ε → Prop} {Q : α → Prop} {x : EStateM ε σ α}
    (h : Keeps P E x Q) {s : σ} (hs : P s) : P (Interpreter.left (x s)) := by
  have hx := h s hs
  cases hr : x s <;> rw [hr] at hx <;> exact hx.1

namespace Interpreter

section Write

variable {P : Store → Prop} {α : Type}

def AnyStop : Stop Error → Prop := fun _ => True

theorem ofExcept_keeps {σ : Type} {R : σ → Prop} (r : Except Error α) :
    Keeps R AnyStop (ofExcept r) fun a => r = .ok a := by
  cases r with
  | ok a => exact keeps_pure rfl
  | error e => exact keeps_throw trivial

theorem onStore_keeps_store {x : OnStore α} (h : Keeps P AnyStop x fun _ => True) :
    Keeps (fun f : Frame => P f.store) AnyStop (onStore x) fun _ => True := by
  intro f hf
  have hx := h f.store hf
  unfold onStore
  cases hr : x f.store with
  | ok a s =>
    rw [hr] at hx
    exact hx
  | error e s =>
    rw [hr] at hx
    exact hx

theorem nodeKeeps_store {c : Context} {x : Expr} (hcall : ∀ owner name args,
    x = .call (.method owner name) args → ∀ values : List Value,
      Keeps P AnyStop (c.call (c.owner ++ owner) name values) fun _ => True) :
    NodeKeeps (fun f => P f.store) AnyStop c x := by
  match x, hcall with
  | .int _, _ | .float _ _, _ | .bool _, _ | .unary _ _, _ | .binary _ _ _, _
  | .call (.builtin _) _, _ => trivial
  | .loc y, _ =>
    refine keeps_get fun f _ => ?_
    cases f.locals.get? y with
    | some v => exact keeps_pure trivial
    | none => exact keeps_throw trivial
  | .var path indices, _ =>
    intro index _
    exact keeps_get fun f _ => keeps_bind (ofExcept_keeps _) fun r _ => keeps_pure trivial
  | .call (.method owner name) args, hcall =>
    exact fun values _ => onStore_keeps_store (hcall owner name args rfl values)

theorem targetKeeps_store {c : Context} {t : Target} (hwrite : ∀ path indices,
    t = .var path indices → ∀ s index value, P s →
      Yields P (Store.write s (path.below c.owner) index value)) :
    TargetKeeps (fun f => P f.store) AnyStop c t := by
  cases t with
  | loc y =>
    intro v
    refine keeps_get fun f hf => ?_
    cases c.body.typeOf? y with
    | none => exact keeps_throw trivial
    | some t =>
      cases f.locals.get? y with
      | none => exact keeps_throw trivial
      | some old => exact keeps_set hf
  | var path indices =>
    intro index v _
    refine keeps_get fun f hf => keeps_bind (ofExcept_keeps _) fun s hs => ?_
    exact keeps_set (hwrite path indices rfl _ _ _ hf s hs)

/-- Bodies change the store by writing only: what every write keeps is kept by every call of every
model, also by one that fails. -/
theorem call_keeps_of_write
    (hwrite : ∀ s path index value, P s → Yields P (s.write path index value)) (model : Model)
    (bound : Nat) (owner : List String) (name : String) (args : List Value) :
    Keeps P AnyStop (call model bound owner name args) fun _ => True := by
  induction bound generalizing owner name args with
  | zero => exact keeps_throw trivial
  | succ bound ih =>
    intro s hs
    simp only [call]
    cases target model owner name args.length with
    | error f => exact ⟨hs, trivial⟩
    | ok body =>
      let c : Context := ⟨body, owner, call model bound, bound⟩
      have htolerates : Tolerates AnyStop c := ⟨fun _ => trivial, trivial⟩
      have hbody := execAll_keeps htolerates body.stmts ((Stmt.allIn_iff_nodes _).2
        ⟨fun x _ => nodeKeeps_store (P := P) fun _ _ _ _ _ => ih _ _ _,
          fun t _ => targetKeeps_store fun _ _ _ s _ _ => hwrite s _ _ _⟩)
        ⟨initialLocals body args, s⟩ hs
      dsimp only
      split at hbody <;> rename_i hr
      · rename_i flow frame
        rw [hr]
        rcases flow with _ | (_ | v) <;> exact ⟨hbody.1, trivial⟩
      · rw [hr]
        exact ⟨hbody.1, trivial⟩

end Write

end Interpreter

namespace Store

/-- The stores that a definition can have: the fresh one, and what any change, any loading of
series, any distribution of integrated values and any call of any method make of them, be it done
or refused or broken off. -/
inductive Reached (d : Definition) : Store → Prop
  | fresh : Reached d (ofDefinition d)
  | change {s : Store} (h : Reached d s) (c : StoreChange) (hc : c.Regular) : Reached d (c.apply s)
  | load {s : Store} (h : Reached d s) (channels : Channels) (idx : Nat) (disk : Disk) :
      Reached d ((channels.load s idx : StateM Disk _).run disk).1.1
  | scatter {s : Store} (h : Reached d s) (keys : NumericKeys) (values : List Float) :
      Reached d (NumericKeys.scatter s keys values).1
  | call {s : Store} (h : Reached d s) (model : Model) (bound : Nat) (owner : List String)
      (name : String) (args : List Value) :
      Reached d (Interpreter.left (Interpreter.call model bound owner name args s))

variable {d : Definition} {s : Store}

theorem Reached.fits (hd : d.Built) (h : Reached d s) : Fits d s := by
  induction h with
  | fresh => exact fits_ofDefinition hd
  | change _ c hc ih => exact apply_fits hd ih hc
  | load _ channels idx disk ih => exact load_fits ih channels idx disk
  | scatter _ keys values ih => exact scatter_fits ih keys values
  | call _ model bound owner name args ih =>
    have hwrite : ∀ s path index value, Fits d s → Yields (Fits d) (s.write path index value) :=
      fun s path index value hs => write_fits hs path index value
    exact (Interpreter.call_keeps_of_write hwrite model bound owner name args).left ih

end Store

/-- What a cast does not change: any number as it is, an integer, or zero and one. -/
theorem Element.of_cast_eq {element : Element} {x : Float} (h : element.cast x = x) :
    (element = .int → ∃ n, x = Real64.ofInt n) ∧ (element = .bool → x = 0.0 ∨ x = 1.0) := by
  constructor
  · rintro rfl
    exact ⟨_, h.symm⟩
  · rintro rfl
    rw [← h]
    by_cases hx : x != 0.0 <;> simp [cast, hx]

namespace Store

variable {d : Definition} {s : Store}

/-- In every store that can be reached, the keys are those of the fresh store, and the slot under
each has the path and element type it had there, an array of the declared number of dimensions, and
elements that a cast leaves as they are. An array of the declared number of dimensions is never
refused, so a change that is refused is refused before anything is written. -/
theorem reached_wellFormed (hd : d.Built) (h : Reached d s) :
    s.keys = (ofDefinition d).keys ∧
    (∀ key slot, s.get? key = some slot → ∃ fresh v, (ofDefinition d).get? key = some fresh ∧
      slot.path = fresh.path ∧ slot.element = fresh.element ∧
      d.declared? slot.path = some v ∧ slot.path.key = key ∧
      slot.element = v.element ∧ slot.ndim = v.ndim ∧ slot.data.size = shapeSize slot.shape ∧
      ∀ x ∈ slot.data, slot.element.cast x = x ∧
        (slot.element = .int → ∃ n, x = Real64.ofInt n) ∧
        (slot.element = .bool → x = 0.0 ∨ x = 1.0)) ∧
    ∀ key slot shape data, s.get? key = some slot → slot.ndim = shape.length →
      ∃ s', s.setArray key shape data = .ok s' := by
  have hfits := h.fits hd
  refine ⟨hfits.keys, fun key slot hslot => ?_, fun key slot shape data hslot hndim => ?_⟩
  · obtain ⟨p, v, hp, hkey, hs⟩ := hfits.slots key slot hslot
    have hfresh := (get?_ofDefinition hd).2 ⟨p, v, hp, hkey, rfl⟩
    refine ⟨_, v, hfresh, hs.path, hs.element, hs.path ▸ hp, hs.path ▸ hkey, hs.element, hs.ndim,
      hs.size, fun x hx => ?_⟩
    have hcast : slot.element.cast x = x := hs.element ▸ hs.cast x hx
    exact ⟨hcast, Element.of_cast_eq hcast⟩
  · exact exists_setArray hd hfits data hslot hndim

def hatchery : Definition where
  name := "hatchery"
  sources := [⟨"hatchery.mdl", "def calc(model):\n    sta.n[0] = 2.5\n    sta.n[9] = 1.0\n"⟩]
  groups := [{ kind := .states, vars := [{ name := "n", ndim := 1, element := .int }] }]
  methods := { run := ["calc"] }

theorem hatchery_built : hatchery.Built :=
  .of_canonical (by decide) (by decide +kernel) (by decide) (by simp [hatchery])

/-- The hatchery is filled, a run writes one number and fails at the next, and the states become the
old ones: whole numbers all the way. -/
theorem hatchery_wellFormed :
    ∃ m e s, Model.compile {} hatchery = .ok m ∧
      Interpreter.failure? (Interpreter.call m 5 [] "calc" []
        (after hatchery [.setArray "states.n" [2] #[0.5, 9.75]])) = some e ∧
      newToOld (Interpreter.left (Interpreter.call m 5 [] "calc" []
        (after hatchery [.setArray "states.n" [2] #[0.5, 9.75]]))) = s ∧
      hatchery.Built ∧ Reached hatchery s ∧ s.flat "old_states.n" = .ok #[2.0, 9.0] ∧
      s.keys = ["old_states.n", "states.n"] ∧
      ∀ slot, s.get? "old_states.n" = some slot → slot.element = .int ∧ slot.ndim = 1 ∧
        ∀ x ∈ slot.data, slot.element.cast x = x ∧ ∃ n, x = Real64.ofInt n := by
  have hrun : ((Model.compile {} hatchery).toOption.any fun m =>
      (Interpreter.failure? (Interpreter.call m 5 [] "calc" []
        (after hatchery [.setArray "states.n" [2] #[0.5, 9.75]]))).any fun _ =>
          (flat (newToOld (Interpreter.left (Interpreter.call m 5 [] "calc" []
            (after hatchery [.setArray "states.n" [2] #[0.5, 9.75]])))) "old_states.n").toOption =
              some #[2.0, 9.0]) := by
    decide +kernel
  obtain ⟨m, hm, he⟩ := exists_ok_of_any hrun
  obtain ⟨e, he, hflat⟩ := (Option.any_eq_true _ _).1 he
  have hreached : Reached hatchery (newToOld (Interpreter.left (Interpreter.call m 5 [] "calc" []
      (after hatchery [.setArray "states.n" [2] #[0.5, 9.75]])))) :=
    .change (.call (.change .fresh (.setArray "states.n" [2] #[0.5, 9.75]) rfl) m 5 [] "calc" [])
      .newToOld trivial
  obtain ⟨hkeys, hslots, -⟩ := reached_wellFormed hatchery_built hreached
  replace hflat := toOption_eq_some (of_decide_eq_true hflat)
  refine ⟨m, e, _, hm, he, rfl, hatchery_built, hreached, hflat,
    hkeys.trans (by decide +kernel), fun slot hslot => ?_⟩
  obtain ⟨fresh, v, -, -, -, hv, hkey, helement, hndim, -, hcast⟩ := hslots _ slot hslot
  have hpath : slot.path = ⟨[], .oldStates, "n"⟩ :=
    hatchery_built.path_eq_of_key (by rw [hv]; rfl) (by decide +kernel) hkey
  have hdeclared : hatchery.declared? ⟨[], .oldStates, "n"⟩ =
      some { name := "n", ndim := 1, element := .int } := by decide +kernel
  rw [hpath, hdeclared] at hv
  cases hv
  exact ⟨helement, hndim, fun x hx => ⟨(hcast x hx).1, (hcast x hx).2.1 helement⟩⟩

end Store

end ProcessModel
