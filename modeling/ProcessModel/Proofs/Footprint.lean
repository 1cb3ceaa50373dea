import Mathlib.Logic.Relation
import ProcessModel.Proofs.Storage

/-! What a call may change.

The variables that a call may change can be read off the bodies: they are the targets of assignments
in the body of the method and in those of the methods that it calls, directly or through others, each
path followed from the model that the body belongs to. -/

namespace ProcessModel

/-- A method of a tree: the sub-models on the way to its model, and its name. -/
structure MethodAt where
  owner : List String
  name : String

namespace Model

variable {m : Model} {q r : MethodAt}

def bodyAt? (m : Model) (q : MethodAt) : Option Body :=
  ((m.descend? q.owner).bind fun s => s.method? q.name).map (·.body)

/-- One method has a call of another one in its body. -/
def Calls (m : Model) (q r : MethodAt) : Prop :=
  ∃ b owner name args, m.bodyAt? q = some b ∧
    .call (.method owner name) args ∈ Stmt.nodes b.stmts ∧ r = ⟨q.owner ++ owner, name⟩

/-- A method has an assignment to the variable with a key in its body. -/
def Assigns (m : Model) (q : MethodAt) (key : String) : Prop :=
  ∃ b path indices, m.bodyAt? q = some b ∧ .var path indices ∈ Stmt.targetsAll b.stmts ∧
    (path.below q.owner).key = key

/-- A method, or one that it calls, directly or through others, assigns to a key. -/
def MayWrite (m : Model) (q : MethodAt) (key : String) : Prop :=
  ∃ r, Relation.ReflTransGen m.Calls q r ∧ m.Assigns r key

theorem Assigns.mayWrite {key : String} (h : m.Assigns q key) : m.MayWrite q key := ⟨q, .refl, h⟩

theorem Calls.mayWrite {key : String} (h : m.Calls q r) (hr : m.MayWrite r key) :
    m.MayWrite q key := by
  obtain ⟨last, hpath, hlast⟩ := hr
  exact ⟨last, .head h hpath, hlast⟩

end Model

/-- Two slots of one variable with arrays of one shape. -/
structure Slot.SameForm (a b : Slot) : Prop where
  path : b.path = a.path
  element : b.element = a.element
  shape : b.shape = a.shape
  size : b.data.size = a.data.size

namespace Store

variable {W V : String → Prop} {s t u : Store}

/-- What became of a store when only the elements of some variables were changed. -/
structure Framed (W : String → Prop) (s t : Store) : Prop where
  keys : t.keys = s.keys
  form : ∀ key a b, s.get? key = some a → t.get? key = some b → a.SameForm b
  outside : ∀ key, ¬W key → t.get? key = s.get? key

theorem Framed.refl (W : String → Prop) (s : Store) : Framed W s s := by
  refine ⟨rfl, fun key a b ha hb => ?_, fun _ _ => rfl⟩
  cases ha.symm.trans hb
  exact ⟨rfl, rfl, rfl, rfl⟩

theorem Framed.exists_slot (h : Framed W s t) {key : String} {a : Slot} (ha : s.get? key = some a) :
    ∃ b, t.get? key = some b := by
  rw [← mem_keys_iff, h.keys, mem_keys_iff]
  exact ⟨a, ha⟩

theorem Framed.trans (h : Framed W s t) (h' : Framed W t u) : Framed W s u := by
  refine ⟨h'.keys.trans h.keys, fun key a c ha hc => ?_, fun key hkey => ?_⟩
  · obtain ⟨b, hb⟩ := h.exists_slot ha
    have hab := h.form key a b ha hb
    have hbc := h'.form key b c hb hc
    exact ⟨hbc.path.trans hab.path, hbc.element.trans hab.element, hbc.shape.trans hab.shape,
      hbc.size.trans hab.size⟩
  · rw [h'.outside key hkey, h.outside key hkey]

theorem Framed.mono (h : Framed V s t) (hsub : ∀ key, V key → W key) : Framed W s t :=
  ⟨h.keys, h.form, fun key hkey => h.outside key fun hv => hkey (hsub key hv)⟩

theorem write_framed (s : Store) {path : VarPath} (hpath : W path.key) (index : List Int64)
    (value : Float) : Yields (Framed W s) (s.write path index value) := by
  refine yields_bind (fun slot hslot => slot_eq_ok hslot) fun slot hslot => ?_
  refine yields_bind (yields_true _) fun i _ => yields_pure ⟨keys_put s _ _, ?_, ?_⟩
  · intro key a b ha hb
    rw [get?_put] at hb
    split_ifs at hb with hkey
    · subst hkey
      cases ha.symm.trans hslot
      rw [ha] at hb
      cases hb
      exact ⟨rfl, rfl, rfl, by simp [Slot.set]⟩
    · cases ha.symm.trans hb
      exact ⟨rfl, rfl, rfl, rfl⟩
  · intro key hkey
    rw [get?_put, if_neg]
    rintro rfl
    exact hkey hpath

end Store

namespace Interpreter

variable {m : Model} {q : MethodAt}

variable {b : Body}

theorem bodyAt?_of_target {count : Nat} (h : target m q.owner q.name count = .ok b) :
    m.bodyAt? q = some b := by
  obtain ⟨s, f, hs, hf, rfl, -⟩ := target_eq_ok h
  simp [Model.bodyAt?, hs, hf]

theorem keeps_of_left {σ α : Type} {P : σ → Prop} {x : EStateM (Stop Error) σ α}
    (h : ∀ s, P s → P (left (x s))) : Keeps P AnyStop x fun _ => True := by
  intro s hs
  have hx := h s hs
  cases hr : x s <;> rw [hr] at hx <;> exact ⟨hx, trivial⟩

theorem body_framed (hb : m.bodyAt? q = some b)
    {run : List String → String → List Value → OnStore (Option Value)} (bound : Nat)
    (hrun : ∀ r : MethodAt, m.Calls q r → ∀ values s,
      Store.Framed (m.MayWrite r) s (left (run r.owner r.name values s))) (g : Frame) :
    Store.Framed (m.MayWrite q) g.store (left (execAll ⟨b, q.owner, run, bound⟩ b.stmts g)).store := by
  have hkeeps : Keeps (fun f : Frame => Store.Framed (m.MayWrite q) g.store f.store) AnyStop
      (execAll ⟨b, q.owner, run, bound⟩ b.stmts) fun _ => True := by
    refine execAll_keeps ⟨fun _ => trivial, trivial⟩ b.stmts ((Stmt.allIn_iff_nodes _).2 ⟨?_, ?_⟩)
    · intro x hx
      refine nodeKeeps_store (P := Store.Framed (m.MayWrite q) g.store) ?_
      rintro owner name args rfl values
      have hcalls : m.Calls q ⟨q.owner ++ owner, name⟩ := ⟨b, owner, name, args, hb, hx, rfl⟩
      refine keeps_of_left fun s hs => hs.trans ?_
      exact (hrun _ hcalls values s).mono fun key => hcalls.mayWrite
    · intro t ht
      refine targetKeeps_store (P := Store.Framed (m.MayWrite q) g.store) ?_
      rintro path indices rfl s index value hs s' hs'
      have hassigns : m.Assigns q (path.below q.owner).key := ⟨b, path, indices, hb, ht, rfl⟩
      exact hs.trans (Store.write_framed s hassigns.mayWrite index value s' hs')
  exact hkeeps.left (.refl _ _)

theorem left_call {args : List Value} (hb : target m q.owner q.name args.length = .ok b) (n : Nat)
    (s : Store) :
    left (call m (n + 1) q.owner q.name args s) =
      (left (execAll ⟨b, q.owner, call m n, n⟩ b.stmts ⟨initialLocals b args, s⟩)).store := by
  simp only [call, hb]
  rcases execAll ⟨b, q.owner, call m n, n⟩ b.stmts ⟨initialLocals b args, s⟩ with
    ⟨_ | _ | v, frame⟩ | ⟨e, frame⟩ <;> rfl

/-- A call stays within its footprint, at any depth of calls. -/
theorem call_framed (m : Model) (n : Nat) (q : MethodAt) (args : List Value) (s : Store) :
    Store.Framed (m.MayWrite q) s (left (call m n q.owner q.name args s)) := by
  induction n generalizing q args s with
  | zero => exact .refl _ s
  | succ n ih =>
    cases hb : target m q.owner q.name args.length with
    | error fault =>
      simp only [call, hb]
      exact .refl _ s
    | ok b =>
      rw [left_call hb]
      exact body_framed (bodyAt?_of_target hb) n (fun r _ values s => ih r values s)
        ⟨initialLocals b args, s⟩

/-- Whatever a call comes to, be it a value, a failure or the bound, it leaves the variables that
were there, each with its element type and its shape, and a variable whose elements changed is the
target of an assignment in the body of the method or of one that is reached from it through calls,
seen from the model that the body belongs to. -/
theorem call_changes_assigned (m : Model) (n : Nat) (owner : List String) (name : String)
    (args : List Value) (s : Store) :
    (left (call m n owner name args s)).keys = s.keys ∧
      ∀ key slot, s.get? key = some slot → ∃ slot',
        (left (call m n owner name args s)).get? key = some slot' ∧ slot.SameForm slot' ∧
        (slot'.data ≠ slot.data →
          ∃ r, Relation.ReflTransGen m.Calls ⟨owner, name⟩ r ∧ m.Assigns r key) := by
  have hframed := call_framed m n ⟨owner, name⟩ args s
  refine ⟨hframed.keys, fun key slot hslot => ?_⟩
  obtain ⟨slot', hslot'⟩ := hframed.exists_slot hslot
  refine ⟨slot', hslot', hframed.form key slot slot' hslot hslot', fun hdata => ?_⟩
  by_contra hnot
  have hsame := hframed.outside key hnot
  rw [hslot, hslot'] at hsame
  cases hsame
  exact hdata rfl

end Interpreter

end ProcessModel
