import ProcessModel.Proofs.Alongside
import ProcessModel.Proofs.Keys
import ProcessModel.Proofs.Safety

/-! Sub-models keep to themselves.

A method of a sub-model is called in the tree it belongs to, or in the sub-model alone on its part
of the store. A path that is followed from the sub-model leads to the same slot, under a longer key in
the tree, and a call leads to the same body. -/

namespace ProcessModel

/-- The slot as the model reached through `o` has it. -/
def Slot.above (o : List String) (s : Slot) : Slot :=
  { s with path := { s.path with owner := s.path.owner.drop o.length } }

/-- A failure in the model reached through `o`, seen from above: the keys in it are longer. -/
def Error.qualify (o : List String) : Error → Error
  | .noPath key => .noPath (qualified o key)
  | .unknownVariable key => .unknownVariable (qualified o key)
  | .shapeMismatch key expected got => .shapeMismatch (qualified o key) expected got
  | .tooLarge key shape => .tooLarge (qualified o key) shape
  | .outOfBounds key index shape => .outOfBounds (qualified o key) index shape
  | e => e

def Stop.qualify (o : List String) : Stop Error → Stop Error
  | .failed e => .failed (e.qualify o)
  | .exhausted => .exhausted
  | .outOfRange => .outOfRange

theorem Error.qualify_inj {o : List String} {e e' : Error} (h : e.qualify o = e'.qualify o) :
    e = e' := by
  cases e <;> cases e' <;> simp_all [Error.qualify, qualified_inj]

theorem Stop.qualify_inj {o : List String} {e e' : Stop Error} (h : e.qualify o = e'.qualify o) :
    e = e' := by
  cases e <;> cases e'
  case failed.failed e e' => rw [Error.qualify_inj (Stop.failed.inj h)]
  case exhausted.exhausted | outOfRange.outOfRange => rfl
  all_goals cases h

namespace Store

/-- The part of a store that belongs to the model reached through `o`: a store of that model's
definition `sub`, with the slots it has in the whole. -/
def part (o : List String) (sub : Definition) (whole : Store) : Store :=
  (ofDefinition sub).map fun e => (e.1, ((whole.get? (qualified o e.1)).map (Slot.above o)).getD e.2)

variable {o : List String} {sub : Definition} {whole : Store} {key : String} {slot : Slot}

theorem get?_part (hsub : ((ofDefinition sub).get? key).isSome)
    (hslot : whole.get? (qualified o key) = some slot) :
    (whole.part o sub).get? key = some (slot.above o) := by
  obtain ⟨fresh, hfresh⟩ := Option.isSome_iff_exists.1 hsub
  have hmap := get?_map (ofDefinition sub)
    (fun key fresh => ((whole.get? (qualified o key)).map (Slot.above o)).getD fresh) key
  rw [part, hmap, hfresh, Option.map_some, hslot]
  rfl

theorem part_put (hslot : (whole.get? (qualified o key)).isSome) (slot : Slot) :
    (whole.put (qualified o key) slot).part o sub = (whole.part o sub).put key (slot.above o) := by
  unfold part
  conv_rhs => rw [put, List.map_map]
  refine List.map_congr_left fun e _ => ?_
  simp only [Function.comp_apply, get?_put, qualified_inj]
  by_cases he : e.1 = key
  · obtain ⟨old, hold⟩ := Option.isSome_iff_exists.1 hslot
    subst he
    simp [hold]
  · simp [he, Ne.symm he]

theorem offset_below (p : VarPath) (o : List String) (slot : Slot) (index : List Int64) :
    offset (p.below o).key slot index =
      (offset p.key (slot.above o) index).mapError (Error.qualify o) := by
  have hshape : (slot.above o).shape = slot.shape := rfl
  unfold offset
  rw [hshape, VarPath.key_below]
  cases offset? slot.shape index <;> rfl

end Store

/-- Two stores in the course of two runs: one is the part of the other that belongs to the model
reached through `o`, and all slots of the whole that are not of that model are as at the start. -/
structure PartOf (d : Definition) (o : List String) (sub : Definition) (start whole part : Store) :
    Prop where
  covers : (Store.ofDefinition d).Covers whole
  inside : part = whole.part o sub
  outside : ∀ key, (∀ p, (sub.declared? p).isSome → (p.below o).key ≠ key) →
    whole.get? key = start.get? key

namespace PartOf

variable {d sub : Definition} {o : List String} {start whole part : Store} {p : VarPath}

section Variable

variable (h : PartOf d o sub start whole part) (hd : d.descend? o = some sub)
  (hp : (sub.declared? p).isSome)
include h hd hp

theorem slots :
    ∃ slot, whole.get? (p.below o).key = some slot ∧ part.get? p.key = some (slot.above o) := by
  have hsome := h.covers _ (Store.isSome_get?_ofDefinition (Definition.isSome_declared?_below hd hp))
  obtain ⟨slot, hslot⟩ := Option.isSome_iff_exists.1 hsome
  refine ⟨slot, hslot, ?_⟩
  rw [h.inside]
  rw [VarPath.key_below] at hslot
  exact Store.get?_part (Store.isSome_get?_ofDefinition hp) hslot

theorem read_below (index : List Int64) :
    whole.read (p.below o) index = (part.read p index).mapError (Error.qualify o) := by
  obtain ⟨slot, hwhole, hpart⟩ := h.slots hd hp
  unfold Store.read
  rw [Store.slot_of_get? hwhole, Store.slot_of_get? hpart, ok_bind, ok_bind, Store.offset_below]
  cases Store.offset p.key (slot.above o) index <;> rfl

theorem write_below (index : List Int64) (value : Float) :
    (∃ whole' part', whole.write (p.below o) index value = .ok whole' ∧
        part.write p index value = .ok part' ∧ PartOf d o sub start whole' part') ∨
      ∃ e, whole.write (p.below o) index value = .error (Error.qualify o e) ∧
        part.write p index value = .error e := by
  obtain ⟨slot, hwhole, hpart⟩ := h.slots hd hp
  have hoffset := Store.offset_below p o slot index
  unfold Store.write
  rw [Store.slot_of_get? hwhole, Store.slot_of_get? hpart, ok_bind, ok_bind]
  cases hi : Store.offset p.key (slot.above o) index with
  | error e =>
    rw [hi] at hoffset
    exact .inr ⟨e, by rw [hoffset]; rfl, rfl⟩
  | ok i =>
    rw [hi] at hoffset
    refine .inl ⟨_, _, by rw [hoffset]; rfl, rfl, h.covers.put _ _, ?_, fun key hkey => ?_⟩
    · have hsome : (whole.get? (qualified o p.key)).isSome := by
        rw [← VarPath.key_below, hwhole]
        rfl
      rw [VarPath.key_below, Store.part_put hsome, h.inside]
      rfl
    · rw [Store.get?_put, if_neg (hkey p hp), h.outside key hkey]

end Variable

end PartOf

namespace Interpreter

variable {d sub d' : Definition} {o q : List String} {start : Store} {c c' : Context}

def Qualifies (o : List String) (e e' : Stop Error) : Prop := e = e'.qualify o

def Frame.PartOf (d : Definition) (o : List String) (sub : Definition) (start : Store)
    (f g : Frame) : Prop :=
  f.locals = g.locals ∧ ProcessModel.PartOf d o sub start f.store g.store

theorem onStore_alongside {α : Type} {x y : OnStore α}
    (h : Alongside (PartOf d o sub start) (Qualifies o) x y) :
    Alongside (Frame.PartOf d o sub start) (Qualifies o) (onStore x) (onStore y) := by
  intro f g hfg
  have hxy := h f.store g.store hfg.2
  unfold onStore
  generalize x f.store = r, y g.store = r' at hxy
  cases hxy with
  | ok hpart => exact .ok ⟨hfg.1, hpart⟩
  | error he hpart => exact .error he ⟨hfg.1, hpart⟩

structure Within (o : List String) (c c' : Context) : Prop where
  body : c'.body = c.body
  bound : c'.bound = c.bound
  owner : c.owner = o ++ c'.owner

theorem Within.twin (h : Within o c c') : Twin (Qualifies o) c c' :=
  ⟨h.body, h.bound, fun _ => rfl, rfl⟩

section Body

variable (h : Within o c c')
include h

theorem evalLocal_alongside (x : String) :
    Alongside (Frame.PartOf d o sub start) (Qualifies o) (eval c (.loc x)) (eval c' (.loc x)) := by
  refine alongside_get fun f g hfg => ?_
  rw [hfg.1]
  split
  · exact alongside_pure _
  · unfold fault
    rw [h.body]
    exact alongside_throw rfl

theorem assign_alongside (x : String) (v : Value) :
    Alongside (Frame.PartOf d o sub start) (Qualifies o) (assign c x v) (assign c' x v) := by
  refine alongside_get fun f g hfg => ?_
  rw [hfg.1, h.body]
  split
  · exact alongside_set ⟨rfl, hfg.2⟩
  · unfold fault
    rw [h.body]
    exact alongside_throw rfl

variable (hd : d.descend? o = some sub) (hq : sub.descend? c'.owner = some d') {p : VarPath}
  (hp : (d'.declared? p).isSome)
include hd hq hp

theorem fetch_alongside (index : List Int64) :
    Alongside (Frame.PartOf d o sub start) (Qualifies o) (fetch c p index) (fetch c' p index) := by
  refine alongside_get fun f g hfg => ?_
  have hdeclared := Definition.isSome_declared?_below hq hp
  rw [h.owner, ← VarPath.below_below, hfg.2.read_below hd hdeclared]
  cases g.store.read (p.below c'.owner) index with
  | ok r => exact alongside_pure _
  | error e => exact alongside_throw rfl

theorem writeVar_alongside (index : List Int64) (v : Value) :
    Alongside (Frame.PartOf d o sub start) (Qualifies o)
      (writeVar (p.below c.owner) index v) (writeVar (p.below c'.owner) index v) := by
  refine alongside_get fun f g hfg => ?_
  have hdeclared := Definition.isSome_declared?_below hq hp
  rw [h.owner, ← VarPath.below_below]
  rcases hfg.2.write_below hd hdeclared index v.toFloat with
    ⟨whole', part', hwhole, hpart, hnext⟩ | ⟨e, hwhole, hpart⟩
  · rw [hwhole, hpart]
    exact alongside_set ⟨hfg.1, hnext⟩
  · rw [hwhole, hpart]
    exact alongside_throw rfl

end Body

section Parts

variable (h : Within o c c') (hd : d.descend? o = some sub) (hq : sub.descend? c'.owner = some d')
include h hd hq

theorem nodeAlongside_of_knows {x : Expr} (hx : (c.body.names d').Knows x)
    (hcall : ∀ owner name args, x = .call (.method owner name) args → ∀ values,
      Alongside (PartOf d o sub start) (Qualifies o) (c.call (c.owner ++ owner) name values)
        (c'.call (c'.owner ++ owner) name values)) :
    NodeAlongside (Frame.PartOf d o sub start) (Qualifies o) c c' x := by
  match x, hx with
  | .int _, _ => trivial
  | .float _ _, _ => trivial
  | .bool _, _ => trivial
  | .loc y, _ => exact evalLocal_alongside h y
  | .var p _, ⟨v, hv, _⟩ => exact fetch_alongside h hd hq (Option.isSome_iff_exists.2 ⟨v, hv⟩)
  | .unary _ _, _ => trivial
  | .binary _ _ _, _ => trivial
  | .call (.builtin _) _, _ => trivial
  | .call (.method owner name) args, _ =>
    exact fun values => onStore_alongside (hcall owner name args rfl values)

theorem targetAlongside_of_binds {t : Target} (ht : (c.body.names d').Binds t) :
    TargetAlongside (Frame.PartOf d o sub start) (Qualifies o) c c' t := by
  match t, ht with
  | .loc y, _ => exact assign_alongside h y
  | .var p _, ⟨v, hv, _⟩ =>
    exact writeVar_alongside h hd hq (Option.isSome_iff_exists.2 ⟨v, hv⟩)

end Parts

section Calls

variable {dialect : Dialect} {m s t : Model} {f : Method} (hm : Model.compile dialect d = .ok m)
  (hs : m.descend? o = some s)
include hm hs

theorem compiled_body_alongside (ht : s.descend? q = some t) (hf : f ∈ t.methods)
    {run run' : List String → String → List Value → OnStore (Option Value)} (bound : Nat)
    (hrun : ∀ owner name args, (∃ t g, s.descend? owner = some t ∧ t.method? name = some g) →
      Alongside (PartOf d o s.definition start) (Qualifies o) (run (o ++ owner) name args)
        (run' owner name args)) :
    Alongside (Frame.PartOf d o s.definition start) (Qualifies o)
      (execAll ⟨f.body, o ++ q, run, bound⟩ f.body.stmts)
      (execAll ⟨f.body, q, run', bound⟩ f.body.stmts) := by
  obtain ⟨hd, hcompile⟩ := Model.compile_descend? hm hs
  obtain ⟨d', hq, hscope, hfault⟩ := Model.compile_method hcompile ht hf
  obtain ⟨hknown, hbinds⟩ := (Stmt.allIn_iff_nodes _).1 hscope
  have hwithin : Within o ⟨f.body, o ++ q, run, bound⟩ ⟨f.body, q, run', bound⟩ := ⟨rfl, rfl, rfl⟩
  refine execAll_alongside hwithin.twin _
    ((Stmt.allIn_iff_nodes _).2 ⟨fun x hx => ?_, fun x hx => ?_⟩)
  · refine nodeAlongside_of_knows hwithin hd hq (hknown x hx) ?_
    rintro owner name args rfl values
    have hcall := Model.callFault?_of_mem hfault hx rfl
    obtain ⟨t', g, ht', hg, -⟩ := Model.callFault?_eq_none hcall
    rw [List.append_assoc]
    refine hrun (q ++ owner) name values ⟨t', g, ?_, hg⟩
    rw [Model.descend?_append, ht, Option.bind_some, ht']
  · exact targetAlongside_of_binds hwithin hd hq (hbinds x hx)

/-- A call of a method of the sub-model, at any depth below it, does the same in the tree and in the
sub-model alone. -/
theorem call_alongside (n : Nat) (q : List String) (name : String) (args : List Value)
    (hmethod : ∃ t f, s.descend? q = some t ∧ t.method? name = some f) :
    Alongside (PartOf d o s.definition start) (Qualifies o) (call m n (o ++ q) name args)
      (call s n q name args) := by
  induction n generalizing q name args with
  | zero => exact alongside_throw rfl
  | succ n ih =>
    intro whole part hpart
    obtain ⟨t, f, ht, hf⟩ := hmethod
    have htarget : target m (o ++ q) name args.length = target s q name args.length := by
      simp [target, Model.descend?_append, hs, ht]
    simp only [call, htarget]
    cases hbody : target s q name args.length with
    | error fault => exact .error rfl hpart
    | ok body =>
      obtain ⟨t', f', ht', hf', rfl, -⟩ := target_eq_ok hbody
      have hrun := compiled_body_alongside hm hs ht' (Model.method?_mem hf').1 n ih
        ⟨initialLocals f'.body args, whole⟩ ⟨initialLocals f'.body args, part⟩ ⟨rfl, hpart⟩
      dsimp only
      generalize execAll _ f'.body.stmts ⟨initialLocals f'.body args, whole⟩ = r,
        execAll _ f'.body.stmts ⟨initialLocals f'.body args, part⟩ = r' at hrun
      cases hrun with
      | @ok flow g g' hgg => rcases flow with _ | (_ | v) <;> exact .ok hgg.2
      | error he hgg => exact .error he hgg.2

end Calls

/-- The stores that two runs leave. Where the tree was built, two variables never share a key, so the
variables outside of the model reached through `o` are all as they were. -/
structure Encapsulated (d : Definition) (o : List String) (sub : Definition)
    (start whole part : Store) : Prop extends PartOf d o sub start whole part where
  apart : d.Built → ∀ p : VarPath, (d.declared? p).isSome → ¬o <+: p.owner →
    whole.get? p.key = start.get? p.key

theorem Encapsulated.of_partOf {whole part : Store} (hd : d.descend? o = some sub)
    (h : PartOf d o sub start whole part) : Encapsulated d o sub start whole part := by
  refine ⟨h, fun hbuilt p hp ho => h.outside p.key fun p' hp' hkey => ho ?_⟩
  have hdeclared := Definition.isSome_declared?_below hd hp'
  rw [← hbuilt.owner_eq_of_key hdeclared hp hkey]
  exact List.prefix_append _ _

/-- A call of a method of a sub-model in a compiled tree does what the call in the sub-model alone
does on its part of the store. Both give the same value, or the same failure up to the keys in it,
or reach the bound; the slots of the sub-model come to the same, and all others are as they were. -/
theorem call_encapsulated {dialect : Dialect} {m s : Model} {f : Method}
    (hm : Model.compile dialect d = .ok m) (hs : m.descend? o = some s) {name : String}
    (hf : s.method? name = some f) (args : List Value) (n : Nat)
    (hstart : (Store.ofDefinition d).Covers start) :
    Model.compile dialect s.definition = .ok s ∧
      Agree (Encapsulated d o s.definition start) (Qualifies o) (call m n o name args start)
        (call s n [] name args (start.part o s.definition)) := by
  obtain ⟨hd, hcompile⟩ := Model.compile_descend? hm hs
  have hagree := call_alongside hm hs n [] name args ⟨s, f, rfl, hf⟩ start
    (start.part o s.definition) ⟨hstart, rfl, fun _ _ => rfl⟩
  rw [List.append_nil] at hagree
  exact ⟨hcompile, hagree.mono (Encapsulated.of_partOf hd)⟩

def catchment : Definition where
  name := "catchment"
  groups := [{ kind := .fluxes, vars := [{ name := "q" }] }]
  submodels := [("reservoir", reservoir)]

theorem catchment_built : catchment.Built := by
  have hloss : ∀ e ∈ reservoir.submodels, e.2.Built := by
    intro e he
    obtain rfl := List.mem_singleton.1 he
    exact .of_canonical (by decide) (by decide +kernel) (by decide) (by simp)
  have hreservoir : ∀ e ∈ catchment.submodels, e.2.Built := by
    intro e he
    obtain rfl := List.mem_singleton.1 he
    exact .of_canonical (by decide) (by decide +kernel) (by decide) hloss
  exact .of_canonical (by decide) (by decide +kernel) (by decide) hreservoir

/-- The reservoir fails in the third turn of its loop, two levels down, in the catchment as alone. It
has set its flux by then, and the flux of the catchment is as before. -/
theorem catchment_encapsulates :
    ∃ m s left part, Model.compile {} catchment = .ok m ∧ m.descend? ["reservoir"] = some s ∧
      call m 5 ["reservoir"] "calc_q" []
        (Store.after catchment [.setShape "reservoir.loss.control.c" [2]]) =
          .error (.failed (.outOfBounds "reservoir.loss.control.c" [2] [2])) left ∧
      call s 5 [] "calc_q" [] ((Store.after catchment [.setShape "reservoir.loss.control.c" [2]]).part
        ["reservoir"] s.definition) = .error (.failed (.outOfBounds "loss.control.c" [2] [2])) part ∧
      part = left.part ["reservoir"] s.definition ∧
      left.get? "fluxes.q" =
        (Store.after catchment [.setShape "reservoir.loss.control.c" [2]]).get? "fluxes.q" := by
  have hrun : ((Model.compile {} catchment).toOption.any fun m =>
      (m.descend? ["reservoir"]).any fun s => (s.method? "calc_q").any fun _ =>
        failure? (call m 5 ["reservoir"] "calc_q" []
          (Store.after catchment [.setShape "reservoir.loss.control.c" [2]])) =
            some (.outOfBounds "reservoir.loss.control.c" [2] [2])) := by
    decide +kernel
  obtain ⟨m, hm, hrun⟩ := exists_ok_of_any hrun
  obtain ⟨s, hs, hrun⟩ := (Option.any_eq_true _ _).1 hrun
  obtain ⟨f, hf, hrun⟩ := (Option.any_eq_true _ _).1 hrun
  obtain ⟨left, hcall⟩ := failure?_eq_some (of_decide_eq_true hrun)
  obtain ⟨-, hagree⟩ := call_encapsulated hm hs hf [] 5
    (Store.after_covers catchment [.setShape "reservoir.loss.control.c" [2]])
  rw [hcall] at hagree
  generalize hpart : call s 5 [] _ _ _ = r at hagree
  cases hagree with
  | @error _ e' _ part he h =>
    have hflux := h.apart catchment_built ⟨[], .kind .fluxes, "q"⟩ (by decide +kernel) (by simp)
    obtain rfl : e' = .failed (.outOfBounds "loss.control.c" [2] [2]) :=
      Stop.qualify_inj (o := ["reservoir"]) he.symm
    exact ⟨m, s, left, part, hm, hs, hcall, hpart, h.inside, hflux⟩

end Interpreter

end ProcessModel
