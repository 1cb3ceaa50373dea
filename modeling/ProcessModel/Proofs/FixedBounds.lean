import ProcessModel.Proofs.Loops

/-! Loops that leave their variable and their bound alone.

A bound without method calls is a function of the locals and variables in it, so that a body which
assigns none of these leaves it as it is. -/

namespace ProcessModel

namespace Interpreter

/-- Two frames agree on what an expression reads itself. No two frames agree on a method call. -/
def Alike (f g : Frame) : Expr → Prop
  | .loc x => f.locals.get? x = g.locals.get? x
  | .var _ _ => f.store = g.store
  | .call (.method _ _) _ => False
  | _ => True

def unmoved {α : Type} (r : Except (Stop Error) α) (f : Frame) :
    EStateM.Result (Stop Error) Frame α :=
  match r with
  | .ok a => .ok a f
  | .error e => .error e f

def SameAt {α : Type} (f g : Frame) (x : Exec α) : Prop :=
  ∃ r, x f = unmoved r f ∧ x g = unmoved r g

section SameAt

variable {α β : Type} {f g : Frame} {c : Context}

theorem sameAt_pure (a : α) : SameAt f g (pure a) := ⟨.ok a, rfl, rfl⟩

theorem sameAt_throw (e : Stop Error) : SameAt f g (throw e : Exec α) := ⟨.error e, rfl, rfl⟩

theorem SameAt.bind {x : Exec α} {k : α → Exec β} (hx : SameAt f g x)
    (hk : ∀ a, Gets x a → SameAt f g (k a)) : SameAt f g (x >>= k) := by
  obtain ⟨r, hf, hg⟩ := hx
  cases r with
  | error e => exact ⟨.error e, run_bind_error hf, run_bind_error hg⟩
  | ok a =>
    obtain ⟨r, hf', hg'⟩ := hk a ⟨f, f, hf⟩
    exact ⟨r, (run_bind_ok hf).trans hf', (run_bind_ok hg).trans hg'⟩

theorem compares_sameAt (c : Context) : Compares (fun _ x _ => SameAt f g x) c c where
  pure := sameAt_pure
  bind := .bind
  wholeNumber v := by
    unfold wholeNumber
    split
    · exact sameAt_pure _
    · exact sameAt_throw _
  bound := Nat.le_refl _
  exhausted _ _ := sameAt_throw _

theorem evalLocal_sameAt {x : String} (h : f.locals.get? x = g.locals.get? x) :
    SameAt f g (eval c (.loc x)) := by
  cases hv : g.locals.get? x with
  | some v => exact ⟨.ok v, CountLoop.eval_loc (h.trans hv), CountLoop.eval_loc hv⟩
  | none =>
    have hfault (k : Frame) (hk : k.locals.get? x = none) : eval c (.loc x) k =
        .error (.failed (.run c.body.name (.unknownLocal x))) k := by
      simp only [eval, run_get, hk]
      rfl
    exact ⟨.error _, hfault f (h.trans hv), hfault g hv⟩

theorem fetch_sameAt (h : f.store = g.store) (path : VarPath) (index : List Int64) :
    SameAt f g (fetch c path index) := by
  have hread (k : Frame) (hk : k.store = g.store) : fetch c path index k =
      unmoved (((g.store.read (path.below c.owner) index).map fun r =>
        Value.ofElement r.1 r.2).mapError Stop.failed) k := by
    simp only [fetch, run_get, hk]
    cases g.store.read (path.below c.owner) index <;> rfl
  exact ⟨_, hread f h, hread g rfl⟩

theorem eval_sameAt (c : Context) (e : Expr) (h : e.All (Alike f g)) : SameAt f g (eval c e) := by
  refine eval_compares (compares_sameAt c) e fun x hx => ?_
  have halike := h x hx
  unfold NodeCompares
  split
  · exact evalLocal_sameAt halike
  · exact fun index _ => fetch_sameAt halike _ index
  · exact absurd halike not_false
  · trivial

end SameAt

end Interpreter

def Target.local? : Target → Option String
  | .loc x => some x
  | .var _ _ => none

namespace CountLoop

open Interpreter

def assigned (l : CountLoop) : List String := (Stmt.targetsAll l.body).filterMap Target.local?

def writes (l : CountLoop) : Bool :=
  (Stmt.targetsAll l.body).any (fun t => t.local?.isNone) ||
    (Stmt.nodes l.body).any Expr.isMethodCall

/-- Whether an expression itself reads nothing that the loop changes. -/
def isFixed (l : CountLoop) : Expr → Bool
  | .loc x => x != l.counter && !l.assigned.contains x
  | .var _ _ => !l.writes
  | .call (.method _ _) _ => false
  | _ => true

/-- Whether a loop leaves its variable and its bound alone. -/
def undisturbed (l : CountLoop) : Bool :=
  l.step != 0 && !l.assigned.contains l.counter && l.stop.nodes.all l.isFixed

variable {l : CountLoop} {m s : Model} {o : List String} {b : Body} {g h : Frame}

theorem alike_of_agree (hl : l.undisturbed)
    (hlocals : ∀ x, x ≠ l.counter → x ∉ l.assigned → g.locals.get? x = h.locals.get? x)
    (hstore : l.writes = false → g.store = h.store) : l.stop.All (Alike g h) := by
  simp only [undisturbed, Bool.and_eq_true, List.all_eq_true] at hl
  intro e he
  have hfixed := hl.2 e he
  match e, hfixed with
  | .call (.method _ _) _, hfixed => cases hfixed
  | .loc x, hfixed =>
    simp only [isFixed, Bool.and_eq_true, bne_iff_ne, Bool.not_eq_true', List.contains_eq_mem,
      decide_eq_false_iff_not] at hfixed
    exact hlocals x hfixed.1 hfixed.2
  | .var _ _, hfixed => exact hstore (by simpa [isFixed] using hfixed)
  | .int _, _ | .float _ _, _ | .bool _, _ | .unary _ _, _ | .binary _ _ _, _
  | .call (.builtin _) _, _ => trivial

theorem alike_put (hl : l.undisturbed) (g : Frame) (n : Int64) :
    l.stop.All (Alike g (g.put l.counter n)) := by
  refine alike_of_agree hl (fun x hx _ => ?_) fun _ => rfl
  rw [Frame.put, Keyed.get?_insert, if_neg hx.symm]

variable {flow : Flow}

theorem bodies_local {x : String} (hx : x ∉ l.assigned)
    (hb : Ends (l.bodies m o b) g (.ok flow, h)) : h.locals.get? x = g.locals.get? x := by
  obtain ⟨k, hk⟩ := hb
  refine effect_keeps (execAll_keeps_locals (Q := fun ls => ls.get? x = g.locals.get? x) ?_) rfl hk
  intro y hy t v ls _ hls
  have hne : y ≠ x := by
    rintro rfl
    exact hx (List.mem_filterMap.2 ⟨_, hy, rfl⟩)
  rw [Keyed.get?_insert, if_neg hne, hls]

theorem bodies_store (hl : l.writes = false) (hb : Ends (l.bodies m o b) g (.ok flow, h)) :
    h.store = g.store := by
  simp only [writes, Bool.or_eq_false_iff, List.any_eq_false] at hl
  obtain ⟨k, hk⟩ := hb
  refine effect_keeps (P := fun f => f.store = g.store) (E := fun _ => True) (Q := fun _ => True)
    (execAll_keeps ⟨fun _ => trivial, trivial⟩ l.body
      ((Stmt.allIn_iff_nodes l.body).2 ⟨fun e he => ?_, fun t ht => ?_⟩)) rfl hk
  · match e, hl.2 e he with
    | .call (.method _ _) _, hcall => exact absurd rfl hcall
    | .loc x, _ => exact evalLocal_unchanged _ _ x
    | .var path indices, _ => exact fun index _ => fetch_unchanged _ _ path index
    | .int _, _ | .float _ _, _ | .bool _, _ | .unary _ _, _ | .binary _ _ _, _
    | .call (.builtin _) _, _ => trivial
  · match t, hl.1 t ht with
    | .var _ _, hvar => exact absurd rfl hvar
    | .loc x, _ =>
      refine fun v => keeps_get fun f hf => ?_
      split
      · exact keeps_set hf
      · exact keeps_throw trivial

theorem alike_bodies (hl : l.undisturbed) (hb : Ends (l.bodies m o b) g (.ok flow, h)) :
    l.stop.All (Alike g h) :=
  alike_of_agree hl (fun _ _ hx => (bodies_local hx hb).symm)
    fun hw => (bodies_store hw hb).symm

/-- The bound has the integer value `stop`, which is found without a change of the frame. -/
def BoundIs (m : Model) (o : List String) (b : Body) (l : CountLoop) (stop : Int64) (g : Frame) :
    Prop :=
  ∃ w : Value, w.toInt? = some stop ∧ Ends (fun k => eval (inTree m o b k) l.stop) g (.ok w, g)

variable {w : Value}

theorem ends_stop_of_alike {f g : Frame} (h : l.stop.All (Alike f g)) {f' : Frame}
    (hw : Ends (fun k => eval (inTree m o b k) l.stop) f (.ok w, f')) :
    f' = f ∧ Ends (fun k => eval (inTree m o b k) l.stop) g (.ok w, g) := by
  obtain ⟨k, hk⟩ := hw
  obtain ⟨r, hf, hg⟩ := eval_sameAt (inTree m o b k) l.stop h
  simp only [hf] at hk
  rcases r with (_ | e) | a <;> cases hk
  exact ⟨rfl, k, congrArg effect hg⟩

variable {stop : Int64}

theorem BoundIs.alike {f g : Frame} (hf : l.BoundIs m o b stop f) (h : l.stop.All (Alike f g)) :
    l.BoundIs m o b stop g := by
  obtain ⟨w, hw, he⟩ := hf
  exact ⟨w, hw, (ends_stop_of_alike h he).2⟩

theorem passes_eq_isBefore (hl : l.undisturbed) (hw : w.toInt? = some stop) (n : Int64) :
    l.passes n w = isBefore l.step stop n := by
  simp only [undisturbed, Bool.and_eq_true, bne_iff_ne] at hl
  have hstep := hl.1.1
  have hn : (Value.int n).toInt? = some n := rfl
  by_cases hup : 0 < l.step
  · have hdown : ¬l.step < 0 := Int64.lt_asymm hup
    simp [passes, isBefore, hup, hdown, Value.binary, Value.compare, hn, hw, Value.isTrue]
  · have hdown : l.step < 0 := by
      rcases Int64.lt_or_lt_of_ne hstep with h | h
      · exact h
      · exact absurd h hup
    simp [passes, isBefore, hup, hdown, Value.binary, Value.compare, hn, hw, Value.isTrue]

/-- What holds before a later head of an undisturbed loop. -/
def Undriven (m : Model) (o : List String) (b : Body) (l : CountLoop) : Moment → Frame → Prop
  | .entry, _ => True
  | .later stop next, g =>
    g.locals.get? l.counter = some (.int (next - l.step)) ∧ l.BoundIs m o b stop g

theorem undriven_turn (hl : l.undisturbed) {next : Int64} (hg : l.BoundIs m o b stop g)
    (hb : Ends (l.bodies m o b) (g.put l.counter next) (.ok flow, h)) :
    l.Undriven m o b (.later stop (next + l.step)) h := by
  have hcounter : l.counter ∉ l.assigned := by
    simp only [undisturbed, Bool.and_eq_true, Bool.not_eq_true', List.contains_eq_mem,
      decide_eq_false_iff_not] at hl
    exact hl.1.2
  refine ⟨?_, (hg.alike (alike_put hl g next)).alike (alike_bodies hl hb)⟩
  rw [bodies_local hcounter hb, Frame.get?_put, Int64.add_sub_cancel]

theorem effect_wholeNumber {c : Context} {v : Value} {n : Int64}
    (hv : effect (wholeNumber c v g) = some (.ok n, h)) : v.toInt? = some n ∧ h = g := by
  cases hint : v.toInt? with
  | none =>
    simp only [wholeNumber, hint] at hv
    cases hv
  | some k =>
    simp only [wholeNumber, hint] at hv
    cases hv
    exact ⟨rfl, rfl⟩

variable {first last : Int64}

theorem bounds_ends (hl : l.undisturbed)
    (hf : Ends (fun k => l.bounds (inTree m o b k)) g (.ok (first, last), h)) :
    ∃ v : Value, v.toInt? = some first ∧
      Ends (fun k => eval (inTree m o b k) l.start) g (.ok v, h) ∧ l.BoundIs m o b last h := by
  obtain ⟨k, hk⟩ := hf
  obtain ⟨v, t₁, hv, hrest⟩ := effect_bind_eq_ok hk
  obtain ⟨n, t₂, hn, hrest⟩ := effect_bind_eq_ok hrest
  obtain ⟨w, t₃, hw, hrest⟩ := effect_bind_eq_ok hrest
  obtain ⟨n', t₄, hn', hrest⟩ := effect_bind_eq_ok hrest
  cases hrest
  obtain ⟨hfirst, rfl⟩ := effect_wholeNumber hn
  obtain ⟨hlast, rfl⟩ := effect_wholeNumber hn'
  obtain ⟨rfl, hstop⟩ := ends_stop_of_alike (alike_of_agree hl (fun _ _ _ => rfl) fun _ => rfl) ⟨k, hw⟩
  exact ⟨v, hfirst, ⟨k, hv⟩, w, hlast, hstop⟩

theorem ends_goesOn {n : Int64} (hg : g.locals.get? l.counter = some (.int n))
    (hw : Ends (fun k => eval (inTree m o b k) l.stop) g (.ok w, g)) :
    Ends (fun k => l.goesOn s (inTree m o b k)) g (.ok (l.passes n w), g) := by
  have htest := (ends_map (F := l.passes n)).2 ⟨w, hw, rfl⟩
  exact htest.imp fun k hk => (congrArg effect (goesOn_eq hg)).trans hk

section

variable (hl : l.undisturbed) (hx : b.typeOf? l.counter = some .int)
include hl hx

theorem steady_entry (hf : Ends (fun k => l.bounds (inTree m o b k)) g (.ok (first, last), h)) :
    l.Steady m o b s .entry g := by
  obtain ⟨v, hv, hstart, hbound⟩ := bounds_ends hl hf
  have heval (e : Expr) : Grows fun k => eval (inTree m o b k) e :=
    fun n k hn => eval_refines (inTree_within m o b hn) e
  have hassign (v : Value) : Grows fun k => assign (inTree m o b k) l.counter v :=
    fun n k hn s => .inr (congrFun (assign_within (inTree_within m o b hn) l.counter v).symm s)
  have hcount {r : Except Error (Option Moment) × Frame}
      (hr : Ends (fun k => l.countAt (inTree m o b k) last first) h r) :
      Ends (fun k => l.countHeads m o b k .entry) g r :=
    Ends.bind (fun n k hn => bounds_refines (inTree_within m o b hn))
      (fun found n k hn => countHead_refines (inTree_within m o b hn) (.later found.2 found.1)) hf hr
  have hmove {r : Except Error Unit × Frame}
      (hr : Ends (fun k => assign (inTree m o b k) l.counter v) h r) :
      Ends (fun k => l.move s (inTree m o b k) true) g r :=
    Ends.bind (heval l.start) hassign hstart hr
  cases hg : h.locals.get? l.counter with
  | none =>
    have hfails (v : Value) := congrArg effect (assign_missing (c := inTree m o b 0) hg v)
    refine .inl ⟨.run b.name (.unknownLocal l.counter), h, hcount ?_, ?_⟩
    · exact Ends.bind_error ⟨0, hfails (.int first)⟩
    · exact Ends.bind_error (hmove ⟨0, hfails v⟩)
  | some old =>
    have hset (k : Nat) := assign_int (c := inTree m o b k) hx hg hv
    have hhead := congrArg effect (countHead_later (c := inTree m o b 0) (l := l) hx hg last first)
    obtain ⟨w, hw, hstop⟩ := hbound.alike (alike_put hl h first)
    have htest := (ends_map (F := fun going => if going then some false else none)).2
      ⟨_, ends_goesOn (s := s) (h.get?_put l.counter first) hstop, rfl⟩
    have hgrows : Grows fun k => (do
        return if ← l.goesOn s (inTree m o b k) then some false else none : Exec (Option Bool)) := by
      intro n k hn
      exact .bind (.bind (eval_refines (inTree_within m o b hn) _) fun _ => .refl _) fun _ => .refl _
    have hmoves : Grows fun k => l.move s (inTree m o b k) true := (heval l.start).bind hassign
    refine (inStep_iff_of_ends (steadies_countHeads.head _) (hcount ⟨0, hhead⟩)).2 ⟨_,
      Ends.bind hmoves (fun _ => hgrows) (hmove ⟨0, congrArg effect (hset 0)⟩) htest, ?_⟩
    rw [passes_eq_isBefore hl hw]
    split <;> rfl

/-- An undisturbed loop keeps the value of its variable and its bound from head to head. -/
theorem undriven_of_together {g₀ : Frame}
    (hf : Ends (fun k => l.bounds (inTree m o b k)) g₀ (.ok (first, last), h)) {i : Moment}
    {j : Bool} (ht : Together (l.countHeads m o b) (l.codeHeads m o b s) (l.bodies m o b) .entry
      true g₀ i j g) : (i = .entry → g = g₀) ∧ l.Undriven m o b i g := by
  induction ht with
  | start => exact ⟨fun _ => rfl, trivial⟩
  | @turn i i' j j' g t t' _ hi hj hb ih =>
    obtain ⟨k, hk⟩ := hi
    cases i with
    | later stop next =>
      obtain ⟨rfl, -, rfl⟩ := countAt_some (c := inTree m o b k) hx hk
      exact ⟨nofun, undriven_turn hl ih.2.2 hb⟩
    | entry =>
      obtain rfl := ih.1 rfl
      obtain ⟨found, f, hfound, hat⟩ := effect_bind_eq_ok hk
      have hsame := Ends.unique (fun n k hn => bounds_refines (inTree_within m o b hn)) hf
        ⟨k, hfound⟩
      cases hsame
      obtain ⟨-, -, -, hbound⟩ := bounds_ends hl hf
      obtain ⟨rfl, -, rfl⟩ := countAt_some (c := inTree m o b k) hx hat
      exact ⟨nofun, undriven_turn hl hbound hb⟩

theorem steady_of_undisturbed {g₀ : Frame}
    (hf : Ends (fun k => l.bounds (inTree m o b k)) g₀ (.ok (first, last), h)) {i : Moment}
    (ht : l.Reaches m o b s g₀ i g) : l.Steady m o b s i g := by
  obtain ⟨hstart, hundriven⟩ := undriven_of_together hl hx hf ht
  cases i with
  | entry =>
    rw [hstart rfl]
    exact steady_entry hl hx hf
  | later stop next =>
    obtain ⟨hheld, hbound⟩ := hundriven
    obtain ⟨w, hw, hstop⟩ := hbound.alike (alike_put hl g next)
    exact ⟨hheld, w, hstop, passes_eq_isBefore hl hw next⟩

end

/-- A counting loop of a method that has a function ends as its code does exactly if, at every head
that both reach together, they are in step or rejoin. A loop that leaves its variable and its bound
alone is in step from every frame in which it finds its bounds. -/
theorem loop_agrees_with_code {f : Method} {fn : Code.Function}
    (hok : Code.Function.ofMethod s f = .ok fn) (hl : l ∈ Stmt.loopsAll f.body.stmts) (m : Model)
    (o : List String) (g₀ : Frame) :
    (SameEnds (fun k => exec (inTree m o f.body k) l.stmt)
        (fun k => l.generated s (inTree m o f.body k)) g₀ ↔
      ∀ i g, l.Reaches m o f.body s g₀ i g → l.Steady m o f.body s i g ∨
        Rejoins (l.countHeads m o f.body) (l.codeHeads m o f.body s) (l.bodies m o f.body) i
          i.isEntry g) ∧
    (l.undisturbed → ∀ first last h,
      Ends (fun k => l.bounds (inTree m o f.body k)) g₀ (.ok (first, last), h) →
      SameEnds (fun k => exec (inTree m o f.body k) l.stmt)
        (fun k => l.generated s (inTree m o f.body k)) g₀) := by
  have hiff := sameEnds_iff_steady hok hl m o g₀
  refine ⟨hiff, fun hundisturbed first last h hfound => hiff.2 fun i g ht => .inl ?_⟩
  exact steady_of_undisturbed hundisturbed (Code.counter_of_ofMethod hok hl) hfound ht

def tally (line : String) : Definition where
  name := "tally"
  sources := [⟨"tally.mdl", "def calc(model):\n    for i in range(3):\n" ++
    "        model.sequences.fluxes.q = model.sequences.fluxes.q + 1.0\n" ++ line⟩]
  groups := [{ kind := .fluxes, vars := [{ name := "q" }] }]
  methods := { run := ["calc"] }

def literal? : Expr → Option Int64
  | .int n => some n
  | _ => none

theorem bounds_literal (hfirst : literal? l.start = some first)
    (hlast : literal? l.stop = some last) (g : Frame) :
    Ends (fun k => l.bounds (inTree m o b k)) g (.ok (first, last), g) := by
  obtain ⟨line, counter, start, stop, step, body⟩ := l
  cases start <;> cases hfirst
  cases stop <;> cases hlast
  exact ⟨0, rfl⟩

theorem tally_agrees_with_code :
    ∃ m f fn, ∃ l : CountLoop, Model.compile {} (tally "") = .ok m ∧ f ∈ m.methods ∧
      Code.Function.ofMethod m f = .ok fn ∧ l ∈ Stmt.loopsAll f.body.stmts ∧
      ∀ g, SameEnds (fun k => exec (inTree m [] f.body k) l.stmt)
        (fun k => l.generated m (inTree m [] f.body k)) g := by
  have hrun : ((Model.compile {} (tally "")).toOption.any fun m => m.methods.head?.any fun f =>
      (Code.Function.ofMethod m f).toOption.any fun _ => (Stmt.loopsAll f.body.stmts).head?.any
        fun l => (literal? l.start).any fun _ => (literal? l.stop).any fun _ => l.undisturbed) := by
    decide +kernel
  obtain ⟨m, hm, h⟩ := exists_ok_of_any hrun
  obtain ⟨f, hf, h⟩ := (Option.any_eq_true _ _).1 h
  obtain ⟨fn, hok, h⟩ := exists_ok_of_any h
  obtain ⟨l, hl, h⟩ := (Option.any_eq_true _ _).1 h
  obtain ⟨first, hfirst, h⟩ := (Option.any_eq_true _ _).1 h
  obtain ⟨last, hlast, hundisturbed⟩ := (Option.any_eq_true _ _).1 h
  have hmem := List.mem_of_mem_head? hl
  refine ⟨m, f, fn, l, hm, List.mem_of_mem_head? hf, hok, hmem, fun g => ?_⟩
  exact (loop_agrees_with_code hok hmem m [] g).2 hundisturbed first last g
    (bounds_literal hfirst hlast g)

def left? (x : String) (r : EStateM.Result (Stop Error) Frame Flow) : Option Int64 := do
  let (_, g) ← effect r
  (← g.locals.get? x).toInt?

/-- A tally that sets its counter ends with another counter than its code. -/
theorem tally_parts_from_code :
    ∃ m f fn, ∃ l : CountLoop, Model.compile {} (tally "        i = 5\n") = .ok m ∧
      f ∈ m.methods ∧ Code.Function.ofMethod m f = .ok fn ∧ l ∈ Stmt.loopsAll f.body.stmts ∧
      ¬SameEnds (fun k => exec (inTree m [] f.body k) l.stmt)
        (fun k => l.generated m (inTree m [] f.body k))
        ⟨initialLocals f.body [], Store.ofDefinition (tally "        i = 5\n")⟩ := by
  have hrun : ((Model.compile {} (tally "        i = 5\n")).toOption.any fun m =>
      m.methods.head?.any fun f => (Code.Function.ofMethod m f).toOption.any fun _ =>
      (Stmt.loopsAll f.body.stmts).head?.any fun l =>
        let g : Frame := ⟨initialLocals f.body [], Store.ofDefinition (tally "        i = 5\n")⟩
        left? "i" (exec (inTree m [] f.body 5) l.stmt g) = some 3 ∧
          left? "i" (l.generated m (inTree m [] f.body 5) g) = some 6) := by
    decide +kernel
  obtain ⟨m, hm, h⟩ := exists_ok_of_any hrun
  obtain ⟨f, hf, h⟩ := (Option.any_eq_true _ _).1 h
  obtain ⟨fn, hfn, h⟩ := exists_ok_of_any h
  obtain ⟨l, hl, hleft⟩ := (Option.any_eq_true _ _).1 h
  obtain ⟨hexec, hcode⟩ := of_decide_eq_true hleft
  refine ⟨m, f, fn, l, hm, List.mem_of_mem_head? hf, hfn,
    List.mem_of_mem_head? hl, fun hsame => ?_⟩
  obtain ⟨r, hr, hthree⟩ := Option.bind_eq_some_iff.1 hexec
  obtain ⟨r', hr', hsix⟩ := Option.bind_eq_some_iff.1 hcode
  have hgrows : Grows fun k => exec (inTree m [] f.body k) l.stmt :=
    fun n k hn => exec_refines (inTree_within m [] f.body hn) _
  have heq := Ends.unique hgrows ⟨5, hr⟩ ((hsame r').2 ⟨5, hr'⟩)
  subst heq
  cases hthree.symm.trans hsix

end CountLoop

end ProcessModel
