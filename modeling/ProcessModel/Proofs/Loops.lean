import ProcessModel.Code.Method
import ProcessModel.Proofs.Bodies
import ProcessModel.Proofs.Lockstep
import ProcessModel.Proofs.Slots

/-! Counting loops, run as statements and as generated code.

A running body keeps the counter of a loop to itself and evaluates the bound once. The code of the
loop counts in the loop variable and evaluates the bound before every turn. -/

namespace ProcessModel

/-- A counting loop of a body. -/
structure CountLoop where
  line : Nat
  counter : String
  start : Expr
  stop : Expr
  step : Int64
  body : List Stmt

def CountLoop.stmt (l : CountLoop) : Stmt := .count l.line l.counter l.start l.stop l.step l.body

namespace Stmt

mutual

def loops : Stmt → List CountLoop
  | .count line counter start stop step body =>
    ⟨line, counter, start, stop, step, body⟩ :: loopsAll body
  | .choose _ clauses otherwise => clauseLoops clauses ++ loopsAll otherwise
  | .loop _ _ body => loopsAll body
  | _ => []

def loopsAll : List Stmt → List CountLoop
  | [] => []
  | s :: rest => loops s ++ loopsAll rest

def clauseLoops : List Clause → List CountLoop
  | [] => []
  | ⟨_, body⟩ :: rest => loopsAll body ++ clauseLoops rest

end

end Stmt

namespace Code

open Stmt

mutual

theorem counter_of_counterFault? (b : Body) : ∀ s : Stmt, counterFault? b s = none →
    ∀ l ∈ loops s, b.typeOf? l.counter = some .int
  | .count line x start stop step body, h, l, hl => by
    rw [counterFault?] at h
    split_ifs at h with hx
    rcases List.mem_cons.1 hl with rfl | hl
    · exact hx
    · exact counter_of_bodyFault? b body h l hl
  | .choose line clauses otherwise, h, l, hl => by
    rw [counterFault?, Option.or_eq_none_iff] at h
    rcases List.mem_append.1 hl with hl | hl
    · exact counter_of_clauseFault? b clauses h.1 l hl
    · exact counter_of_bodyFault? b otherwise h.2 l hl
  | .loop line test body, h, l, hl => counter_of_bodyFault? b body h l hl

theorem counter_of_bodyFault? (b : Body) : ∀ ss : List Stmt, bodyFault? b ss = none →
    ∀ l ∈ loopsAll ss, b.typeOf? l.counter = some .int
  | s :: rest, h, l, hl => by
    rw [bodyFault?, Option.or_eq_none_iff] at h
    rcases List.mem_append.1 hl with hl | hl
    · exact counter_of_counterFault? b s h.1 l hl
    · exact counter_of_bodyFault? b rest h.2 l hl

theorem counter_of_clauseFault? (b : Body) : ∀ cs : List Clause, clauseFault? b cs = none →
    ∀ l ∈ clauseLoops cs, b.typeOf? l.counter = some .int
  | ⟨test, body⟩ :: rest, h, l, hl => by
    rw [clauseFault?, Option.or_eq_none_iff] at h
    rcases List.mem_append.1 hl with hl | hl
    · exact counter_of_bodyFault? b body h.1 l hl
    · exact counter_of_clauseFault? b rest h.2 l hl

end

theorem counter_of_ofMethod {m : Model} {f : Method} {fn : Function}
    (h : Function.ofMethod m f = .ok fn) {l : CountLoop} (hl : l ∈ loopsAll f.body.stmts) :
    f.body.typeOf? l.counter = some .int := by
  unfold Function.ofMethod at h
  split at h
  · cases h
  · rename_i hfault
    exact counter_of_bodyFault? f.body f.body.stmts hfault l hl

end Code

namespace Interpreter

section Locals

variable {c : Context} {Q : Keyed Value → Prop}

theorem evalLocal_unchanged (c : Context) (P : Frame → Prop) (x : String) :
    Keeps P (fun _ => True) (eval c (.loc x)) fun _ => True := by
  refine keeps_get fun f hf => ?_
  split
  · exact keeps_pure trivial
  · exact keeps_throw trivial

theorem fetch_unchanged (c : Context) (P : Frame → Prop) (path : VarPath) (index : List Int64) :
    Keeps P (fun _ => True) (fetch c path index) fun _ => True := by
  refine keeps_get fun f hf => ?_
  cases f.store.read (path.below c.owner) index with
  | error e => exact keeps_throw trivial
  | ok r => exact keeps_pure trivial

theorem nodeKeeps_locals (c : Context) (Q : Keyed Value → Prop) (e : Expr) :
    NodeKeeps (fun f => Q f.locals) (fun _ => True) c e := by
  match e with
  | .int _ | .float _ _ | .bool _ | .unary _ _ | .binary _ _ _ | .call (.builtin _) _ => trivial
  | .loc x => exact evalLocal_unchanged c _ x
  | .var path indices => exact fun index _ => fetch_unchanged c _ path index
  | .call (.method owner name) args =>
    intro values _ f hf
    unfold onStore
    cases c.call (c.owner ++ owner) name values f.store with
    | ok a st => exact ⟨hf, trivial⟩
    | error e st => exact ⟨hf, trivial⟩

theorem eval_keeps_locals (c : Context) (Q : Keyed Value → Prop) (e : Expr) :
    Keeps (fun f => Q f.locals) (fun _ => True) (eval c e) fun _ => True :=
  eval_keeps ⟨fun _ => trivial, trivial⟩ e fun x _ => nodeKeeps_locals c Q x

theorem execAll_keeps_locals {ss : List Stmt}
    (h : ∀ x, .loc x ∈ Stmt.targetsAll ss → ∀ t v ls, c.body.typeOf? x = some t → Q ls →
      Q (ls.insert x (Value.cast t v))) :
    Keeps (fun f => Q f.locals) (fun _ => True) (execAll c ss) fun _ => True := by
  refine execAll_keeps ⟨fun _ => trivial, trivial⟩ ss
    ((Stmt.allIn_iff_nodes ss).2 ⟨fun x _ => nodeKeeps_locals c Q x, fun t ht => ?_⟩)
  match t with
  | .loc x =>
    refine fun v => keeps_get fun f hf => ?_
    split
    · exact keeps_set (h x ht _ v _ (by assumption) hf)
    · exact keeps_throw trivial
  | .var path indices =>
    refine fun index v _ => keeps_get fun f hf => ?_
    cases f.store.write (path.below c.owner) index v.toFloat with
    | error e => exact keeps_throw trivial
    | ok st => exact keeps_set hf

end Locals

theorem effect_keeps {α σ : Type} {P : σ → Prop} {E : Stop Error → Prop} {Q : α → Prop}
    {x : EStateM (Stop Error) σ α} (hx : Keeps P E x Q) {s t : σ} {r : Except Error α} (hs : P s)
    (h : effect (x s) = some (r, t)) : P t := by
  have hr := hx s hs
  rcases hxs : x s with ⟨a, t'⟩ | ⟨_ | _ | _, t'⟩ <;> rw [hxs] at h hr <;> cases h
  · exact hr.1
  · exact hr.1

def Frame.put (g : Frame) (x : String) (n : Int64) : Frame :=
  { g with locals := g.locals.insert x (.int n) }

theorem Frame.get?_put (g : Frame) (x : String) (n : Int64) :
    (g.put x n).locals.get? x = some (.int n) := by
  simp [put, Keyed.get?_insert]

variable {g : Frame}

theorem assign_int {c : Context} {x : String} (hx : c.body.typeOf? x = some .int) {old v : Value}
    (hg : g.locals.get? x = some old) {n : Int64} (hv : v.toInt? = some n) :
    assign c x v g = .ok () (g.put x n) := by
  have hcast : v.cast .int = .int n := by simp [Value.cast, hv]
  simp only [assign, run_get, hx, hg,
    hcast]
  rfl

theorem assign_missing {c : Context} {x : String} (hg : g.locals.get? x = none) (v : Value) :
    assign c x v g = .error (.failed (.run c.body.name (.unknownLocal x))) g := by
  simp only [assign, run_get, hg]
  cases c.body.typeOf? x <;> rfl

theorem ends_map {α β : Type} {x : Nat → Exec α} {F : α → β} {h : Frame} {y : β} :
    Ends (fun k => do return F (← x k)) g (.ok y, h) ↔ ∃ a, Ends x g (.ok a, h) ∧ F a = y := by
  constructor
  · rintro ⟨n, hn⟩
    obtain ⟨a, t, ha, hr⟩ := effect_bind_eq_ok hn
    cases hr
    exact ⟨a, ⟨n, ha⟩, rfl⟩
  · rintro ⟨a, ⟨n, hn⟩, rfl⟩
    exact ⟨n, congrArg effect (effect_bind_ok hn)⟩

end Interpreter

namespace CountLoop

open Interpreter

/-- The head that the loop has in the code of a method of `m`. -/
def head (m : Model) (l : CountLoop) : Code.LoopHead := .ofCount m l.counter l.start l.stop l.step

variable (m : Model) (c : Context) (l : CountLoop)

def move : Bool → Exec Unit
  | true => do assign c (l.head m).counter (← eval c l.start)
  | false => do
    let moved ← eval c (.binary .add (.loc (l.head m).counter) (.int (l.head m).step))
    assign c (l.head m).counter moved

/-- Compare the loop variable with the bound, which is evaluated anew. -/
def goesOn : Exec Bool := do
  let test := if (l.head m).upward then BinaryOp.lt else .gt
  return (← eval c (.binary test (.loc (l.head m).counter) l.stop)).isTrue

/-- The loop of the generated code from a head on, the first or a later one. -/
def codeLoop : Nat → Bool → Exec Flow
  | 0, _ => throw .exhausted
  | n + 1, first => do
    l.move m c first
    if ← l.goesOn m c then
      match ← execAll c l.body with
      | .ret v => return .ret v
      | .next => codeLoop n false
    else return .next

/-- The loop of the generated code, its parts evaluated as those of a statement are. -/
def generated : Exec Flow := l.codeLoop m c c.bound true

/-- The heads of a loop with a private counter: the first one, and one for every later value of the
counter with the bound that was found at the first. -/
inductive Moment
  | entry
  | later (stop next : Int64)

def Moment.isEntry : Moment → Bool
  | .entry => true
  | .later _ _ => false

def bounds : Exec (Int64 × Int64) := do
  let first ← wholeNumber c (← eval c l.start)
  let last ← wholeNumber c (← eval c l.stop)
  return (first, last)

/-- Give the loop variable the private counter and compare that with the bound. -/
def countAt (stop next : Int64) : Exec (Option Moment) := do
  assign c l.counter (.int next)
  return if isBefore l.step stop next then some (.later stop (next + l.step)) else none

def countHead : Moment → Exec (Option Moment)
  | .entry => do
    let (first, last) ← l.bounds c
    l.countAt c last first
  | .later stop next => l.countAt c stop next

def codeHead (first : Bool) : Exec (Option Bool) := do
  l.move m c first
  return if ← l.goesOn m c then some false else none

theorem countLoop_eq_turns (stop : Int64) (n : Nat) (next : Int64) :
    countLoop (fun k => assign c l.counter (.int k)) (execAll c l.body) l.step stop n next =
      turns (l.countHead c) (execAll c l.body) n (.later stop next) := by
  induction n generalizing next with
  | zero => rfl
  | succ n ih =>
    rw [countLoop, turns_succ, countHead, countAt, bind_assoc]
    refine congrArg (assign c l.counter (.int next) >>= ·) (funext fun _ => ?_)
    rw [pure_bind]
    split_ifs
    · refine congrArg (execAll c l.body >>= ·) (funext fun flow => ?_)
      cases flow with
      | ret v => rfl
      | next => exact ih _
    · rfl

theorem exec_eq_turns {n : Nat} (hn : c.bound = n + 1) :
    exec c l.stmt = turns (l.countHead c) (execAll c l.body) (n + 1) .entry := by
  have hexec : exec c l.stmt = l.bounds c >>= fun b =>
      turns (l.countHead c) (execAll c l.body) (n + 1) (.later b.2 b.1) := by
    simp only [stmt, exec, bounds, bind_assoc, pure_bind, countLoop_eq_turns, hn]
  rw [hexec, turns_succ, countHead, bind_assoc]
  refine congrArg (l.bounds c >>= ·) (funext fun b => ?_)
  rw [turns_succ, countHead]

theorem codeLoop_eq_turns (n : Nat) (first : Bool) :
    l.codeLoop m c n first = turns (l.codeHead m c) (execAll c l.body) n first := by
  induction n generalizing first with
  | zero => rfl
  | succ n ih =>
    rw [codeLoop, turns_succ, codeHead, bind_assoc]
    refine congrArg (l.move m c first >>= ·) (funext fun _ => ?_)
    rw [bind_assoc]
    refine congrArg (l.goesOn m c >>= ·) (funext fun b => ?_)
    rw [pure_bind]
    split_ifs
    · refine congrArg (execAll c l.body >>= ·) (funext fun flow => ?_)
      cases flow with
      | ret v => rfl
      | next => exact ih _
    · rfl

variable {m c l}

variable {c' : Context}

theorem bounds_refines (h : c.Within c') : Refines (l.bounds c) (l.bounds c') := by
  simp only [bounds, wholeNumber_within h]
  refine .bind (eval_refines h l.start) fun v => .bind (.refl _) fun first => ?_
  exact .bind (eval_refines h l.stop) fun w => .refl _

theorem countHead_refines (h : c.Within c') (i : Moment) :
    Refines (l.countHead c i) (l.countHead c' i) := by
  cases i with
  | entry =>
    simp only [countHead, countAt, assign_within h]
    exact .bind (bounds_refines h) fun _ => .refl _
  | later stop next =>
    simp only [countHead, countAt, assign_within h]
    exact .refl _

theorem codeHead_refines (h : c.Within c') (first : Bool) :
    Refines (l.codeHead m c first) (l.codeHead m c' first) := by
  refine .bind ?_ fun _ => .bind (.bind (eval_refines h _) fun _ => .refl _) fun _ => .refl _
  cases first <;> simp only [move, assign_within h] <;>
    exact .bind (eval_refines h _) fun _ => .refl _

variable {s : Model} {o : List String} {b : Body}

/-- The heads of the two loops, and their body, in a body of the tree. -/
def countHeads (m : Model) (o : List String) (b : Body) (l : CountLoop) (k : Nat) :
    Moment → Exec (Option Moment) := l.countHead (inTree m o b k)

def codeHeads (m : Model) (o : List String) (b : Body) (s : Model) (l : CountLoop) (k : Nat) :
    Bool → Exec (Option Bool) := l.codeHead s (inTree m o b k)

def bodies (m : Model) (o : List String) (b : Body) (l : CountLoop) (k : Nat) : Exec Flow :=
  execAll (inTree m o b k) l.body

theorem grows_bodies : Grows (l.bodies m o b) :=
  fun _ _ hn => execAll_refines (inTree_within m o b hn) l.body

theorem steadies_countHeads : Steadies (l.countHeads m o b) (l.bodies m o b) :=
  ⟨fun i _ _ hn => countHead_refines (inTree_within m o b hn) i, grows_bodies⟩

theorem steadies_codeHeads : Steadies (l.codeHeads m o b s) (l.bodies m o b) :=
  ⟨fun i _ _ hn => codeHead_refines (inTree_within m o b hn) i, grows_bodies⟩

variable {g : Frame}

theorem ends_exec_iff {r : Except Error Flow × Frame} :
    Ends (fun k => exec (inTree m o b k) l.stmt) g r ↔
      Ends (runs (l.countHeads m o b) (l.bodies m o b) .entry) g r := by
  have heq (k : Nat) : exec (inTree m o b (k + 1)) l.stmt =
      runs (l.countHeads m o b) (l.bodies m o b) .entry (k + 1) := exec_eq_turns _ l rfl
  refine ⟨Ends.of_succ (fun n k hn => exec_refines (inTree_within m o b hn) _) heq, ?_⟩
  exact Ends.of_succ (steadies_countHeads.runs _) fun k => (heq k).symm

theorem ends_generated_iff {r : Except Error Flow × Frame} :
    Ends (fun k => l.generated s (inTree m o b k)) g r ↔
      Ends (runs (l.codeHeads m o b s) (l.bodies m o b) true) g r := by
  have heq : (fun k => l.generated s (inTree m o b k)) =
      runs (l.codeHeads m o b s) (l.bodies m o b) true :=
    funext fun k => codeLoop_eq_turns s _ l k true
  rw [heq]

/-- Whether the loop variable at `n` passes the test against a value of the bound. -/
def passes (l : CountLoop) (n : Int64) (w : Value) : Bool :=
  (Value.binary (if 0 < l.step then .lt else .gt) (.int n) w).isTrue

theorem eval_loc {x : String} {v : Value} (hg : g.locals.get? x = some v) :
    eval c (.loc x) g = .ok v g := by
  simp only [eval, run_get, hg]
  rfl

theorem goesOn_eq {n : Int64} (hg : g.locals.get? l.counter = some (.int n)) :
    l.goesOn m c g = (do return l.passes n (← eval c l.stop) : Exec Bool) g := by
  have hloc := eval_loc (c := c) hg
  have htest (op : BinaryOp) (hop : op = .lt ∨ op = .gt) :
      (do return (← eval c (.binary op (.loc l.counter) l.stop)).isTrue : Exec Bool) g =
        (do return (Value.binary op (.int n) (← eval c l.stop)).isTrue : Exec Bool) g := by
    have hparts : eval c (.binary op (.loc l.counter) l.stop) = (do
        let a ← eval c (.loc l.counter)
        let w ← eval c l.stop
        return .binary op a w) := by
      rcases hop with rfl | rfl <;> rfl
    simp only [hparts, bind_assoc, pure_bind]
    exact run_bind_ok hloc
  by_cases hup : 0 < l.step
  · simpa [goesOn, passes, head, Code.LoopHead.ofCount, hup] using htest .lt (.inl rfl)
  · simpa [goesOn, passes, head, Code.LoopHead.ofCount, hup] using htest .gt (.inr rfl)

theorem codeHead_later (hx : c.body.typeOf? l.counter = some .int) {v : Int64}
    (hg : g.locals.get? l.counter = some (.int v)) :
    l.codeHead m c false g = (do
      return if l.passes (v + l.step) (← eval c l.stop) then some false else none :
        Exec (Option Bool)) (g.put l.counter (v + l.step)) := by
  have hsum : eval c (.binary .add (.loc l.counter) (.int l.step)) g =
      .ok (.int (v + l.step)) g := by
    have hparts : eval c (.binary .add (.loc l.counter) (.int l.step)) = (do
        let a ← eval c (.loc l.counter)
        let w ← eval c (.int l.step)
        return Value.binary .add a w) := rfl
    rw [hparts, run_bind_ok (eval_loc hg)]
    rfl
  have hmove : l.move m c false g = .ok () (g.put l.counter (v + l.step)) :=
    (run_bind_ok hsum).trans (assign_int hx hg rfl)
  have htest := goesOn_eq (m := m) (c := c) (l := l) (g.get?_put l.counter (v + l.step))
  rw [codeHead, run_bind_ok hmove]
  simp only [Bind.bind, EStateM.bind, htest]
  cases eval c l.stop (g.put l.counter (v + l.step)) <;> rfl

theorem countHead_later (hx : c.body.typeOf? l.counter = some .int) {old : Value}
    (hg : g.locals.get? l.counter = some old) (stop next : Int64) :
    l.countHead c (.later stop next) g =
      .ok (if isBefore l.step stop next then some (.later stop (next + l.step)) else none)
        (g.put l.counter next) :=
  run_bind_ok (assign_int hx hg rfl)

/-- What keeps the two loops in step at a head. At the first one both fail alike, both end or both
go on in the same frame. At a later one the variable holds the value it had in the last turn, and the
bound, evaluated anew, leaves the frame as it is and compares with the next value as the bound that
was found at the start. -/
def Steady (m : Model) (o : List String) (b : Body) (s : Model) (l : CountLoop) :
    Moment → Frame → Prop
  | .entry, g => InStep (l.countHeads m o b) (l.codeHeads m o b s) .entry true g
  | .later stop next, g => g.locals.get? l.counter = some (.int (next - l.step)) ∧
      ∃ w, Ends (fun k => eval (inTree m o b k) l.stop) (g.put l.counter next)
        (.ok w, g.put l.counter next) ∧ l.passes next w = isBefore l.step stop next

/-- The two loops reach a head together, turn by turn, when started at `g₀`. -/
def Reaches (m : Model) (o : List String) (b : Body) (s : Model) (l : CountLoop) (g₀ : Frame)
    (i : Moment) (g : Frame) : Prop :=
  Together (l.countHeads m o b) (l.codeHeads m o b s) (l.bodies m o b) .entry true g₀ i i.isEntry g

def Holds (l : CountLoop) (g : Frame) : Prop := ∃ n, g.locals.get? l.counter = some (.int n)

variable {h : Frame}

theorem bodies_holds (hx : b.typeOf? l.counter = some .int) {flow : Flow} (hg : l.Holds g)
    (hb : Ends (l.bodies m o b) g (.ok flow, h)) : l.Holds h := by
  obtain ⟨k, hk⟩ := hb
  have hkeeps : Keeps (fun f => l.Holds f) (fun _ => True) (l.bodies m o b k) fun _ => True :=
    execAll_keeps_locals (Q := fun ls => ∃ n, ls.get? l.counter = some (.int n)) ?_
  · exact effect_keeps hkeeps hg hk
  · rintro x - t v ls ht ⟨n, hn⟩
    rw [Keyed.get?_insert]
    by_cases hname : x = l.counter
    · subst hname
      obtain rfl : t = .int := Option.some.inj (ht.symm.trans hx)
      exact ⟨_, if_pos rfl⟩
    · exact ⟨n, (if_neg hname).trans hn⟩

variable {i : Moment}

theorem countAt_some (hx : c.body.typeOf? l.counter = some .int) {stop next : Int64}
    (hi : effect (l.countAt c stop next g) = some (.ok (some i), h)) :
    i = .later stop (next + l.step) ∧ isBefore l.step stop next = true ∧ h = g.put l.counter next := by
  cases hg : g.locals.get? l.counter with
  | none =>
    simp [countAt, Bind.bind, EStateM.bind, assign_missing hg, effect] at hi
  | some old =>
    have heq := countHead_later (c := c) (l := l) hx hg stop next
    rw [countHead] at heq
    rw [heq] at hi
    split_ifs at hi with hbefore
    · cases hi
      exact ⟨rfl, hbefore, rfl⟩
    · cases hi

theorem countHeads_some (hx : b.typeOf? l.counter = some .int) {i' : Moment}
    (hi : Ends (fun k => l.countHeads m o b k i) g (.ok (some i'), h)) :
    i'.isEntry = false ∧ l.Holds h := by
  obtain ⟨k, hk⟩ := hi
  have hat {stop next : Int64} {f : Frame}
      (hf : effect (l.countAt (inTree m o b k) stop next f) = some (.ok (some i'), h)) :
      i'.isEntry = false ∧ l.Holds h := by
    obtain ⟨rfl, -, rfl⟩ := countAt_some (c := inTree m o b k) hx hf
    exact ⟨rfl, next, f.get?_put l.counter next⟩
  cases i with
  | later stop next => exact hat hk
  | entry =>
    obtain ⟨found, t, -, hr⟩ := effect_bind_eq_ok hk
    exact hat hr

theorem codeHeads_some {first j : Bool}
    (hj : Ends (fun k => l.codeHeads m o b s k first) g (.ok (some j), h)) : j = false := by
  obtain ⟨k, hk⟩ := hj
  obtain ⟨-, t, -, hrest⟩ := effect_bind_eq_ok hk
  obtain ⟨going, t, -, hr⟩ := effect_bind_eq_ok hrest
  cases going <;> cases hr
  rfl

theorem together_moments (hx : b.typeOf? l.counter = some .int) {g₀ : Frame} {j : Bool}
    (h : Together (l.countHeads m o b) (l.codeHeads m o b s) (l.bodies m o b) .entry true
      g₀ i j g) : j = i.isEntry ∧ (i.isEntry = false → l.Holds g) := by
  cases h with
  | start => exact ⟨rfl, fun h => by cases h⟩
  | turn _ hi hj hb =>
    obtain ⟨hentry, hholds⟩ := countHeads_some hx hi
    exact ⟨(codeHeads_some hj).trans hentry.symm, fun _ => bodies_holds hx hholds hb⟩

theorem codeHeads_later_iff (hx : b.typeOf? l.counter = some .int) {v : Int64}
    (hg : g.locals.get? l.counter = some (.int v)) {y : Option Bool} :
    Ends (fun k => l.codeHeads m o b s k false) g (.ok y, h) ↔
      ∃ w, Ends (fun k => eval (inTree m o b k) l.stop) (g.put l.counter (v + l.step)) (.ok w, h) ∧
        (if l.passes (v + l.step) w then some false else none) = y := by
  rw [← ends_map]
  have hhead (k : Nat) := codeHead_later (m := s) (c := inTree m o b k) hx hg
  exact exists_congr fun k => Eq.congr_left (congrArg effect (hhead k))

theorem eval_locals {e : Expr} {v : Value}
    (he : Ends (fun k => eval (inTree m o b k) e) g (.ok v, h)) : h.locals = g.locals := by
  obtain ⟨k, hk⟩ := he
  exact effect_keeps (eval_keeps_locals (inTree m o b k) (· = g.locals) e) rfl hk

theorem inStep_iff_steady (hx : b.typeOf? l.counter = some .int) (hg : l.Holds g)
    (stop next : Int64) :
    InStep (l.countHeads m o b) (l.codeHeads m o b s) (.later stop next) false g ↔
      l.Steady m o b s (.later stop next) g := by
  obtain ⟨v, hv⟩ := hg
  have hcount : Ends (fun k => l.countHeads m o b k (.later stop next)) g
      (.ok (if isBefore l.step stop next then some (.later stop (next + l.step)) else none),
        g.put l.counter next) :=
    ⟨0, congrArg effect (countHead_later (c := inTree m o b 0) hx hv stop next)⟩
  rw [inStep_iff_of_ends (steadies_countHeads.head _) hcount]
  constructor
  · rintro ⟨y, hy, hsome⟩
    obtain ⟨w, hw, rfl⟩ := (codeHeads_later_iff hx hv).1 hy
    have hlocals := congrArg (fun ls => Keyed.get? ls l.counter) (eval_locals hw)
    simp only [Frame.get?_put, Option.some.injEq, Value.int.injEq] at hlocals
    subst hlocals
    refine ⟨by rw [hv, Int64.add_sub_cancel], w, hw, ?_⟩
    cases hp : l.passes (v + l.step) w <;>
      cases hi : isBefore l.step stop (v + l.step) <;> simp_all
  · rintro ⟨hheld, w, hw, hpass⟩
    have hvalue : v + l.step = next := by
      have hsame : v = next - l.step := by simpa [hv] using hheld
      rw [hsame, Int64.sub_add_cancel]
    subst hvalue
    refine ⟨_, (codeHeads_later_iff hx hv).2 ⟨w, hw, rfl⟩, ?_⟩
    rw [hpass]
    split <;> rfl

/-- A counting loop of a method that has a function ends as its code does exactly if, at every head
that both reach together, they stay in step, or part and yet end alike. -/
theorem sameEnds_iff_steady {f : Method} {fn : Code.Function}
    (hok : Code.Function.ofMethod s f = .ok fn) (hl : l ∈ Stmt.loopsAll f.body.stmts) (m : Model)
    (o : List String) (g₀ : Frame) :
    SameEnds (fun k => exec (inTree m o f.body k) l.stmt)
        (fun k => l.generated s (inTree m o f.body k)) g₀ ↔
      ∀ i g, l.Reaches m o f.body s g₀ i g → l.Steady m o f.body s i g ∨
        Rejoins (l.countHeads m o f.body) (l.codeHeads m o f.body s) (l.bodies m o f.body) i
          i.isEntry g := by
  have hx := Code.counter_of_ofMethod hok hl
  have hinStep {i : Moment} {g : Frame} (ht : l.Reaches m o f.body s g₀ i g) :
      InStep (l.countHeads m o f.body) (l.codeHeads m o f.body s) i i.isEntry g ↔
        l.Steady m o f.body s i g := by
    cases i with
    | entry => exact Iff.rfl
    | later stop next => exact inStep_iff_steady hx ((together_moments hx ht).2 rfl) stop next
  have hcount : Steadies (l.countHeads m o f.body) (l.bodies m o f.body) := steadies_countHeads
  have hcode : Steadies (l.codeHeads m o f.body s) (l.bodies m o f.body) := steadies_codeHeads
  have hruns : SameEnds (fun k => exec (inTree m o f.body k) l.stmt)
        (fun k => l.generated s (inTree m o f.body k)) g₀ ↔
      SameEnds (runs (l.countHeads m o f.body) (l.bodies m o f.body) .entry)
        (runs (l.codeHeads m o f.body s) (l.bodies m o f.body) true) g₀ :=
    forall_congr' fun r => iff_congr ends_exec_iff ends_generated_iff
  rw [hruns, sameEnds_iff_inStep hcount hcode]
  constructor
  · intro h i g ht
    exact (h i i.isEntry g ht).imp_left (hinStep ht).1
  · intro h i j g ht
    obtain ⟨rfl, -⟩ := together_moments hx ht
    exact (h i g ht).imp_left (hinStep ht).2

end CountLoop

end ProcessModel
