import Mathlib.Algebra.Order.Ring.Int
import Mathlib.Data.Nat.Find
import ProcessModel.Proofs.FixedBounds

/-! How often a counting loop runs its body.

The values of a counter are `first`, `first + step` and so on. A loop runs its body for those that lie
before its bound, and leaves its variable at the first one that does not. That value need not be a
64-bit integer. -/

namespace ProcessModel

namespace Interpreter

section Trace

variable {ι : Type} {A : Nat → ι → Exec (Option ι)} {body : Nat → Exec Flow} {i i₀ : ι} {g g₀ : Frame}
  {entered : List Frame}

/-- A loop that starts before the head `i₀` in the frame `g₀` comes to stand before the head `i` in
the frame `g`. On its way it has run its body from each of the frames `entered`, in this order. -/
inductive Comes (A : Nat → ι → Exec (Option ι)) (body : Nat → Exec Flow) (i₀ : ι) (g₀ : Frame) :
    List Frame → ι → Frame → Prop
  | start : Comes A body i₀ g₀ [] i₀ g₀
  | turn {entered : List Frame} {i j : ι} {g h h' : Frame} : Comes A body i₀ g₀ entered i g →
    Ends (fun k => A k i) g (.ok (some j), h) → Ends body h (.ok .next, h') →
    Comes A body i₀ g₀ (entered ++ [h]) j h'

/-- Every turn that a loop starts comes to its end. -/
def Completes (A : Nat → ι → Exec (Option ι)) (body : Nat → Exec Flow) (i₀ : ι) (g₀ : Frame) :
    Prop :=
  ∀ entered i g j h, Comes A body i₀ g₀ entered i g → Ends (fun k => A k i) g (.ok (some j), h) →
    ∃ h', Ends body h (.ok .next, h')

theorem Comes.ends_iff (hA : Steadies A body) (h : Comes A body i₀ g₀ entered i g)
    {r : Except Error Flow × Frame} : Ends (runs A body i₀) g₀ r ↔ Ends (runs A body i) g r := by
  induction h with
  | start => exact Iff.rfl
  | turn _ hi hb ih => exact ih.trans (ends_runs_turn hA hi hb)

theorem completes_of_ends (hA : Steadies A body) {t : Frame}
    (h : Ends (runs A body i₀) g₀ (.ok .next, t)) : Completes A body i₀ g₀ := by
  intro entered i g j u hcomes hi
  obtain ⟨n, hn⟩ := (ends_runs_iff hA).1 ((hcomes.ends_iff hA).1 h)
  obtain ⟨next, u', hu, hrest⟩ := effect_bind_eq_ok hn
  cases Ends.unique (hA.head i) ⟨n, hu⟩ hi
  obtain ⟨flow, u', hflow, hrest⟩ := effect_bind_eq_ok hrest
  cases flow with
  | ret v => cases hrest
  | next => exact ⟨u', n, hflow⟩

end Trace

end Interpreter

namespace CountLoop

open Interpreter

section Values

/-- Whether an integer lies before `stop` in the direction of `step`. -/
def Precedes (step stop x : Int) : Prop := 0 < step ∧ x < stop ∨ step < 0 ∧ stop < x

def Fits (x : Int) : Prop := Int64.minValue.toInt ≤ x ∧ x ≤ Int64.maxValue.toInt

instance (x : Int) : Decidable (Fits x) := inferInstanceAs (Decidable (_ ∧ _))

theorem isBefore_iff (step stop n : Int64) :
    isBefore step stop n = true ↔ Precedes step.toInt stop.toInt n.toInt := by
  simp [isBefore, Precedes, Int64.lt_iff_toInt_lt]

theorem fits_toInt (n : Int64) : Fits n.toInt := ⟨n.minValue_le_toInt, n.toInt_le⟩

variable {first stop step : Int}

theorem Precedes.earlier {j k : Nat} (hjk : j ≤ k) (h : Precedes step stop (first + k * step)) :
    Precedes step stop (first + j * step) := by
  obtain ⟨i, rfl⟩ := Nat.exists_eq_add_of_le hjk
  rw [Int.natCast_add, Int.add_mul] at h
  rcases h with ⟨hup, h⟩ | ⟨hdown, h⟩
  · have hi : 0 ≤ i * step := Int.mul_nonneg (Int.natCast_nonneg i) hup.le
    exact .inl ⟨hup, by omega⟩
  · have hi : i * step ≤ 0 := Int.mul_nonpos_of_nonneg_of_nonpos (Int.natCast_nonneg i) hdown.le
    exact .inr ⟨hdown, by omega⟩

theorem exists_not_precedes (step first stop : Int) :
    ∃ n : Nat, ¬Precedes step stop (first + n * step) := by
  refine ⟨(stop - first).natAbs, ?_⟩
  have hn : 0 ≤ ((stop - first).natAbs : Int) := Int.natCast_nonneg _
  rintro (⟨hup, h⟩ | ⟨hdown, h⟩)
  · have hfar := Int.mul_le_mul_of_nonneg_left (show 1 ≤ step by omega) hn
    omega
  · have hfar := Int.mul_le_mul_of_nonneg_left (show step ≤ -1 by omega) hn
    omega

theorem exists_trips (step first stop : Int) :
    ∃ n : Nat, ∀ k : Nat, k < n ↔ Precedes step stop (first + k * step) := by
  classical
  refine ⟨Nat.find (exists_not_precedes step first stop), fun k => ?_⟩
  rw [Nat.lt_find_iff]
  constructor
  · intro h
    exact not_not.1 (h k le_rfl)
  · intro h j hj
    exact not_not.2 (h.earlier hj)

theorem Precedes.fits {first stop : Int64} {k : Nat}
    (h : Precedes step stop.toInt (first.toInt + k * step)) : Fits (first.toInt + k * step) := by
  obtain ⟨hfirst, hfirst'⟩ := fits_toInt first
  obtain ⟨hstop, hstop'⟩ := fits_toInt stop
  have hk := Int.natCast_nonneg k
  rcases h with ⟨hup, h⟩ | ⟨hdown, h⟩
  · have hup := Int.mul_nonneg hk (Int.le_of_lt hup)
    exact ⟨by omega, by omega⟩
  · have hdown := Int.mul_nonpos_of_nonneg_of_nonpos hk (Int.le_of_lt hdown)
    exact ⟨by omega, by omega⟩

theorem toInt_ofInt_of_fits {x : Int} (h : Fits x) : (Int64.ofInt x).toInt = x :=
  Int64.toInt_ofInt_of_le h.1 (Int.lt_of_le_of_lt h.2 (by decide))

/-- A counter that leaves the 64 bits behind a value before the bound comes back before it. -/
theorem precedes_of_not_fits {x : Int} {stop step : Int64}
    (h : Precedes step.toInt stop.toInt x) (hx : Fits x) (hnext : ¬Fits (x + step.toInt)) :
    Precedes step.toInt stop.toInt (Int64.ofInt (x + step.toInt)).toInt := by
  have hstop := fits_toInt stop
  have hstep := fits_toInt step
  rw [Int64.toInt_ofInt, Int.bmod_def]
  simp only [Fits, Int64.toInt_minValue, Int64.toInt_maxValue, Int64.size] at *
  rcases h with ⟨hup, h⟩ | ⟨hdown, h⟩
  · exact .inl ⟨hup, by omega⟩
  · exact .inr ⟨hdown, by omega⟩

end Values

variable (l : CountLoop)

def held (f : Frame) : Option Int := (f.locals.get? l.counter).bind fun v => v.toInt?.map Int64.toInt

theorem held_put (f : Frame) (n : Int64) : l.held (f.put l.counter n) = some n.toInt := by
  simp [held, Frame.get?_put, Value.toInt?]

def valueAt (first : Int64) (k : Nat) : Int := first.toInt + k * l.step.toInt

def values (first : Int64) (n : Nat) : List Int := (List.range n).map (l.valueAt first)

def counterAt (first : Int64) (k : Nat) : Int64 := .ofInt (l.valueAt first k)

theorem counterAt_zero (first : Int64) : l.counterAt first 0 = first := by
  simp [counterAt, valueAt]

theorem valueAt_succ (first : Int64) (k : Nat) :
    l.valueAt first (k + 1) = l.valueAt first k + l.step.toInt := by
  simp only [valueAt, Int.natCast_add, Int.add_mul]
  omega

theorem counterAt_succ (first : Int64) (k : Nat) :
    l.counterAt first (k + 1) = l.counterAt first k + l.step := by
  rw [counterAt, valueAt_succ, Int64.ofInt_add, Int64.ofInt_toInt, counterAt]

def momentAt (first last : Int64) : Nat → Moment
  | 0 => .entry
  | k + 1 => .later last (l.counterAt first (k + 1))

variable {l} {m : Model} {o : List String} {b : Body} {g g₀ h₀ : Frame} {first last : Int64}

theorem bounds_keeps_locals (c : Context) (l : CountLoop) (Q : Keyed Value → Prop) :
    Keeps (fun f => Q f.locals) (fun _ => True) (l.bounds c) fun _ => True := by
  have htolerates : Tolerates (fun _ => True) c := ⟨fun _ => trivial, trivial⟩
  refine keeps_bind (eval_keeps_locals c Q l.start) fun v _ => ?_
  refine keeps_bind (wholeNumber_keeps htolerates v) fun first _ => ?_
  refine keeps_bind (eval_keeps_locals c Q l.stop) fun w _ => ?_
  exact keeps_bind (wholeNumber_keeps htolerates w) fun last _ => keeps_pure trivial

theorem ends_head (hx : b.typeOf? l.counter = some .int)
    (hfound : Ends (fun k => l.bounds (inTree m o b k)) g₀ (.ok (first, last), h₀))
    (hg₀ : (g₀.locals.get? l.counter).isSome) {k : Nat}
    (hg : (k = 0 → g = g₀) ∧ (k ≠ 0 → l.Holds g)) :
    ∃ h : Frame, Ends (fun n => l.countHeads m o b n (l.momentAt first last k)) g
      (.ok (if isBefore l.step last (l.counterAt first k) then some (l.momentAt first last (k + 1))
        else none), h.put l.counter (l.counterAt first k)) := by
  have hat {h : Frame} (hh : (h.locals.get? l.counter).isSome) (n : Nat) :
      effect (l.countAt (inTree m o b n) last (l.counterAt first k) h) =
        some (.ok (if isBefore l.step last (l.counterAt first k)
          then some (l.momentAt first last (k + 1)) else none),
          h.put l.counter (l.counterAt first k)) := by
    obtain ⟨old, hold⟩ := Option.isSome_iff_exists.1 hh
    rw [momentAt, counterAt_succ]
    exact congrArg effect (countHead_later (c := inTree m o b n) hx hold last _)
  cases k with
  | succ k =>
    obtain ⟨n, hn⟩ := hg.2 (Nat.succ_ne_zero k)
    exact ⟨g, 0, hat (hn ▸ rfl) 0⟩
  | zero =>
    obtain rfl := hg.1 rfl
    obtain ⟨n, hn⟩ := hfound
    have hheld := effect_keeps (bounds_keeps_locals _ l fun ls => (ls.get? l.counter).isSome) hg₀ hn
    refine ⟨h₀, n, (congrArg effect (effect_bind_ok hn)).trans ?_⟩
    simpa only [counterAt_zero] using hat hheld n

/-- The body of a loop has been run from `g₀` with the loop variable at each of the values `xs`, in
this order, and the loop stands before the head `i` in the frame `g`. -/
def RunsFor (m : Model) (o : List String) (b : Body) (l : CountLoop) (g₀ : Frame) (xs : List Int)
    (i : Moment) (g : Frame) : Prop :=
  ∃ entered, Comes (l.countHeads m o b) (l.bodies m o b) .entry g₀ entered i g ∧
    entered.map l.held = xs.map some

/-- A loop runs its body for the values `xs` and ends, with its variable at `x`. -/
def CountsOut (m : Model) (o : List String) (b : Body) (l : CountLoop) (g₀ : Frame) (xs : List Int)
    (x : Int) : Prop :=
  ∃ i g t, l.RunsFor m o b g₀ xs i g ∧ Ends (fun k => l.countHeads m o b k i) g (.ok none, t) ∧
    l.held t = some x ∧ Ends (fun k => exec (inTree m o b k) l.stmt) g₀ (.ok .next, t)

/-- A loop runs its body for the values `xs` and goes on to another turn, with its variable at `x`. -/
def CountsOn (m : Model) (o : List String) (b : Body) (l : CountLoop) (g₀ : Frame) (xs : List Int)
    (x : Int) : Prop :=
  ∃ i j g t, l.RunsFor m o b g₀ xs i g ∧ Ends (fun k => l.countHeads m o b k i) g (.ok (some j), t) ∧
    l.held t = some x

/-- A loop runs its body for the values before its bound. -/
theorem runsFor_values (hx : b.typeOf? l.counter = some .int)
    (hfound : Ends (fun k => l.bounds (inTree m o b k)) g₀ (.ok (first, last), h₀))
    (hg₀ : (g₀.locals.get? l.counter).isSome)
    (hbody : Completes (l.countHeads m o b) (l.bodies m o b) .entry g₀) {n : Nat}
    (hn : ∀ k < n, Precedes l.step.toInt last.toInt (l.valueAt first k)) :
    ∃ g, l.RunsFor m o b g₀ (l.values first n) (l.momentAt first last n) g ∧
      (n = 0 → g = g₀) ∧ (n ≠ 0 → l.Holds g) := by
  induction n with
  | zero => exact ⟨g₀, ⟨[], .start, rfl⟩, fun _ => rfl, fun h => absurd rfl h⟩
  | succ n ih =>
    obtain ⟨g, ⟨entered, hcomes, hentered⟩, hg⟩ := ih fun k hk => hn k (Nat.lt_succ_of_lt hk)
    have hbefore := hn n (Nat.lt_succ_self n)
    have hvalue : (l.counterAt first n).toInt = l.valueAt first n := toInt_ofInt_of_fits hbefore.fits
    obtain ⟨h, hhead⟩ := ends_head hx hfound hg₀ hg
    rw [if_pos ((isBefore_iff _ _ _).2 (hvalue ▸ hbefore))] at hhead
    obtain ⟨h', hturn⟩ := hbody _ _ _ _ _ hcomes hhead
    refine ⟨h', ⟨_, hcomes.turn hhead hturn, ?_⟩, fun hzero => absurd hzero (Nat.succ_ne_zero n),
      fun _ => bodies_holds hx ⟨_, h.get?_put _ _⟩ hturn⟩
    simp [values, List.range_succ, hentered, held_put, hvalue]

theorem CountsOut.fits {xs : List Int} {x : Int} (h : l.CountsOut m o b g₀ xs x) : Fits x := by
  obtain ⟨i, g, t, -, -, hheld, -⟩ := h
  obtain ⟨v, -, hv⟩ := Option.bind_eq_some_iff.1 hheld
  obtain ⟨k, -, hk⟩ := Option.map_eq_some_iff.1 hv
  exact hk ▸ fits_toInt k

/-- A loop whose turns complete runs its body once for each value of its counter that lies before the
bound, in order and with its variable at the value. It then ends with its variable at the first value
that does not, if that has 64 bits. Otherwise the counter wraps around and the loop goes on to another
turn. -/
theorem loop_runs_for_values (hx : b.typeOf? l.counter = some .int)
    (hg₀ : (g₀.locals.get? l.counter).isSome)
    (hfound : Ends (fun k => l.bounds (inTree m o b k)) g₀ (.ok (first, last), h₀))
    (hbody : Completes (l.countHeads m o b) (l.bodies m o b) .entry g₀) :
    ∃ n : Nat, (∀ k, k < n ↔ Precedes l.step.toInt last.toInt (l.valueAt first k)) ∧
      (l.CountsOut m o b g₀ (l.values first n) (l.valueAt first n) ↔ Fits (l.valueAt first n)) ∧
      (¬Fits (l.valueAt first n) →
        l.CountsOn m o b g₀ (l.values first n) ((l.valueAt first n).bmod Int64.size)) := by
  obtain ⟨n, hn⟩ := exists_trips l.step.toInt first.toInt last.toInt
  obtain ⟨g, hruns, hg⟩ := runsFor_values hx hfound hg₀ hbody fun k hk => (hn k).1 hk
  obtain ⟨h, hhead⟩ := ends_head hx hfound hg₀ hg
  refine ⟨n, hn, ⟨?_, fun hfits => ?_⟩, fun hfits => ?_⟩
  · exact CountsOut.fits
  · have hvalue : (l.counterAt first n).toInt = l.valueAt first n := toInt_ofInt_of_fits hfits
    have hbefore : ¬Precedes l.step.toInt last.toInt (l.valueAt first n) := fun hbefore =>
      Nat.lt_irrefl n ((hn n).2 hbefore)
    rw [if_neg (mt (isBefore_iff _ _ _).1 (hvalue ▸ hbefore))] at hhead
    refine ⟨_, g, _, hruns, hhead, by rw [held_put, hvalue], ends_exec_iff.2 ?_⟩
    obtain ⟨entered, hcomes, -⟩ := hruns
    exact (hcomes.ends_iff steadies_countHeads).2 (.of_head steadies_countHeads hhead ⟨0, rfl⟩)
  · have hbefore : Precedes l.step.toInt last.toInt (l.counterAt first n).toInt := by
      cases n with
      | zero => exact absurd (fits_toInt first) (by simpa [valueAt] using hfits)
      | succ n =>
        have hlast := (hn n).1 (Nat.lt_succ_self n)
        rw [counterAt, valueAt_succ]
        exact precedes_of_not_fits hlast hlast.fits (valueAt_succ l first n ▸ hfits)
    rw [if_pos ((isBefore_iff _ _ _).2 hbefore)] at hhead
    exact ⟨_, _, g, _, hruns, hhead, by rw [held_put, counterAt, Int64.toInt_ofInt]⟩

def tallyOver (range : String) : Definition where
  name := "tally"
  sources := [⟨"tally.mdl", "def calc(model):\n    for i in range(" ++ range ++ "):\n" ++
    "        model.sequences.fluxes.q = model.sequences.fluxes.q + 1.0\n"⟩]
  groups := [{ kind := .fluxes, vars := [{ name := "q" }] }]
  methods := { run := ["calc"] }

def tallyFrame (range : String) (f : Method) : Frame :=
  ⟨initialLocals f.body [], Store.ofDefinition (tallyOver range)⟩

def isDone : Option (Except Error Flow × Frame) → Bool
  | some (.ok .next, _) => true
  | _ => false

theorem tally_completes (range : String) (first last step : Int64)
    (hrun : ((Model.compile {} (tallyOver range)).toOption.bind fun m =>
      m.methods.head?.bind fun f => (Stmt.loopsAll f.body.stmts).head?.filter fun l =>
        f.body.typeOf? l.counter = some .int ∧ l.step = step ∧ literal? l.start = some first ∧
          literal? l.stop = some last ∧
          ((tallyFrame range f).locals.get? l.counter).isSome ∧
          isDone (effect (exec (inTree m [] f.body 9) l.stmt (tallyFrame range f)))).isSome) :
    ∃ m f, ∃ l : CountLoop, Model.compile {} (tallyOver range) = .ok m ∧ f ∈ m.methods ∧
      l ∈ Stmt.loopsAll f.body.stmts ∧ f.body.typeOf? l.counter = some .int ∧ l.step = step ∧
      ((tallyFrame range f).locals.get? l.counter).isSome ∧
      Ends (fun k => l.bounds (inTree m [] f.body k)) (tallyFrame range f)
        (.ok (first, last), tallyFrame range f) ∧
      Completes (l.countHeads m [] f.body) (l.bodies m [] f.body) .entry (tallyFrame range f) := by
  obtain ⟨l, h⟩ := Option.isSome_iff_exists.1 hrun
  obtain ⟨m, hm, h⟩ := Option.bind_eq_some_iff.1 h
  obtain ⟨f, hf, h⟩ := Option.bind_eq_some_iff.1 h
  obtain ⟨hl, hall⟩ := Option.filter_eq_some_iff.1 h
  obtain ⟨htype, hstep, hfirst, hlast, hheld, hdone⟩ := of_decide_eq_true hall
  refine ⟨m, f, l, toOption_eq_some hm, List.mem_of_mem_head? hf, List.mem_of_mem_head? hl, htype,
    hstep, hheld, bounds_literal hfirst hlast _, ?_⟩
  unfold isDone at hdone
  split at hdone
  · rename_i t hends
    exact completes_of_ends steadies_countHeads (ends_exec_iff.1 ⟨9, hends⟩)
  · cases hdone

theorem tally_runs_for_values :
    ∃ m f, ∃ l : CountLoop, Model.compile {} (tallyOver "7, 0, -3") = .ok m ∧ f ∈ m.methods ∧
      l ∈ Stmt.loopsAll f.body.stmts ∧
      l.CountsOut m [] f.body (tallyFrame "7, 0, -3" f) [7, 4, 1] (-2) := by
  obtain ⟨m, f, l, hm, hf, hl, htype, hstep, hheld, hfound, hcompletes⟩ :=
    tally_completes "7, 0, -3" 7 0 (-3) (by decide +kernel)
  refine ⟨m, f, l, hm, hf, hl, ?_⟩
  obtain ⟨n, hn, hout, -⟩ := loop_runs_for_values htype hheld hfound hcompletes
  have hthree : n = 3 := by
    have hlast := hn 2
    have hbehind := hn 3
    simp only [Precedes, valueAt, hstep, Int64.reduceToInt] at hlast hbehind
    omega
  subst hthree
  have hvalues : l.values 7 3 = [7, 4, 1] ∧ l.valueAt 7 3 = -2 := by
    unfold values valueAt
    simp only [hstep]
    decide
  rw [hvalues.1, hvalues.2] at hout
  exact hout.2 (by decide)

/-- A tally whose counter leaves the 64 bits does not stop at the first value behind its bound. -/
theorem tally_runs_past_values :
    ∃ m f, ∃ l : CountLoop, Model.compile {} (tallyOver "1, 2, 9223372036854775807") = .ok m ∧
      f ∈ m.methods ∧ l ∈ Stmt.loopsAll f.body.stmts ∧
      f.body.typeOf? l.counter = some .int ∧
      Ends (fun k => l.bounds (inTree m [] f.body k)) (tallyFrame "1, 2, 9223372036854775807" f)
        (.ok (1, 2), tallyFrame "1, 2, 9223372036854775807" f) ∧
      Completes (l.countHeads m [] f.body) (l.bodies m [] f.body) .entry
        (tallyFrame "1, 2, 9223372036854775807" f) ∧
      ∀ n : Nat, (∀ k, k < n ↔ Precedes l.step.toInt 2 (l.valueAt 1 k)) →
        ¬l.CountsOut m [] f.body (tallyFrame "1, 2, 9223372036854775807" f) (l.values 1 n)
          (l.valueAt 1 n) := by
  obtain ⟨m, f, l, hm, hf, hl, htype, hstep, -, hfound, hcompletes⟩ :=
    tally_completes "1, 2, 9223372036854775807" 1 2 9223372036854775807 (by decide +kernel)
  refine ⟨m, f, l, hm, hf, hl, htype, hfound, hcompletes, fun n hn hout => ?_⟩
  have hone : n = 1 := by
    have hlast := hn 0
    have hbehind := hn 1
    simp only [Precedes, valueAt, hstep, Int64.reduceToInt] at hlast hbehind
    omega
  subst hone
  have hfits := hout.fits
  simp only [valueAt, hstep] at hfits
  exact absurd hfits (by decide)

end CountLoop

end ProcessModel
