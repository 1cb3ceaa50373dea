import Mathlib.Tactic.Common
import ProcessModel.Tree.Stmt

/-! Occurrences of expressions in a body.

Equal expressions may stand at several places of a body. In the order of places a part comes before
those in it, and all parts in it before the next one. The walk of a body meets its expressions in
this order, and the search for call statements finds the places of their expressions. -/

namespace ProcessModel

/-- The expressions directly in an expression, from first to last. -/
def Expr.children : Expr → List Expr
  | .var _ indices => indices
  | .unary _ e => [e]
  | .binary _ l r => [l, r]
  | .call _ args => args
  | _ => []

/-- A part of a body that has a place of its own. -/
inductive Subtree
  | expr (e : Expr)
  | stmt (s : Stmt)
  | clause (c : Clause)

namespace Subtree

/-- The parts directly below a part, from first to last. -/
def below : Subtree → List Subtree
  | .expr e => e.children.map expr
  | .stmt (.assign _ target value) => target.indices.map expr ++ [.expr value]
  | .stmt (.count _ _ start stop _ body) => .expr start :: .expr stop :: body.map stmt
  | .stmt (.choose _ clauses otherwise) => clauses.map clause ++ otherwise.map stmt
  | .stmt (.loop _ test body) => .expr test :: body.map stmt
  | .stmt (.ret _ value) => value.toList.map expr
  | .stmt .pass => []
  | .stmt (.call _ e) => [.expr e]
  | .clause ⟨test, body⟩ => .expr test :: body.map stmt

/-- The part at a place of a list of parts that stand below `above`, with what it stands directly
below. -/
def find? : Option Subtree → List Subtree → List Nat → Option (Option Subtree × Subtree)
  | _, _, [] => none
  | above, ts, [i] => ts[i]?.map fun t => (above, t)
  | _, ts, i :: j :: place => ts[i]?.bind fun t => find? (some t) t.below (j :: place)

section Places

variable {above : Option Subtree} {t : Subtree} {ts us : List Subtree} {place : List Nat}
  {r : Option Subtree × Subtree}

/-- A place behind `k` more parts. -/
def shift (k : Nat) : List Nat → List Nat
  | [] => []
  | i :: place => (k + i) :: place

theorem shift_zero (place : List Nat) : shift 0 place = place := by
  cases place <;> simp [shift]

theorem shift_shift (k n : Nat) (place : List Nat) : shift k (shift n place) = shift (k + n) place := by
  cases place <;> simp [shift, Nat.add_assoc]

theorem find?_cons (above : Option Subtree) (ts : List Subtree) (i : Nat) (place : List Nat) :
    find? above ts (i :: place) = ts[i]?.bind fun t => find? above [t] (0 :: place) := by
  cases place with
  | nil => cases h : ts[i]? <;> simp [find?, h]
  | cons j place => cases h : ts[i]? <;> simp [find?, h]

theorem exists_lt_of_find? (h : find? above ts place = some r) :
    ∃ i rest, place = i :: rest ∧ i < ts.length := by
  cases place with
  | nil => cases h
  | cons i rest =>
    rw [find?_cons] at h
    obtain ⟨t, ht, -⟩ := Option.bind_eq_some_iff.1 h
    exact ⟨i, rest, rfl, (List.getElem?_eq_some_iff.1 ht).1⟩

theorem find?_append_iff : find? above (ts ++ us) place = some r ↔
    find? above ts place = some r ∨
      ∃ later, place = shift ts.length later ∧ find? above us later = some r := by
  constructor
  · intro h
    cases place with
    | nil => cases h
    | cons i rest =>
      rcases Nat.lt_or_ge i ts.length with hi | hi
      · rw [find?_cons, List.getElem?_append_left hi, ← find?_cons] at h
        exact .inl h
      · rw [find?_cons, List.getElem?_append_right hi, ← find?_cons] at h
        exact .inr ⟨(i - ts.length) :: rest, by rw [shift, Nat.add_sub_cancel' hi], h⟩
  · rintro (h | ⟨later, rfl, h⟩)
    · obtain ⟨i, rest, rfl, hi⟩ := exists_lt_of_find? h
      rwa [find?_cons, List.getElem?_append_left hi, ← find?_cons]
    · obtain ⟨i, rest, rfl, -⟩ := exists_lt_of_find? h
      rwa [shift, find?_cons, List.getElem?_append_right (Nat.le_add_right _ _),
        Nat.add_sub_cancel_left, ← find?_cons]

theorem find?_singleton_iff : find? above [t] place = some r ↔
    (place = [0] ∧ r = (above, t)) ∨
      ∃ rest, place = 0 :: rest ∧ find? (some t) t.below rest = some r := by
  rcases place with - | ⟨i, - | ⟨j, rest⟩⟩
  · simp [find?]
  · cases i <;> simp [find?, eq_comm]
  · cases i <;> simp [find?]

end Places

/-- The occurrences of chosen expressions, by what they stand directly below and by themselves, in the
order of their places. The parts `ts` stand below `above`, which is at `base`, and the first of them
has the number `k` there. -/
structure Listed (chosen : Option Subtree → Expr → Prop) (above : Option Subtree)
    (ts : List Subtree) (base : List Nat) (k : Nat) (os : List Occurrence) : Prop where
  increasing : os.Pairwise (·.place < ·.place)
  mem_iff : ∀ o, o ∈ os ↔ ∃ place parent, o.place = base ++ shift k place ∧
    find? above ts place = some (parent, .expr o.expr) ∧ chosen parent o.expr

section Listing

variable {chosen : Option Subtree → Expr → Prop} {above : Option Subtree} {t : Subtree}
  {ts us : List Subtree} {base : List Nat} {k : Nat} {os os' : List Occurrence}

theorem Listed.place_eq (h : Listed chosen above ts base k os) {o : Occurrence} (ho : o ∈ os) :
    ∃ i rest, o.place = base ++ (k + i) :: rest ∧ i < ts.length := by
  obtain ⟨place, parent, hplace, hfind, -⟩ := (h.mem_iff o).1 ho
  obtain ⟨i, rest, rfl, hi⟩ := exists_lt_of_find? hfind
  exact ⟨i, rest, hplace, hi⟩

/-- Parts without chosen expressions. -/
theorem listed_nil (hnone : ∀ place parent e, find? above ts place = some (parent, .expr e) →
    ¬chosen parent e) : Listed chosen above ts base k [] := by
  refine ⟨.nil, fun o => iff_of_false List.not_mem_nil ?_⟩
  rintro ⟨place, parent, -, hfind, hchosen⟩
  exact hnone place parent o.expr hfind hchosen

theorem listed_noParts : Listed chosen above [] base k [] := by
  refine listed_nil fun place parent e h => ?_
  obtain ⟨i, rest, -, hi⟩ := exists_lt_of_find? h
  exact absurd hi (Nat.not_lt_zero i)

theorem Listed.append (h : Listed chosen above ts base k os)
    (h' : Listed chosen above us base (k + ts.length) os') :
    Listed chosen above (ts ++ us) base k (os ++ os') := by
  refine ⟨List.pairwise_append.2 ⟨h.increasing, h'.increasing, ?_⟩, fun o => ?_⟩
  · intro o ho o' ho'
    obtain ⟨i, rest, hplace, hi⟩ := h.place_eq ho
    obtain ⟨j, rest', hplace', -⟩ := h'.place_eq ho'
    rw [hplace, hplace']
    exact List.append_left_lt (List.cons_lt_cons_iff.2 (.inl (by omega)))
  · simp only [List.mem_append, h.mem_iff, h'.mem_iff, find?_append_iff]
    constructor
    · rintro (⟨place, parent, hplace, hfind, hchosen⟩ | ⟨place, parent, hplace, hfind, hchosen⟩)
      · exact ⟨place, parent, hplace, .inl hfind, hchosen⟩
      · refine ⟨shift ts.length place, parent, ?_, .inr ⟨place, rfl, hfind⟩, hchosen⟩
        rw [hplace, shift_shift]
    · rintro ⟨place, parent, hplace, hfind | ⟨later, rfl, hfind⟩, hchosen⟩
      · exact .inl ⟨place, parent, hplace, hfind, hchosen⟩
      · exact .inr ⟨later, parent, by rw [hplace, shift_shift], hfind, hchosen⟩

theorem place_below (base : List Nat) (k : Nat) (rest : List Nat) :
    base ++ shift k (0 :: rest) = base ++ [k] ++ shift 0 rest := by
  rw [shift_zero]
  simp [shift]

/-- A part that is no chosen expression. -/
theorem Listed.skip (ht : ∀ e, t = .expr e → ¬chosen above e)
    (h : Listed chosen (some t) t.below (base ++ [k]) 0 os) : Listed chosen above [t] base k os := by
  refine ⟨h.increasing, fun o => ?_⟩
  simp only [h.mem_iff, find?_singleton_iff]
  constructor
  · rintro ⟨rest, parent, hplace, hfind, hchosen⟩
    exact ⟨0 :: rest, parent, by rw [hplace, place_below], .inr ⟨rest, rfl, hfind⟩, hchosen⟩
  · rintro ⟨place, parent, hplace, ⟨rfl, hpart⟩ | ⟨rest, rfl, hfind⟩, hchosen⟩
    · cases hpart
      exact absurd hchosen (ht o.expr rfl)
    · exact ⟨rest, parent, by rw [hplace, place_below], hfind, hchosen⟩

/-- A chosen expression comes before those in it. -/
theorem Listed.choose {e : Expr} (he : chosen above e)
    (h : Listed chosen (some (.expr e)) (e.children.map expr) (base ++ [k]) 0 os) :
    Listed chosen above [.expr e] base k (⟨base ++ [k], e⟩ :: os) := by
  refine ⟨List.pairwise_cons.2 ⟨fun o ho => ?_, h.increasing⟩, fun o => ?_⟩
  · obtain ⟨i, rest, hplace, -⟩ := h.place_eq ho
    rw [hplace, List.append_assoc]
    exact List.append_left_lt (List.cons_lt_cons_iff.2 (.inr ⟨rfl, List.nil_lt_cons _ _⟩))
  · simp only [List.mem_cons, h.mem_iff, find?_singleton_iff]
    constructor
    · rintro (rfl | ⟨rest, parent, hplace, hfind, hchosen⟩)
      · exact ⟨[0], above, rfl, .inl ⟨rfl, rfl⟩, he⟩
      · exact ⟨0 :: rest, parent, by rw [hplace, place_below], .inr ⟨rest, rfl, hfind⟩, hchosen⟩
    · rintro ⟨place, parent, hplace, ⟨rfl, hpart⟩ | ⟨rest, rfl, hfind⟩, hchosen⟩
      · obtain ⟨place, e'⟩ := o
        cases hpart
        exact .inl (congrArg (Occurrence.mk · _) hplace)
      · exact .inr ⟨rest, parent, by rw [hplace, place_below], hfind, hchosen⟩

end Listing

/-- What stands in expressions stands directly below `above`, as these do, or below an expression. -/
theorem parent_of_find? {above : Option Subtree} {es : List Expr} {place : List Nat}
    {parent : Option Subtree} {t : Subtree} (h : find? above (es.map expr) place = some (parent, t)) :
    parent = above ∨ ∃ e, parent = some (.expr e) := by
  induction place generalizing above es with
  | nil => cases h
  | cons i place ih =>
    cases place with
    | nil =>
      obtain ⟨u, -, hu⟩ := Option.map_eq_some_iff.1 h
      exact .inl (congrArg Prod.fst hu).symm
    | cons j place =>
      obtain ⟨u, hu, hfind⟩ := Option.bind_eq_some_iff.1 h
      rw [List.getElem?_map] at hu
      obtain ⟨e, -, rfl⟩ := Option.map_eq_some_iff.1 hu
      rcases ih hfind with hparent | hparent
      · exact .inr ⟨e, hparent⟩
      · exact .inr hparent

end Subtree

open Subtree

/-! ### Walks -/

namespace Expr

attribute [local simp] walk walkAll children

theorem walk_eq (e : Expr) (place : List Nat) :
    e.walk place = ⟨place, e⟩ :: walkAll place 0 e.children := by
  cases e <;> simp

variable {above : Option Subtree} {base : List Nat} {k : Nat}

theorem listed_node {e : Expr} (h : Listed (fun _ _ => True) (some (.expr e)) (e.children.map .expr)
    (base ++ [k]) 0 (walkAll (base ++ [k]) 0 e.children)) :
    Listed (fun _ _ => True) above [.expr e] base k (e.walk (base ++ [k])) := by
  rw [walk_eq]
  exact .choose trivial h

theorem listed_walkNone :
    Listed (fun _ _ => True) above (List.map .expr []) base k (walkAll base k []) := by
  simpa using listed_noParts

theorem listed_walkCons {e : Expr} {es : List Expr}
    (h : Listed (fun _ _ => True) above [.expr e] base k (e.walk (base ++ [k])))
    (hrest : Listed (fun _ _ => True) above (es.map .expr) base (k + 1) (walkAll base (k + 1) es)) :
    Listed (fun _ _ => True) above ((e :: es).map .expr) base k (walkAll base k (e :: es)) := by
  rw [walkAll]
  exact h.append hrest

mutual

theorem listed_walk : ∀ (e : Expr) {above : Option Subtree} {base : List Nat} {k : Nat},
    Listed (fun _ _ => True) above [.expr e] base k (e.walk (base ++ [k]))
  | .int _, _, _, _ | .float _ _, _, _, _ | .bool _, _, _, _ | .loc _, _, _, _ =>
    listed_node listed_walkNone
  | .var _ indices, _, _, _ => listed_node (listed_walkAll indices)
  | .unary _ e, _, _, _ => listed_node (listed_walkCons (listed_walk e) listed_walkNone)
  | .binary _ l r, _, _, _ =>
    listed_node (listed_walkCons (listed_walk l) (listed_walkCons (listed_walk r) listed_walkNone))
  | .call _ args, _, _, _ => listed_node (listed_walkAll args)

theorem listed_walkAll : ∀ (es : List Expr) {above : Option Subtree} {base : List Nat} {k : Nat},
    Listed (fun _ _ => True) above (es.map .expr) base k (walkAll base k es)
  | [], _, _, _ => listed_walkNone
  | e :: es, _, _, _ => listed_walkCons (listed_walk e) (listed_walkAll es)

end

end Expr

namespace Stmt

/-- An expression is the whole of a call statement. -/
def IsWhole (parent : Option Subtree) (e : Expr) : Prop := ∃ line, parent = some (.stmt (.call line e))

/-- Functions that collect the occurrences of chosen expressions along the statements of a body. In
the expressions of a statement that is no call they do so by `g`. -/
structure Collects (chosen : Option Subtree → Expr → Prop)
    (g : List Nat → Nat → List Expr → List Occurrence) (f : List Nat → Stmt → List Occurrence)
    (fAll : List Nat → Nat → List Stmt → List Occurrence)
    (fClauses : List Nat → Nat → List Clause → List Occurrence) : Prop where
  exprs : ∀ es above base k, (∀ line e, above ≠ some (.stmt (.call line e))) →
    Listed chosen above (es.map .expr) base k (g base k es)
  assign : ∀ place line target value,
    f place (.assign line target value) = g place 0 (target.indices ++ [value])
  count : ∀ place line counter start stop step body,
    f place (.count line counter start stop step body) = g place 0 [start, stop] ++ fAll place 2 body
  choose : ∀ place line clauses otherwise, f place (.choose line clauses otherwise) =
    fClauses place 0 clauses ++ fAll place clauses.length otherwise
  loop : ∀ place line test body,
    f place (.loop line test body) = g place 0 [test] ++ fAll place 1 body
  ret : ∀ place line value, f place (.ret line value) = g place 0 value.toList
  pass : ∀ place, f place .pass = []
  call : ∀ line e base, Listed chosen (some (.stmt (.call line e))) [.expr e] base 0
    (f base (.call line e))
  nil : ∀ place i, fAll place i [] = []
  cons : ∀ place i s ss, fAll place i (s :: ss) = f (place ++ [i]) s ++ fAll place (i + 1) ss
  noClause : ∀ place i, fClauses place i [] = []
  clause : ∀ place i test body cs, fClauses place i (⟨test, body⟩ :: cs) =
    g (place ++ [i]) 0 [test] ++ fAll (place ++ [i]) 1 body ++ fClauses place (i + 1) cs

variable {chosen : Option Subtree → Expr → Prop} {g : List Nat → Nat → List Expr → List Occurrence}
  {f : List Nat → Stmt → List Occurrence} {fAll : List Nat → Nat → List Stmt → List Occurrence}
  {fClauses : List Nat → Nat → List Clause → List Occurrence}

mutual

theorem listed_stmt (hf : Collects chosen g f fAll fClauses) :
    ∀ (s : Stmt) {above : Option Subtree} {base : List Nat} {k : Nat},
      Listed chosen above [.stmt s] base k (f (base ++ [k]) s)
  | .assign line target value, _, _, _ => by
    rw [hf.assign]
    refine .skip (by simp) ?_
    have h := hf.exprs (target.indices ++ [value])
    rw [List.map_append] at h
    exact h _ _ 0 (by simp)
  | .count line counter start stop step body, _, _, _ => by
    rw [hf.count]
    exact .skip (by simp) ((hf.exprs [start, stop] _ _ 0 (by simp)).append (listed_stmts hf body))
  | .choose line clauses otherwise, _, _, _ => by
    rw [hf.choose]
    refine .skip (by simp) ((listed_clauses hf clauses).append ?_)
    simpa using listed_stmts hf otherwise
  | .loop line test body, _, _, _ => by
    rw [hf.loop]
    exact .skip (by simp) ((hf.exprs [test] _ _ 0 (by simp)).append (listed_stmts hf body))
  | .ret line value, _, _, _ => by
    rw [hf.ret]
    exact .skip (by simp) (hf.exprs value.toList _ _ 0 (by simp))
  | .pass, _, _, _ => by
    rw [hf.pass]
    exact .skip (by simp) listed_noParts
  | .call line e, _, _, _ => .skip (by simp) (hf.call line e _)

theorem listed_stmts (hf : Collects chosen g f fAll fClauses) :
    ∀ (ss : List Stmt) {above : Option Subtree} {base : List Nat} {k : Nat},
      Listed chosen above (ss.map .stmt) base k (fAll base k ss)
  | [], _, _, _ => by
    rw [hf.nil]
    exact listed_noParts
  | s :: ss, _, _, _ => by
    rw [hf.cons]
    exact (listed_stmt hf s).append (listed_stmts hf ss)

theorem listed_clauses (hf : Collects chosen g f fAll fClauses) :
    ∀ (cs : List Clause) {above : Option Subtree} {base : List Nat} {k : Nat},
      Listed chosen above (cs.map .clause) base k (fClauses base k cs)
  | [], _, _, _ => by
    rw [hf.noClause]
    exact listed_noParts
  | ⟨test, body⟩ :: cs, _, _, _ => by
    rw [hf.clause]
    refine (Listed.skip (by simp) ?_).append (listed_clauses hf cs)
    exact (hf.exprs [test] _ _ 0 (by simp)).append (listed_stmts hf body)

end

theorem collects_walk : Collects (fun _ _ => True) Expr.walkAll walk walkAll clauseWalk where
  exprs es _ _ _ _ := Expr.listed_walkAll es
  assign := by simp [walk]
  count := by simp [walk]
  choose := by simp [walk]
  loop := by simp [walk]
  ret := by simp [walk]
  pass := by simp [walk]
  call _ e _ := by
    rw [walk]
    exact Expr.listed_walkAll [e]
  nil := by simp [walkAll]
  cons := by simp [walkAll]
  noClause := by simp [clauseWalk]
  clause := by simp [clauseWalk]

/-- No expression in another one is the whole of a statement. -/
theorem listed_notWhole {es : List Expr} {above : Option Subtree} {base : List Nat} {k : Nat}
    (habove : ∀ line e, above ≠ some (.stmt (.call line e))) :
    Listed IsWhole above (es.map .expr) base k [] := by
  refine listed_nil ?_
  rintro place parent e hfind ⟨line, rfl⟩
  rcases parent_of_find? hfind with hparent | ⟨e', hparent⟩
  · exact habove line e hparent.symm
  · cases hparent

theorem collects_statementCalls : Collects IsWhole (fun _ _ _ => []) statementCalls
    statementCallsAll clauseStatementCalls where
  exprs _ _ _ _ habove := listed_notWhole habove
  assign := by simp [statementCalls]
  count := by simp [statementCalls]
  choose := by simp [statementCalls]
  loop := by simp [statementCalls]
  ret := by simp [statementCalls]
  pass := by simp [statementCalls]
  call line e _ := by
    rw [statementCalls]
    exact .choose ⟨line, rfl⟩ (listed_notWhole (by simp))
  nil := by simp [statementCallsAll]
  cons := by simp [statementCallsAll]
  noClause := by simp [clauseStatementCalls]
  clause := by simp [clauseStatementCalls]

/-- The chosen expressions of a body, each as often as it stands in it, in the order of the places
and with the place of each. -/
structure Lists (chosen : Option Subtree → Expr → Prop) (ss : List Stmt) (os : List Occurrence) :
    Prop where
  increasing : os.Pairwise (·.place < ·.place)
  mem_iff : ∀ o, o ∈ os ↔ ∃ parent,
    find? none (ss.map .stmt) o.place = some (parent, .expr o.expr) ∧ chosen parent o.expr

theorem Collects.lists (hf : Collects chosen g f fAll fClauses) (ss : List Stmt) :
    Lists chosen ss (fAll [] 0 ss) := by
  have h : Listed chosen none (ss.map .stmt) [] 0 (fAll [] 0 ss) := listed_stmts hf ss
  refine ⟨h.increasing, fun o => ?_⟩
  simp only [h.mem_iff, List.nil_append, shift_zero, exists_eq_left', exists_and_left]

end Stmt

namespace Body

open Stmt

/-- The walk of a body meets every occurrence of an expression once, in the order of their places, and
the search for call statements finds those that are the whole of one. The calls of methods whose
results are used are the other occurrences of such calls, in the same order and each of them once. -/
theorem valueCalls_lists_occurrences (b : Body) :
    Lists (fun _ _ => True) b.stmts b.occurrences ∧
      Lists IsWhole b.stmts (statementCallsAll [] 0 b.stmts) ∧
      Lists (fun parent e => e.isMethodCall = true ∧ ¬IsWhole parent e) b.stmts b.valueCalls := by
  have hall : Lists _ b.stmts b.occurrences := collects_walk.lists b.stmts
  have hwhole := collects_statementCalls.lists b.stmts
  refine ⟨hall, hwhole, (hall.increasing.filter _).filter _, fun o => ?_⟩
  simp only [valueCalls, methodCalls, List.mem_filter, hall.mem_iff, and_true, Bool.not_eq_true',
    List.any_eq_false, beq_iff_eq]
  constructor
  · rintro ⟨⟨⟨parent, hfind⟩, hcall⟩, hother⟩
    refine ⟨parent, hfind, hcall, fun hparent => ?_⟩
    exact hother o ((hwhole.mem_iff o).2 ⟨parent, hfind, hparent⟩) rfl
  · rintro ⟨parent, hfind, hcall, hparent⟩
    refine ⟨⟨⟨parent, hfind⟩, hcall⟩, fun s hs hplace => hparent ?_⟩
    -- What stands at a place is one expression, so that of the statement is the call itself.
    obtain ⟨parent', hfind', hs⟩ := (hwhole.mem_iff s).1 hs
    rw [hplace, hfind] at hfind'
    cases s
    cases hfind'
    exact hs

-- The statements `f()`, `f(f())` and `x = f()`: the argument and the value are listed, though they
-- are equal to the first statement.
example : (Body.valueCalls
    { name := "calc", kind := .run, doc := "", args := [], locals := []
      stmts := [.call 1 (.call (.method [] "f") []),
        .call 2 (.call (.method [] "f") [.call (.method [] "f") []]),
        .assign 3 (.loc "x") (.call (.method [] "f") [])]
      returnsValue := false }) =
    [⟨[1, 0, 0], .call (.method [] "f") []⟩, ⟨[2, 0], .call (.method [] "f") []⟩] := rfl

end Body

end ProcessModel
