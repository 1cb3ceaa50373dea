import ProcessModel.Proofs.LineForms

/-! Blocks and indentation.

The outline of a body lists its statements and clauses in the order in which they start, each with
the position of the line that heads its block. -/

namespace ProcessModel

open Script

/-- What a line of a body becomes: a statement, or a further clause of a choice. -/
inductive Node
  | stmt (s : Stmt)
  | elif (test : Expr)
  | otherwise

/-- A line of an outline, with the position of the header of the block it stands in. -/
structure Entry where
  node : Node
  header : Option Nat

namespace Stmt

def line? : Stmt → Option Nat
  | .assign line .. | .count line .. | .choose line .. | .loop line .. => some line
  | .ret line _ | .call line _ => some line
  | .pass => none

def isPlain : Stmt → Bool
  | .count .. | .choose .. | .loop .. => false
  | _ => true

/-- Entries from position `at_` on and others right behind them. -/
def behind (at_ : Nat) (first : List Entry) (next : Nat → List Entry) : List Entry :=
  first ++ next (at_ + first.length)

theorem behind_cons (at_ : Nat) (e : Entry) (first : List Entry) (next : Nat → List Entry) :
    behind at_ (e :: first) next = e :: behind (at_ + 1) first next := by
  simp only [behind, List.cons_append, List.length_cons, Nat.add_assoc, Nat.add_comm 1]

theorem behind_behind (at_ : Nat) (first : List Entry) (next last : Nat → List Entry) :
    behind at_ (behind at_ first next) last = behind at_ first fun p => behind p (next p) last := by
  simp only [behind, List.append_assoc, List.length_append, Nat.add_assoc]

mutual

/-- The outline of a statement at position `at_`, in the block below position `header`. The first
clause of a choice has no line but that of the statement. -/
def outline (header : Option Nat) (at_ : Nat) : Stmt → List Entry
  | .count line counter start stop step body =>
    ⟨.stmt (.count line counter start stop step body), header⟩ ::
      outlineAll (some at_) (at_ + 1) body
  | .loop line test body =>
    ⟨.stmt (.loop line test body), header⟩ :: outlineAll (some at_) (at_ + 1) body
  | .choose line clauses otherwise =>
    ⟨.stmt (.choose line clauses otherwise), header⟩ ::
      behind (at_ + 1) (outlineClauses header at_ clauses).tail fun p =>
        if otherwise.isEmpty then []
        else ⟨.otherwise, header⟩ :: outlineAll (some p) (p + 1) otherwise
  | s => [⟨.stmt s, header⟩]

def outlineAll (header : Option Nat) (at_ : Nat) : List Stmt → List Entry
  | [] => []
  | s :: rest => behind at_ (outline header at_ s) fun p => outlineAll header p rest

def outlineClauses (header : Option Nat) (at_ : Nat) : List Clause → List Entry
  | [] => []
  | ⟨test, body⟩ :: rest =>
    ⟨.elif test, header⟩ ::
      behind (at_ + 1) (outlineAll (some at_) (at_ + 1) body) fun p => outlineClauses header p rest

end

def outlineRest (header : Option Nat) (at_ : Nat) (clauses : List Clause) (otherwise : List Stmt) :
    List Entry :=
  behind at_ (outlineClauses header at_ clauses) fun p =>
    if otherwise.isEmpty then []
    else ⟨.otherwise, header⟩ :: outlineAll (some p) (p + 1) otherwise

variable {header : Option Nat} {at_ : Nat}

theorem outline_of_isPlain {s : Stmt} (h : s.isPlain = true) :
    outline header at_ s = [⟨.stmt s, header⟩] := by
  cases s <;> first | rfl | cases h

theorem outline_choose (line : Nat) (e : Expr) (body : List Stmt) (clauses : List Clause)
    (otherwise : List Stmt) :
    outline header at_ (.choose line (⟨e, body⟩ :: clauses) otherwise) =
      ⟨.stmt (.choose line (⟨e, body⟩ :: clauses) otherwise), header⟩ ::
        behind (at_ + 1) (outlineAll (some at_) (at_ + 1) body) fun p =>
          outlineRest header p clauses otherwise := by
  simp only [outline, outlineClauses, outlineRest, List.tail_cons, behind_behind]

theorem outlineRest_cons (e : Expr) (body : List Stmt) (clauses : List Clause)
    (otherwise : List Stmt) :
    outlineRest header at_ (⟨e, body⟩ :: clauses) otherwise =
      ⟨.elif e, header⟩ :: behind (at_ + 1) (outlineAll (some at_) (at_ + 1) body) fun p =>
        outlineRest header p clauses otherwise := by
  simp only [outlineClauses, outlineRest, behind_cons, behind_behind]

theorem outlineRest_otherwise {body : List Stmt} (h : body ≠ []) :
    outlineRest header at_ [] body =
      ⟨.otherwise, header⟩ :: outlineAll (some at_) (at_ + 1) body := by
  simp [outlineRest, outlineClauses, behind, h]

theorem length_outline_pos (header : Option Nat) (at_ : Nat) (s : Stmt) :
    0 < (outline header at_ s).length := by
  cases s <;> simp [outline]

end Stmt

/-- Whether a line is what a statement or clause is read from. -/
def Node.ReadFrom (names : Names) (l : LogicalLine) : Node → Prop
  | .stmt (.choose _ [] _) => False
  | .stmt (.choose _ (⟨e, _⟩ :: _) _) => l.StartsWith "if" ∧ Stmt.test names l = .ok e
  | .stmt (.count _ counter start stop step _) =>
    l.StartsWith "for" ∧ Stmt.countHead names l.tokens = .ok ⟨counter, start, stop, step⟩
  | .stmt (.loop _ e _) => l.StartsWith "while" ∧ Stmt.test names l = .ok e
  | .stmt s => Stmt.simple names l = .ok s
  | .elif e => l.StartsWith "elif" ∧ Stmt.test names l = .ok e
  | .otherwise => l.tokens = [.ofName "else", .ofOp ":"]

def Node.line? : Node → Option Nat
  | .stmt s => s.line?
  | .elif _ | .otherwise => none

/-- The position of the nearest of the lines `before` that is indented less than `indent`. The lines
stand nearest first, and the last one at position zero. -/
def nearest (indent : Nat) : List LogicalLine → Option Nat
  | [] => none
  | l :: before => if l.indent < indent then some before.length else nearest indent before

variable {ls : List LogicalLine}

theorem nearest_append {indent : Nat} (h : ∀ l ∈ ls, indent ≤ l.indent)
    (before : List LogicalLine) : nearest indent (ls ++ before) = nearest indent before := by
  induction ls with
  | nil => rfl
  | cons l ls ih =>
    have hl : ¬ l.indent < indent := Nat.not_lt.2 (h l List.mem_cons_self)
    rw [List.cons_append, nearest, if_neg hl]
    exact ih fun u hu => h u (List.mem_cons_of_mem _ hu)

theorem nearest_self (l : LogicalLine) (before : List LogicalLine) :
    nearest l.indent (l :: before) = nearest l.indent before := by
  rw [nearest, if_neg (Nat.lt_irrefl _)]

/-- Lines that come after the lines `before`, nearest first, have become the entries. -/
inductive Follows (names : Names) : List LogicalLine → List LogicalLine → List Entry → Prop
  | nil {before : List LogicalLine} : Follows names before [] []
  | cons {before ls : List LogicalLine} {l : LogicalLine} {node : Node} {entries : List Entry}
      (hnode : node.ReadFrom names l) (hline : ∀ n ∈ node.line?, n = l.line)
      (h : Follows names (l :: before) ls entries) :
      Follows names before (l :: ls) (⟨node, nearest l.indent before⟩ :: entries)

namespace Follows

variable {names : Names} {before us vs : List LogicalLine} {es fs : List Entry}

theorem append (h : Follows names before us es) (h' : Follows names (us.reverse ++ before) vs fs) :
    Follows names before (us ++ vs) (es ++ fs) := by
  induction h with
  | nil => exact h'
  | cons hnode hline h ih => exact .cons hnode hline (ih (by simpa using h'))

theorem length_eq (h : Follows names before us es) : us.length = es.length := by
  induction h with
  | nil => rfl
  | cons hnode hline h ih => simp [ih]

end Follows

/-- The lines before the remaining ones are indented by `indent` at least, and have become the
entries. -/
def Consumes (names : Names) (indent : Nat) (before ls rest : List LogicalLine)
    (entries : List Entry) : Prop :=
  ∃ used, ls = used ++ rest ∧ (∀ l ∈ used, indent ≤ l.indent) ∧ Follows names before used entries

namespace Consumes

variable {names : Names} {indent : Nat} {before ls mid rest : List LogicalLine}
  {es fs : List Entry}

theorem nothing : Consumes names indent before ls ls [] :=
  ⟨[], rfl, fun _ h => absurd h List.not_mem_nil, .nil⟩

theorem mono {deeper : Nat} (h : Consumes names deeper before ls rest es) (hle : indent ≤ deeper) :
    Consumes names indent before ls rest es := by
  obtain ⟨used, hls, hused, hentries⟩ := h
  exact ⟨used, hls, fun l hl => hle.trans (hused l hl), hentries⟩

theorem length_eq (h : Consumes names indent before ls rest es) :
    ls.length = es.length + rest.length := by
  obtain ⟨used, rfl, -, hentries⟩ := h
  rw [List.length_append, hentries.length_eq]

theorem cons {l : LogicalLine} {node : Node} (hnode : node.ReadFrom names l)
    (hline : ∀ n ∈ node.line?, n = l.line) (hl : indent ≤ l.indent)
    (h : Consumes names indent (l :: before) ls rest es) :
    Consumes names indent before (l :: ls) rest (⟨node, nearest l.indent before⟩ :: es) := by
  obtain ⟨used, rfl, hused, hentries⟩ := h
  refine ⟨l :: used, rfl, fun u hu => ?_, .cons hnode hline hentries⟩
  rcases List.mem_cons.1 hu with rfl | hu
  · exact hl
  · exact hused u hu

/-- What follows is read with the same header in sight, since no line between was indented less. -/
theorem behind {next : Nat → List Entry} (h : Consumes names indent before ls mid es)
    (h' : ∀ before', nearest indent before' = nearest indent before →
      Consumes names indent before' mid rest (next before'.length)) :
    Consumes names indent before ls rest (Stmt.behind before.length es next) := by
  obtain ⟨used, rfl, hused, hentries⟩ := h
  have hsight : nearest indent (used.reverse ++ before) = nearest indent before :=
    nearest_append (fun l hl => hused l (List.mem_reverse.1 hl)) before
  obtain ⟨used', rfl, hused', hentries'⟩ := h' _ hsight
  refine ⟨used ++ used', by rw [List.append_assoc], fun l hl => ?_, hentries.append ?_⟩
  · exact (List.mem_append.1 hl).elim (hused l) (hused' l)
  · rwa [List.length_append, List.length_reverse, hentries.length_eq, Nat.add_comm] at hentries'

end Consumes

namespace Stmt

variable {names : Names} {n : Nat}

theorem onLine_yields {α : Type} {P : α → Prop} (line : Nat) {r : Except Construct α}
    (h : Yields P r) : Yields P (onLine line r) := by
  cases r with
  | error c => exact yields_error _
  | ok a => exact yields_ok (h a rfl)

theorem simple_plain (names : Names) (l : LogicalLine) :
    Yields (fun s => s.isPlain = true ∧ ∀ n ∈ s.line?, n = l.line) (simple names l) := by
  intro s hs
  obtain ⟨_, _, -, -, rfl⟩ | ⟨-, rfl⟩ | ⟨-, rfl⟩ | ⟨_, _, _, _, -, -, -, rfl⟩ | ⟨_, -, rfl⟩ :=
    simple_eq_ok hs <;> exact ⟨rfl, by simp [line?]⟩

variable {l : LogicalLine}

theorem readFrom_of_simple {s : Stmt} (h : simple names l = .ok s) :
    (Node.stmt s).ReadFrom names l := by
  obtain ⟨hplain, -⟩ := simple_plain names l s h
  cases s <;> first | exact h | cases hplain

/-- What the functions of the reader have consumed at depth `n`, which is enough for the lines they
are given. -/
structure ReaderConsumes (names : Names) (n : Nat) : Prop where
  block : ∀ indent ls, 3 * ls.length + 1 ≤ n → Yields (fun r =>
    (∀ l ∈ ls.head?, l.indent = indent → r.1 ≠ []) ∧ ∀ before,
      Consumes names indent before ls r.2 (outlineAll (nearest indent before) before.length r.1))
    (block names n indent ls)
  statement : ∀ l rest, 3 * rest.length + 3 ≤ n → Yields (fun r => ∀ before,
    Consumes names l.indent before (l :: rest) r.2
      (outline (nearest l.indent before) before.length r.1)) (statement names n l rest)
  suite : ∀ l ls, 3 * ls.length + 2 ≤ n → Yields (fun r => r.1 ≠ [] ∧ ∀ before,
    Consumes names (l.indent + 1) (l :: before) ls r.2
      (outlineAll (some before.length) (before.length + 1) r.1)) (suite names n l ls)
  clauses : ∀ indent ls, 3 * ls.length + 1 ≤ n → Yields (fun r => ∀ before,
    Consumes names indent before ls r.2.2
      (outlineRest (nearest indent before) before.length r.1 r.2.1)) (clauses names n indent ls)

theorem block_consumes (h : ReaderConsumes names n) (indent : Nat) (ls : List LogicalLine)
    (hn : 3 * ls.length + 1 ≤ n + 1) : Yields (fun r =>
      (∀ l ∈ ls.head?, l.indent = indent → r.1 ≠ []) ∧ ∀ before,
        Consumes names indent before ls r.2 (outlineAll (nearest indent before) before.length r.1))
      (block names (n + 1) indent ls) := by
  cases ls with
  | nil => exact yields_ok ⟨by simp, fun _ => .nothing⟩
  | cons l rest =>
    simp only [List.length_cons] at hn
    simp only [Stmt.block]
    split_ifs with hless hmore
    · refine yields_ok ⟨fun l' hl' heq => ?_, fun _ => .nothing⟩
      cases hl'
      omega
    · exact yields_error _
    · obtain rfl : l.indent = indent := by omega
      refine yields_bind (h.statement l rest (by omega)) fun r hr => ?_
      have hlength := (hr []).length_eq
      have hpos := length_outline_pos (nearest l.indent []) 0 r.1
      simp only [List.length_cons, List.length_nil] at hlength
      refine yields_bind (h.block l.indent r.2 (by omega)) fun q hq => yields_pure ?_
      refine ⟨by simp, fun before => ?_⟩
      rw [outlineAll]
      exact (hr before).behind fun before' hsight => hsight ▸ hq.2 before'

theorem suite_consumes (h : ReaderConsumes names n) (l : LogicalLine) (ls : List LogicalLine)
    (hn : 3 * ls.length + 2 ≤ n + 1) : Yields (fun r => r.1 ≠ [] ∧ ∀ before,
      Consumes names (l.indent + 1) (l :: before) ls r.2
        (outlineAll (some before.length) (before.length + 1) r.1)) (suite names (n + 1) l ls) := by
  cases ls with
  | nil => exact yields_error _
  | cons next rest =>
    simp only [Stmt.suite]
    split_ifs with hdeeper
    · intro r hr
      obtain ⟨hne, hconsumes⟩ := h.block next.indent (next :: rest) (by omega) r hr
      refine ⟨hne next rfl rfl, fun before => ?_⟩
      have hheader : nearest next.indent (l :: before) = some before.length := if_pos hdeeper
      exact (hheader ▸ hconsumes (l :: before)).mono hdeeper
    · exact yields_error _

section Header

variable {l : LogicalLine} {node : Node} {before ls mid rest : List LogicalLine} {body : List Stmt}
  (hnode : node.ReadFrom names l) (hline : ∀ n ∈ node.line?, n = l.line)
include hnode hline

theorem consumes_header (hbody : Consumes names (l.indent + 1) (l :: before) ls rest
      (outlineAll (some before.length) (before.length + 1) body)) :
    Consumes names l.indent before (l :: ls) rest (⟨node, nearest l.indent before⟩ ::
      outlineAll (some before.length) (before.length + 1) body) :=
  .cons hnode hline le_rfl (hbody.mono (Nat.le_succ _))

theorem consumes_clause {clauses : List Clause} {otherwise : List Stmt}
    (hbody : Consumes names (l.indent + 1) (l :: before) ls mid
      (outlineAll (some before.length) (before.length + 1) body))
    (hrest : ∀ before, Consumes names l.indent before mid rest
      (outlineRest (nearest l.indent before) before.length clauses otherwise)) :
    Consumes names l.indent before (l :: ls) rest (⟨node, nearest l.indent before⟩ ::
      behind (before.length + 1) (outlineAll (some before.length) (before.length + 1) body) fun p =>
        outlineRest (nearest l.indent before) p clauses otherwise) := by
  refine .cons hnode hline le_rfl ?_
  refine Consumes.behind (hbody.mono (Nat.le_succ _)) fun before' hsight => ?_
  rw [nearest_self] at hsight
  exact hsight ▸ hrest before'

end Header

theorem tokens_of_otherwise (hword : (l.tokens.head?.any fun t => t.isName "else") = true)
    (hform : (decide (l.tokens.length = 2) && l.isHeader) = true) :
    l.tokens = [.ofName "else", .ofOp ":"] := by
  obtain ⟨indent, line, tokens⟩ := l
  obtain ⟨hlength, hcolon⟩ := Bool.and_eq_true_iff.1 hform
  obtain ⟨first, last, rfl⟩ := List.length_eq_two.1 (of_decide_eq_true hlength)
  obtain rfl : first = .ofName "else" := Token.isName_iff.1 hword
  obtain rfl : last = .ofOp ":" := Token.isOp_iff.1 hcolon
  rfl

theorem clauses_consumes (h : ReaderConsumes names n) (indent : Nat) (ls : List LogicalLine)
    (hn : 3 * ls.length + 1 ≤ n + 1) : Yields (fun r => ∀ before,
      Consumes names indent before ls r.2.2
        (outlineRest (nearest indent before) before.length r.1 r.2.1))
      (clauses names (n + 1) indent ls) := by
  have hnone : ∀ {ls before : List LogicalLine},
      Consumes names indent before ls ls
        (outlineRest (nearest indent before) before.length [] []) :=
    .nothing
  cases ls with
  | nil => exact yields_ok fun _ => hnone
  | cons l rest =>
    simp only [List.length_cons] at hn
    simp only [Stmt.clauses]
    split_ifs with hindent helif helse hform
    · exact yields_ok fun _ => hnone
    · obtain rfl : l.indent = indent := not_not.1 hindent
      refine yields_bind (onLine_yields l.line fun _ he => he) fun e he => ?_
      refine yields_bind (h.suite l rest (by omega)) fun r hr => ?_
      have hlength := (hr.2 []).length_eq
      refine yields_bind (h.clauses l.indent r.2 (by omega)) fun q hq => ?_
      refine yields_pure fun before => ?_
      have hnode : (Node.elif e).ReadFrom names l := ⟨LogicalLine.startsWith_of_any helif, he⟩
      rw [outlineRest_cons]
      exact consumes_clause hnode (by simp [Node.line?]) (hr.2 before) hq
    · obtain rfl : l.indent = indent := not_not.1 hindent
      refine yields_bind (h.suite l rest (by omega)) fun r hr => yields_pure fun before => ?_
      have hnode : Node.otherwise.ReadFrom names l := tokens_of_otherwise helse hform
      rw [outlineRest_otherwise hr.1]
      exact consumes_header hnode (by simp [Node.line?]) (hr.2 before)
    · exact yields_error _
    · exact yields_ok fun _ => hnone

theorem startsWith_of_filter {kind : TokenKind} {word : String}
    (h : (l.tokens.head?.filter fun t => t.kind = .name) = some ⟨kind, word⟩) :
    l.StartsWith word := by
  obtain ⟨hhead, hkind⟩ := Option.filter_eq_some_iff.1 h
  obtain rfl : kind = .name := of_decide_eq_true hkind
  exact hhead

theorem statement_consumes (h : ReaderConsumes names n) (l : LogicalLine) (rest : List LogicalLine)
    (hn : 3 * rest.length + 3 ≤ n + 1) : Yields (fun r => ∀ before,
      Consumes names l.indent before (l :: rest) r.2
        (outline (nearest l.indent before) before.length r.1))
      (statement names (n + 1) l rest) := by
  simp only [Stmt.statement]
  split
  · rename_i hword
    refine yields_bind (onLine_yields l.line fun _ he => he) fun e he => ?_
    refine yields_bind (h.suite l rest (by omega)) fun r hr => ?_
    have hlength := (hr.2 []).length_eq
    refine yields_bind (h.clauses l.indent r.2 (by omega)) fun q hq => yields_pure fun before => ?_
    have hnode : (Node.stmt (.choose l.line (⟨e, r.1⟩ :: q.1) q.2.1)).ReadFrom names l :=
      ⟨startsWith_of_filter hword, he⟩
    rw [outline_choose]
    exact consumes_clause hnode (by simp [Node.line?, line?]) (hr.2 before) hq
  · rename_i hword
    refine yields_bind (onLine_yields l.line fun _ he => he) fun head hhead => ?_
    refine yields_bind (h.suite l rest (by omega)) fun r hr => yields_pure fun before => ?_
    have hnode :
        (Node.stmt (.count l.line head.counter head.start head.stop head.step r.1)).ReadFrom names l :=
      ⟨startsWith_of_filter hword, hhead⟩
    exact consumes_header hnode (by simp [Node.line?, line?]) (hr.2 before)
  · rename_i hword
    refine yields_bind (onLine_yields l.line fun _ he => he) fun e he => ?_
    refine yields_bind (h.suite l rest (by omega)) fun r hr => yields_pure fun before => ?_
    have hnode : (Node.stmt (.loop l.line e r.1)).ReadFrom names l :=
      ⟨startsWith_of_filter hword, he⟩
    exact consumes_header hnode (by simp [Node.line?, line?]) (hr.2 before)
  · exact yields_error _
  · exact yields_error _
  · refine yields_bind (onLine_yields l.line fun _ hs => hs) fun s hs => ?_
    refine yields_pure fun before => ?_
    obtain ⟨hplain, hline⟩ := simple_plain names l s hs
    rw [outline_of_isPlain hplain]
    exact .cons (readFrom_of_simple hs) hline le_rfl .nothing

theorem reader_consumes (names : Names) (n : Nat) : ReaderConsumes names n := by
  induction n with
  | zero => exact ⟨by simp, by simp, by simp, by simp⟩
  | succ n ih =>
    exact ⟨block_consumes ih, statement_consumes ih, suite_consumes ih, clauses_consumes ih⟩

theorem ofLines_follows {ls : List LogicalLine} {ss : List Stmt}
    (h : ofLines names ls = .ok ss) : Follows names [] ls (outlineAll none 0 ss) := by
  obtain ⟨⟨ss', rest⟩, hblock, h⟩ := bind_eq_ok h
  cases rest with
  | cons l rest => cases h
  | nil =>
    cases h
    obtain ⟨-, hconsumes⟩ := (reader_consumes names _).block _ ls
      (by simp only [parseDepth]; omega) _ hblock
    obtain ⟨used, hused, -, hfollows⟩ := hconsumes []
    rw [List.append_nil] at hused
    exact hused ▸ hfollows

end Stmt

/-- Whether the expressions of a line that makes a statement or a clause, and its target, have
certain properties. -/
def Node.Own (A : Expr → Prop) (B : Target → Prop) : Node → Prop
  | .stmt (.count _ counter start stop _ _) =>
    B (.loc counter) ∧ Expr.All A start ∧ Expr.All A stop
  | .stmt (.choose _ [] _) | .otherwise => True
  | .stmt (.choose _ (⟨e, _⟩ :: _) _) | .stmt (.loop _ e _) | .elif e => Expr.All A e
  | .stmt s => s.All A B

theorem Follows.readFrom {names : Names} {before : List LogicalLine} {es : List Entry}
    (h : Follows names before ls es) : ∀ e ∈ es, ∃ l ∈ ls, e.node.ReadFrom names l := by
  induction h with
  | nil => simp
  | @cons before ls l node entries hnode hline h ih =>
    rw [List.forall_mem_cons]
    refine ⟨⟨l, List.mem_cons_self, hnode⟩, fun e he => ?_⟩
    obtain ⟨l', hl', hread⟩ := ih e he
    exact ⟨l', List.mem_cons_of_mem _ hl', hread⟩

namespace Stmt

variable {A : Expr → Prop} {B : Target → Prop}

theorem forall_behind {P : Entry → Prop} {at_ : Nat} {first : List Entry} {next : Nat → List Entry} :
    (∀ e ∈ behind at_ first next, P e) ↔
      (∀ e ∈ first, P e) ∧ ∀ e ∈ next (at_ + first.length), P e := by
  simp only [behind, List.mem_append, or_imp, forall_and]

mutual

theorem all_of_outline {header : Option Nat} {at_ : Nat} : ∀ s : Stmt,
    (∀ e ∈ outline header at_ s, e.node.Own A B) → s.All A B
  | .count line x start stop step body, h => by
    rw [outline, List.forall_mem_cons] at h
    obtain ⟨⟨hx, hstart, hstop⟩, hbody⟩ := h
    exact (all_count ..).2 ⟨hx, hstart, hstop, allIn_of_outlineAll body hbody⟩
  | .loop line test body, h => by
    rw [outline, List.forall_mem_cons] at h
    exact (all_loop ..).2 ⟨h.1, allIn_of_outlineAll body h.2⟩
  | .choose line clauses otherwise, h => by
    rw [outline, List.forall_mem_cons, forall_behind] at h
    obtain ⟨hnode, hclauses, hotherwise⟩ := h
    have hall : ∀ e ∈ outlineClauses header at_ clauses, e.node.Own A B := by
      cases clauses with
      | nil => exact fun e he => absurd he List.not_mem_nil
      | cons c clauses =>
        obtain ⟨test, body⟩ := c
        exact List.forall_mem_cons.2 ⟨hnode, hclauses⟩
    refine (all_choose ..).2 ⟨allClauses_of_outlineClauses clauses hall, ?_⟩
    split_ifs at hotherwise with hempty
    · rw [List.isEmpty_iff.1 hempty]
      exact allIn_nil
    · exact allIn_of_outlineAll otherwise (List.forall_mem_cons.1 hotherwise).2
  | .assign line target value, h => h _ (List.mem_singleton_self _)
  | .ret line value, h => h _ (List.mem_singleton_self _)
  | .pass, h => h _ (List.mem_singleton_self _)
  | .call line e, h => h _ (List.mem_singleton_self _)

theorem allIn_of_outlineAll {header : Option Nat} {at_ : Nat} : ∀ ss : List Stmt,
    (∀ e ∈ outlineAll header at_ ss, e.node.Own A B) → AllIn A B ss
  | [], _ => allIn_nil
  | s :: rest, h => by
    rw [outlineAll, forall_behind] at h
    exact (allIn_cons ..).2 ⟨all_of_outline s h.1, allIn_of_outlineAll rest h.2⟩

theorem allClauses_of_outlineClauses {header : Option Nat} {at_ : Nat} : ∀ cs : List Clause,
    (∀ e ∈ outlineClauses header at_ cs, e.node.Own A B) → AllClauses A B cs
  | [], _ => allClauses_nil
  | ⟨test, body⟩ :: rest, h => by
    rw [outlineClauses, List.forall_mem_cons, forall_behind] at h
    exact (allClauses_cons ..).2
      ⟨h.1, allIn_of_outlineAll body h.2.1, allClauses_of_outlineClauses rest h.2.2⟩

end

section Parts

variable {names : Names} {l : LogicalLine}
  (hpart : ∀ part e, Amid part l.tokens → Expr.ofTokens names part = .ok e → Expr.All A e)
  (hloc : ∀ x, names.isLocal x → B (.loc x))
  (hvar : ∀ path indices, A (.var path indices) → B (.var path indices))
include hpart hloc hvar

theorem all_of_simple {s : Stmt} (h : simple names l = .ok s) : s.All A B := by
  obtain ⟨ts, e, hts, he, rfl⟩ | ⟨-, rfl⟩ | ⟨-, rfl⟩ | ⟨ts, us, t, e, hts, ht, he, rfl⟩ |
    ⟨e, he, rfl⟩ := simple_eq_ok h
  · exact (all_ret_some ..).2 (hpart ts e (hts ▸ Amid.refl.behind rfl []) he)
  · exact all_ret_none _
  · exact all_pass
  · have hvalue := hpart us e (hts ▸ Amid.refl.behind rfl ts) he
    obtain ⟨x, -, hx, rfl⟩ | ⟨path, indices, hpath, rfl⟩ := target_eq_ok ht
    · exact (all_assign ..).2 ⟨hloc x hx, Expr.allIn_nil, hvalue⟩
    · have htarget := (Expr.all_var ..).1 (hpart ts _ (hts ▸ Amid.refl.append _) hpath)
      exact (all_assign ..).2 ⟨hvar _ _ htarget.1, htarget.2, hvalue⟩
  · exact (all_callStmt ..).2 (hpart _ e .refl he)

/-- What holds of the expressions that can be read from the parts of a line holds of those that its
statement or clause has. -/
theorem own_of_readFrom (hzero : A (.int 0)) {node : Node} (h : node.ReadFrom names l) :
    node.Own A B := by
  have htest : ∀ {word e}, l.StartsWith word → test names l = .ok e → Expr.All A e := by
    intro word e hword he
    obtain ⟨ts, hts, he⟩ := test_eq_ok hword he
    exact hpart ts e (hts ▸ (Amid.refl.append _).behind rfl []) he
  have hsimple : ∀ {s}, simple names l = .ok s → s.All A B := all_of_simple hpart hloc hvar
  cases node with
  | elif e => exact htest h.1 h.2
  | otherwise => trivial
  | stmt s =>
    cases s with
    | count line x start stop step body =>
      obtain ⟨hx, f, inner, hts, -, hstart, stopPart, hstopPart, hstop⟩ := countHead_eq_ok h.2
      have hinner : ∀ part ∈ splitArgs (inner.length + 1) inner, Amid part l.tokens := by
        intro part hmem
        rw [hts]
        exact ((amid_of_splitArgs hmem).append _).behind rfl [f, .ofName x, .ofName "in",
          .ofName "range"]
      refine ⟨hloc x hx, ?_, hpart _ _ (hinner _ hstopPart) hstop⟩
      obtain rfl | ⟨part, hmem, hstart⟩ := hstart
      · exact (Expr.all_int _).2 hzero
      · exact hpart _ _ (hinner _ hmem) hstart
    | choose line clauses otherwise =>
      cases clauses with
      | nil => trivial
      | cons c clauses =>
        obtain ⟨e, body⟩ := c
        exact htest h.1 h.2
    | loop line e body => exact htest h.1 h.2
    | assign line target value => exact hsimple h
    | ret line value => exact hsimple h
    | pass => exact hsimple h
    | call line e => exact hsimple h

end Parts

theorem ofLines_all {names : Names} {ls : List LogicalLine} {ss : List Stmt}
    (h : ofLines names ls = .ok ss)
    (hpart : ∀ l ∈ ls, ∀ part e, Amid part l.tokens → Expr.ofTokens names part = .ok e →
      Expr.All A e)
    (hloc : ∀ x, names.isLocal x → B (.loc x))
    (hvar : ∀ path indices, A (.var path indices) → B (.var path indices)) (hzero : A (.int 0)) :
    AllIn A B ss := by
  have hown : ∀ e ∈ outlineAll none 0 ss, e.node.Own A B := by
    intro e he
    obtain ⟨l, hl, hread⟩ := (ofLines_follows h).readFrom e he
    exact own_of_readFrom (hpart l hl) hloc hvar hzero hread
  exact allIn_of_outlineAll ss hown

end Stmt

def indentAt (ls : List LogicalLine) (i : Nat) : Nat := (ls[i]?.map (·.indent)).getD 0

/-- Whether a position is that of the nearest line before position `i` that is indented less than
`indent`. There is none if no line before is. -/
def IsNearest (ls : List LogicalLine) (i indent : Nat) : Option Nat → Prop
  | none => ∀ j < i, indent ≤ indentAt ls j
  | some j => j < i ∧ indentAt ls j < indent ∧ ∀ k, j < k → k < i → indent ≤ indentAt ls k

theorem isNearest_nearest (ls : List LogicalLine) (indent : Nat) {i : Nat} (hi : i ≤ ls.length) :
    IsNearest ls i indent (nearest indent (ls.take i).reverse) := by
  induction i with
  | zero => exact fun j hj => absurd hj (Nat.not_lt_zero j)
  | succ i ih =>
    have hat : ls[i]? = some ls[i] := List.getElem?_eq_getElem hi
    have hindent : indentAt ls i = ls[i].indent := by simp [indentAt, hat]
    have htake : (ls.take (i + 1)).reverse = ls[i] :: (ls.take i).reverse := by
      rw [List.take_add_one, hat, List.reverse_append]
      rfl
    rw [htake, nearest, List.length_reverse, List.length_take_of_le (Nat.le_of_succ_le hi)]
    split_ifs with hless
    · exact ⟨Nat.lt_succ_self i, hindent ▸ hless, fun k hk hki => by omega⟩
    · have hlast : ∀ k, k < i + 1 → ¬ k < i → indent ≤ indentAt ls k := by
        intro k hk hki
        obtain rfl : k = i := by omega
        omega
      have hearlier := ih (Nat.le_of_succ_le hi)
      cases hheader : nearest indent (ls.take i).reverse with
      | none =>
        rw [hheader] at hearlier
        intro j hj
        by_cases hji : j < i
        · exact hearlier j hji
        · exact hlast j hj hji
      | some j =>
        rw [hheader] at hearlier
        obtain ⟨hj, hless, hbetween⟩ := hearlier
        refine ⟨Nat.lt_succ_of_lt hj, hless, fun k hk hki => ?_⟩
        by_cases hji : k < i
        · exact hbetween k hk hji
        · exact hlast k hki hji

theorem Follows.at {names : Names} {before : List LogicalLine} {es : List Entry}
    (h : Follows names before ls es) {i : Nat} {entry : Entry} {l : LogicalLine}
    (hentry : es[i]? = some entry) (hl : ls[i]? = some l) :
    entry.node.ReadFrom names l ∧ (∀ n ∈ entry.node.line?, n = l.line) ∧
      entry.header = nearest l.indent ((ls.take i).reverse ++ before) := by
  induction h generalizing i with
  | nil => cases hl
  | cons hnode hline h ih =>
    cases i with
    | zero =>
      cases hentry
      cases hl
      exact ⟨hnode, hline, rfl⟩
    | succ i => simpa using ih hentry hl

/-- The blocks of a body follow from the indentation of its lines, and no line is lost: the outline
of the body has an entry for each line, which is read from it and records its number, and below the
nearest line before it that is indented less. -/
theorem Body.ofNormal_follows_indentation {d : Definition} {name doc : String} {kind : MethodKind}
    {normal : NormalBody} {body : Body} (h : ofNormal d name kind doc normal = .ok body) :
    (Stmt.outlineAll none 0 body.stmts).length = normal.lines.length ∧
      ∀ i entry l, (Stmt.outlineAll none 0 body.stmts)[i]? = some entry →
        normal.lines[i]? = some l →
          entry.node.ReadFrom ⟨d, normal.args ++ normal.locals⟩ l ∧
            (∀ n ∈ entry.node.line?, n = l.line) ∧
            IsNearest normal.lines i l.indent entry.header := by
  obtain ⟨ss, hlines, hreturns⟩ := bind_eq_ok h
  obtain ⟨returnsValue, -, hbody⟩ := bind_eq_ok hreturns
  cases hbody
  have hfollows := Stmt.ofLines_follows hlines
  refine ⟨hfollows.length_eq.symm, fun i entry l hentry hl => ?_⟩
  obtain ⟨hnode, hline, hheader⟩ := hfollows.at hentry hl
  have hi : i ≤ normal.lines.length := (List.getElem?_eq_some_iff.1 hl).1.le
  rw [List.append_nil] at hheader
  exact ⟨hnode, hline, hheader ▸ isNearest_nearest normal.lines l.indent hi⟩

def drainage : NormalBody where
  args := []
  locals := [⟨"i", .int⟩]
  lines :=
    [⟨4, 2, [.ofName "for", .ofName "i", .ofName "in", .ofName "range", .ofOp "(", ⟨.number, "3"⟩,
      .ofOp ")", .ofOp ":"]⟩,
    ⟨8, 3, [.ofName "if", .ofName "i", .ofOp ">", ⟨.number, "1"⟩, .ofOp ":"]⟩,
    ⟨12, 4, [.ofName "pass"]⟩,
    ⟨8, 6, [.ofName "elif", .ofName "i", .ofOp ">", ⟨.number, "0"⟩, .ofOp ":"]⟩,
    ⟨10, 7, [.ofName "i", .ofOp "=", ⟨.number, "5"⟩]⟩,
    ⟨8, 8, [.ofName "else", .ofOp ":"]⟩,
    ⟨12, 9, [.ofName "return"]⟩,
    ⟨4, 10, [.ofName "pass"]⟩]

def drainageBody : Body where
  name := "drain"
  kind := .run
  doc := ""
  args := []
  locals := [⟨"i", .int⟩]
  stmts :=
    [.count 2 "i" (.int 0) (.int 3) 1
      [.choose 3
        [⟨.binary .gt (.loc "i") (.int 1), [.pass]⟩,
          ⟨.binary .gt (.loc "i") (.int 0), [.assign 7 (.loc "i") (.int 5)]⟩]
        [.ret 9 none]],
    .pass]
  returnsValue := false

theorem drainage_follows_indentation :
    Body.ofNormal { name := "tank" } "drain" .run "" drainage = .ok drainageBody ∧
      (Stmt.outlineAll none 0 drainageBody.stmts).map (·.header) =
        [none, some 0, some 1, some 0, some 3, some 0, some 5, none] ∧
      (Stmt.outlineAll none 0 drainageBody.stmts).length = drainage.lines.length ∧
      ∀ i entry l, (Stmt.outlineAll none 0 drainageBody.stmts)[i]? = some entry →
        drainage.lines[i]? = some l →
          entry.node.ReadFrom ⟨{ name := "tank" }, drainage.args ++ drainage.locals⟩ l ∧
            (∀ n ∈ entry.node.line?, n = l.line) ∧
            IsNearest drainage.lines i l.indent entry.header := by
  have hread : Body.ofNormal { name := "tank" } "drain" .run "" drainage = .ok drainageBody := rfl
  exact ⟨hread, rfl, Body.ofNormal_follows_indentation hread⟩

end ProcessModel
