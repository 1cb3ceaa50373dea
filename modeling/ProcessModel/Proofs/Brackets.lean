import ProcessModel.Proofs.Reassignment

/-! Brackets in the lines of a method.

A statement is read to the end of its line outside all brackets, so that its brackets match.
Resolution puts names and points in place of names and points, and writing out an assignment repeats
what stands before it and puts brackets around what stands behind. -/

namespace ProcessModel

namespace Token

def opened (ts : List Token) : Nat := ts.countP isOpening

def closed (ts : List Token) : Nat := ts.countP isClosing

/-- No start of the tokens closes more brackets than it opens, and all of them close as many. -/
structure Balanced (ts : List Token) : Prop where
  within : ∀ before, before <+: ts → closed before ≤ opened before
  whole : closed ts = opened ts

/-- The token at `i` has a property and stands outside all brackets: before it as many are closed as
are opened. -/
def Outside (q : Token → Bool) (ts : List Token) (i : Nat) : Prop :=
  ∃ t, ts[i]? = some t ∧ q t = true ∧ opened (ts.take i) = closed (ts.take i)

structure Searched (q : Token → Bool) (ts : List Token) : Prop where
  /-- The count is that of the open brackets. -/
  count : ∀ before, before <+: ts → counted 0 before + closed before = opened before
  /-- It is never lowered from zero. -/
  positive : ∀ before t, before ++ [t] <+: ts → t.isClosing = true → 0 < counted 0 before
  /-- The first token with the property outside all brackets is found, if there is any. -/
  found : ∀ i, topLevel? q ts = some i ↔ Outside q ts i ∧ ∀ j < i, ¬Outside q ts j
  missed : topLevel? q ts = none ↔ ∀ i, ¬Outside q ts i

section Counts

variable {t : Token} {ts : List Token} {depth depth' : Nat}

theorem opened_cons (t : Token) (ts : List Token) :
    opened (t :: ts) = opened ts + if t.isOpening then 1 else 0 := List.countP_cons

theorem closed_cons (t : Token) (ts : List Token) :
    closed (t :: ts) = closed ts + if t.isClosing then 1 else 0 := List.countP_cons

theorem nest_eq_some_iff : t.nest depth = some depth' ↔
    (if t.isClosing then 1 else 0) ≤ depth ∧
      depth' + (if t.isClosing then 1 else 0) = depth + if t.isOpening then 1 else 0 := by
  rcases t.bracket_cases with ⟨ho, hc⟩ | ⟨ho, hc⟩ | ⟨ho, hc⟩
  · simp [nest, ho, hc, eq_comm]
  · have hlower : t.nest depth = some depth' ↔ 0 < depth ∧ depth - 1 = depth' := by
      simp [nest, ho, hc]
    rw [hlower, hc, ho, if_pos rfl, if_neg Bool.false_ne_true]
    omega
  · simp [nest, ho, hc, eq_comm]

/-- Brackets nest from a depth on if no start closes more than are open by then. -/
theorem nesting_eq_some_iff : nesting depth ts = some depth' ↔
    (∀ before, before <+: ts → closed before ≤ depth + opened before) ∧
      depth' + closed ts = depth + opened ts := by
  induction ts generalizing depth with
  | nil => simp [opened, closed, eq_comm]
  | cons t ts ih =>
    have hone : (if t.isClosing then 1 else 0) = 0 ∨ (if t.isOpening then 1 else 0) = 0 := by
      rcases t.bracket_cases with h | h | h <;> simp [h]
    rw [nesting_cons, Option.bind_eq_some_iff]
    simp only [nest_eq_some_iff, ih, opened_cons, closed_cons]
    constructor
    · rintro ⟨next, ⟨-, hnext⟩, hwithin, hwhole⟩
      refine ⟨fun before hbefore => ?_, by omega⟩
      rcases List.prefix_cons_iff.1 hbefore with rfl | ⟨later, rfl, hlater⟩
      · exact Nat.zero_le _
      · have := hwithin later hlater
        rw [opened_cons, closed_cons]
        omega
    · rintro ⟨hwithin, hwhole⟩
      have hfirst := hwithin [t] (List.prefix_append [t] ts)
      rw [opened_cons, closed_cons, opened, closed, List.countP_nil, List.countP_nil] at hfirst
      refine ⟨depth + (if t.isOpening then 1 else 0) - (if t.isClosing then 1 else 0), by omega,
        fun later hlater => ?_, by omega⟩
      have := hwithin (t :: later) (List.cons_prefix_cons.2 ⟨rfl, hlater⟩)
      rw [opened_cons, closed_cons] at this
      omega

theorem balanced_iff : Balanced ts ↔ nesting 0 ts = some 0 := by
  simp only [nesting_eq_some_iff, Nat.zero_add]
  exact ⟨fun h => ⟨h.within, h.whole⟩, fun h => ⟨h.1, h.2⟩⟩

end Counts

/-! ### The search -/

section Search

variable {q : Token → Bool} {t : Token} {ts : List Token}

theorem not_bracket_of_holds (hq : ∀ s ∈ ["(", "[", ")", "]"], q (.ofOp s) = false)
    (ht : q t = true) : t.isOpening = false ∧ t.isClosing = false := by
  have hne : ∀ s ∈ ["(", "[", ")", "]"], t.isOp s = false := by
    intro s hs
    rw [Bool.eq_false_iff]
    intro hop
    rw [isOp_iff.1 hop, hq s hs] at ht
    cases ht
  simp [isOpening, isClosing, hne]

theorem Balanced.searched (h : Balanced ts)
    (hq : ∀ s ∈ ["(", "[", ")", "]"], q (.ofOp s) = false) : Searched q ts := by
  have hnests := balanced_iff.1 h
  have hcount : ∀ before, before <+: ts → counted 0 before + closed before = opened before := by
    intro before hbefore
    obtain ⟨d, hd⟩ := exists_nesting hnests hbefore
    rw [counted_of_nesting hd, (nesting_eq_some_iff.1 hd).2, Nat.zero_add]
  have hmet : ∀ i, Met q 0 ts i ↔ Outside q ts i := by
    intro i
    have htake := List.take_prefix i ts
    have := hcount (ts.take i) htake
    constructor
    · rintro ⟨t, ht, hqt, -, -, hzero⟩
      exact ⟨t, ht, hqt, by omega⟩
    · rintro ⟨t, ht, hqt, hlevel⟩
      obtain ⟨ho, hc⟩ := not_bracket_of_holds hq hqt
      exact ⟨t, ht, hqt, ho, hc, by omega⟩
  refine ⟨hcount, fun before t hbefore hclosing => ?_, fun i => ?_, ?_⟩
  · have hplain : t.isOpening = false := by
      rcases t.bracket_cases with h | h | h <;> simp_all
    have hstart := hcount before ((List.prefix_append before [t]).trans hbefore)
    -- Behind the bracket no more are closed than are opened, so before it one is open.
    have hwithin : closed before + 1 ≤ opened before := by
      simpa [closed, opened, hclosing, hplain] using h.within _ hbefore
    omega
  · rw [topLevel?, go_eq_some_iff]
    simp only [hmet]
  · rw [topLevel?, go_eq_none_iff]
    simp only [hmet]

end Search

end Token

open Token

/-! ### The lines of a method -/

section Lines

theorem Script.balanced_of_tokenize {text : String} {n : Nat} {block : Script.Block}
    (h : Script.tokenize text n = .ok block) : ∀ l ∈ block.lines, Balanced l.tokens :=
  fun l hl => balanced_iff.2 (Script.written_of_tokenize h l hl).1.balanced

variable {s : Scope}

theorem Scope.nesting_use {x : String} {chain : List String} {call : Bool}
    {found : Option (List Token)} (h : s.use (x :: chain) call = .ok found) (depth : Nat) :
    nesting depth (found.getD [.ofName x]) = some depth := by
  cases uses_of_use h with
  | single | helper => exact nesting_named depth _ []
  | var | method => exact nesting_named depth _ _

theorem Scope.nesting_tokens {after : Bool} {ts out : List Token} (h : s.tokens after ts = .ok out)
    (depth : Nat) : nesting depth out = nesting depth ts := by
  replace h := rewritten_of_tokens h
  induction h generalizing depth with
  | nil => rfl
  | keep hkeep h ih => simp only [nesting_cons, ih]
  | @chain x ts out found hself hfound h ih =>
    rw [ofName_cons_eq x ts, nesting_append, nesting_append, nesting_use hfound, nesting_named]
    exact ih depth

theorem Scope.balanced_lines {s' : Scope} {ls out : List LogicalLine}
    (h : s.lines ls = .ok (out, s')) (hls : ∀ l ∈ ls, Balanced l.tokens) :
    ∀ l ∈ out, Balanced l.tokens := by
  induction ls generalizing s out with
  | nil =>
    cases h
    simp
  | cons l ls ih =>
    obtain ⟨hl, hls⟩ := List.forall_mem_cons.1 hls
    unfold lines at h
    split_ifs at h with hslow hheader hfast
    · exact ih h hls
    · obtain ⟨s₁, -, h⟩ := bind_eq_ok h
      obtain ⟨⟨out₁, s₂⟩, hout₁, h⟩ := bind_eq_ok h
      cases h
      exact List.forall_mem_cons.2 ⟨hl, ih hout₁ hls⟩
    · obtain ⟨ts, hts, h⟩ := bind_eq_ok h
      obtain ⟨⟨out₁, s₂⟩, hout₁, h⟩ := bind_eq_ok h
      cases h
      refine List.forall_mem_cons.2 ⟨balanced_iff.2 ?_, ih hout₁ hls⟩
      exact (nesting_tokens (onLine_eq_ok hts) 0).trans (balanced_iff.1 hl)

theorem NormalBody.balanced_expand {l : LogicalLine} (h : Balanced l.tokens) :
    Balanced (expand l).tokens := by
  unfold expand
  split_ifs with hheader
  · exact h
  rw [balanced_iff] at h ⊢
  show nesting 0 (expandTokens l.tokens) = some 0
  cases hi : topLevel? isAugmented l.tokens with
  | none => rwa [expandTokens_of_none hi]
  | some i =>
    obtain ⟨op, -, -, hexpand⟩ := expandTokens_of_some hi
    obtain ⟨htarget, hvalue⟩ := topLevel?_nesting hi h
    have hequals : (Token.ofOp "=").nest 0 = some 0 := by decide
    have hop : op.token.nest 0 = some 0 := by cases op <;> decide
    have hopen : (Token.ofOp "(").nest 0 = some 1 := by decide
    have hclose : (Token.ofOp ")").nest 1 = some 0 := by decide
    rw [hexpand, reassigned]
    simp [nesting_append, htarget, nesting_add hvalue 1, hequals, hop, hopen, hclose]

theorem ResolvedBody.balanced_ofMethod {d : Definition} {dialect : Dialect} {m : MethodSource}
    {resolved : ResolvedBody} (h : ofMethod d dialect m = .ok resolved) :
    ∀ l ∈ resolved.lines, Balanced l.tokens := by
  obtain ⟨s, -, h⟩ := bind_eq_ok h
  obtain ⟨block, hblock, h⟩ := bind_eq_ok h
  obtain ⟨⟨lines, s'⟩, hlines, h⟩ := bind_eq_ok h
  cases h
  have hsource := Script.balanced_of_tokenize (Script.tokensOf_eq_ok hblock)
  exact Scope.balanced_lines hlines fun l hl => hsource l (List.mem_of_mem_drop hl)

theorem NormalBody.balanced_ofLines {dialect : Dialect} {method : String}
    {args locals : List String} {ls : List LogicalLine} {normal : NormalBody}
    (h : ofLines dialect method args locals ls = .ok normal)
    (hls : ∀ l ∈ ls, Balanced l.tokens) : ∀ l ∈ normal.lines, Balanced l.tokens := by
  obtain ⟨out, hout, h⟩ := bind_eq_ok h
  cases h
  rw [normalLines_eq_ok hout]
  intro l hl
  obtain ⟨l', hl', rfl⟩ := List.mem_map.1 hl
  exact balanced_expand (hls l' (List.mem_filter.1 hl').1)

end Lines

/-- Brackets match in every logical line that is read, and resolution and writing out assignments
keep them so. Hence they match in the lines of every method that is resolved and brought into normal
form. There the search for an operator that assigns the value of an operation, in resolved lines,
and that for one that assigns, in normal lines, count the open brackets exactly, never lower the
count from zero and find the first such operator outside all brackets. -/
theorem brackets_match_throughout :
    (∀ (text : String) (n : Nat) (block : Script.Block), Script.tokenize text n = .ok block →
      ∀ l ∈ block.lines, Balanced l.tokens) ∧
    (∀ (s s' : Scope) (ls out : List LogicalLine), s.lines ls = .ok (out, s') →
      (∀ l ∈ ls, Balanced l.tokens) → ∀ l ∈ out, Balanced l.tokens) ∧
    (∀ l : LogicalLine, Balanced l.tokens → Balanced (NormalBody.expand l).tokens) ∧
    ∀ (d : Definition) (dialect : Dialect) (m : MethodSource) (resolved : ResolvedBody),
      ResolvedBody.ofMethod d dialect m = .ok resolved →
      (∀ l ∈ resolved.lines, Balanced l.tokens ∧ Searched NormalBody.isAugmented l.tokens) ∧
      ∀ (method : String) (args locals : List String) (normal : NormalBody),
        NormalBody.ofLines dialect method args locals resolved.lines = .ok normal →
          ∀ l ∈ normal.lines, Balanced l.tokens ∧ Searched (fun t => t.isOp "=") l.tokens := by
  refine ⟨fun _ _ _ => Script.balanced_of_tokenize, fun _ _ _ _ => Scope.balanced_lines,
    fun _ => NormalBody.balanced_expand, fun d dialect m resolved hresolved => ?_⟩
  have hbalanced := ResolvedBody.balanced_ofMethod hresolved
  refine ⟨fun l hl => ⟨hbalanced l hl, (hbalanced l hl).searched (by decide)⟩, ?_⟩
  intro method args locals normal hnormal l hl
  have hl' := NormalBody.balanced_ofLines hnormal hbalanced l hl
  exact ⟨hl', hl'.searched (by decide)⟩

def aqueduct : Definition where
  name := "aqueduct"
  sources := [⟨"aqueduct.mdl",
    "def calc(model):\n    flu.q += (con.k *\n (2.0 - max(1.0, 0.5)))\n"⟩]
  groups := [{ kind := .control, vars := [{ name := "k" }] },
    { kind := .fluxes, vars := [{ name := "q" }] }]
  methods := { run := ["calc"] }

theorem aqueduct_brackets_match : ∃ source resolved normal,
    MethodSource.find aqueduct ({} : Dialect).fastMarker "calc" .run = .ok source ∧
    ResolvedBody.ofMethod aqueduct {} source = .ok resolved ∧
    NormalBody.ofLines {} "calc" source.args source.locals resolved.lines = .ok normal ∧
    normal.text = "    self.sequences.fluxes.q = self.sequences.fluxes.q + " ++
      "((self.parameters.control.k * (2.0 - max(1.0, 0.5))))\n" ∧
    (∀ l ∈ resolved.lines, Balanced l.tokens ∧ Searched NormalBody.isAugmented l.tokens) ∧
    ∀ l ∈ normal.lines, Balanced l.tokens ∧ Searched (fun t => t.isOp "=") l.tokens := by
  have hrun : ((MethodSource.find aqueduct ({} : Dialect).fastMarker "calc" .run).toOption.any
      fun source => (ResolvedBody.ofMethod aqueduct {} source).toOption.any
        fun resolved => (NormalBody.ofLines {} "calc" source.args source.locals
          resolved.lines).toOption.any fun normal => normal.text =
            "    self.sequences.fluxes.q = self.sequences.fluxes.q + " ++
            "((self.parameters.control.k * (2.0 - max(1.0, 0.5))))\n") := by
    decide +kernel
  obtain ⟨source, hsource, h⟩ := exists_ok_of_any hrun
  obtain ⟨resolved, hresolved, h⟩ := exists_ok_of_any h
  obtain ⟨normal, hnormal, htext⟩ := exists_ok_of_any h
  obtain ⟨hlines, hnormalLines⟩ := brackets_match_throughout.2.2.2 _ _ _ _ hresolved
  exact ⟨source, resolved, normal, hsource, hresolved, hnormal,
    of_decide_eq_true htext, hlines, hnormalLines _ _ _ _ hnormal⟩

end ProcessModel
