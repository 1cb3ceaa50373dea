import ProcessModel.Proofs.Grammar

/-! Reading what the grammar derives.

A token list with a derivation is read as that expression, whatever stands behind it, as long as
what stands there cannot continue the expression. The reader gives its calls a depth, and the depth
it starts with is enough. -/

namespace ProcessModel

def BinaryOp.level : BinaryOp → Level
  | .or => .or
  | .and => .and
  | .lt | .le | .gt | .ge | .eq | .ne => .comparison
  | .add | .sub => .sum
  | .mul | .div | .floorDiv | .mod => .product
  | .pow => .power

theorem BinaryOp.token_text (op : BinaryOp) : op.token.text = op.symbol := by
  cases op <;> rfl

theorem BinaryOp.symbol_injective : Function.Injective BinaryOp.symbol := by
  intro op op' h
  exact Option.some.inj ((ofSymbol?_eq_some_iff.2 rfl).symm.trans (ofSymbol?_eq_some_iff.2 h))

theorem BinaryOp.token_injective : Function.Injective BinaryOp.token := by
  intro op op' h
  refine symbol_injective ?_
  rw [← token_text, ← token_text, h]

namespace Level

def rank : Level → Nat
  | .operand => 2
  | .power => 3
  | .sign => 4
  | .product => 5
  | .sum => 6
  | .comparison => 7
  | .not => 8
  | .and => 9
  | .or => 10

variable {l : Level}

theorem rank_tighter (hl : l ≠ .operand) : l.rank = l.tighter.rank + 1 := by
  cases l <;> first | rfl | exact absurd rfl hl

theorem level_of_mem_joins {op : BinaryOp} (h : op ∈ l.joins) : op.level = l := by
  cases l <;> revert op <;> decide

theorem ne_operand_of_joins (h : l.joins ≠ []) : l ≠ .operand := by
  rintro rfl
  exact h rfl

/-- The tokens that an operand takes in, if one of them follows. -/
def openers : List Token := [.ofOp "(", .ofOp "[", .ofOp "."]

/-- Tokens that do not continue an expression of level `l`. -/
def Stops (l : Level) (rest : List Token) : Prop :=
  ∀ t ∈ rest.head?, t ∉ openers ∧ ∀ op : BinaryOp, op.level.rank ≤ l.rank → t ≠ op.token

variable {l : Level} {rest : List Token}

theorem stops_nil : l.Stops [] := by simp [Stops]

theorem stops_cons {t : Token} (h : t ∉ openers)
    (hop : ∀ op : BinaryOp, op.level.rank ≤ l.rank → t ≠ op.token) : l.Stops (t :: rest) := by
  intro t' ht'
  cases ht'
  exact ⟨h, hop⟩

theorem stops_token {op : BinaryOp} (h : l.rank < op.level.rank) : l.Stops (op.token :: rest) := by
  refine stops_cons (by cases op <;> decide) fun op' hop' heq => ?_
  rw [← BinaryOp.token_injective heq] at hop'
  omega

theorem stops_closer {s : String} (h : s ∈ [")", "]", ","]) : l.Stops (.ofOp s :: rest) := by
  simp only [List.mem_cons, List.not_mem_nil, or_false] at h
  rcases h with rfl | rfl | rfl
  all_goals exact stops_cons (by decide) fun op _ => by cases op <;> decide

theorem Stops.mono {l' : Level} (h : l'.Stops rest) (hl : l.rank ≤ l'.rank) : l.Stops rest :=
  fun t ht => ⟨(h t ht).1, fun op hop => (h t ht).2 op (hop.trans hl)⟩

theorem Stops.tighter (h : l.Stops rest) : l.tighter.Stops rest :=
  h.mono (by cases l <;> decide)

theorem Stops.sign (h : Level.power.Stops rest) : Level.sign.Stops rest :=
  fun t ht => ⟨(h t ht).1, fun op hop => (h t ht).2 op (by revert hop; cases op <;> decide)⟩

theorem Stops.afterOp?_eq_none {s : String} (h : l.Stops rest)
    (hs : .ofOp s ∈ openers ∨ ∃ op : BinaryOp, op.level.rank ≤ l.rank ∧ .ofOp s = op.token) :
    afterOp? s rest = none := by
  refine Option.eq_none_iff_forall_ne_some.2 fun behind hbehind => ?_
  obtain rfl := afterOp?_eq_some_iff.1 hbehind
  obtain ⟨hopener, hop⟩ := h _ rfl
  rcases hs with hs | ⟨op, hl, hs⟩
  · exact hopener hs
  · exact hop op hl hs

theorem Stops.comparison?_eq_none (h : Level.comparison.Stops rest) : comparison? rest = none := by
  refine Option.eq_none_iff_forall_ne_some.2 fun ⟨op, behind⟩ hbehind => ?_
  obtain ⟨hop, rfl⟩ := comparison?_eq_some_iff.1 hbehind
  exact (h _ rfl).2 op (by revert hop; cases op <;> decide) rfl

/-- Tokens that no expression of level `l` starts with. -/
def barred : Level → List Token
  | .or | .and | .not => [.ofOp ")"]
  | .comparison | .sum | .product | .sign => [.ofOp ")", .ofName "not"]
  | .power | .operand => [.ofOp ")", .ofName "not", .ofOp "-", .ofOp "+"]

theorem barred_subset_tighter (l : Level) : l.barred ⊆ l.tighter.barred := by
  cases l <;> decide

theorem marks_subset_barred (l : Level) : l.marks ⊆ l.tighter.barred := by
  cases l <;> decide

end Level

namespace Names

/-- No local has the name of the model or of a word of the language. -/
def Proper (names : Names) : Prop := ∀ l ∈ names.locals, l.name ≠ "self" ∧ l.name ∉ keywords

instance (names : Names) : Decidable names.Proper :=
  inferInstanceAs (Decidable (∀ l ∈ names.locals, l.name ≠ "self" ∧ l.name ∉ keywords))

variable {names : Names}

theorem Proper.of_isLocal (h : names.Proper) {x : String} (hx : names.isLocal x = true) :
    x ≠ "self" ∧ x ∉ keywords := by
  obtain ⟨l, hl, hx⟩ := List.any_eq_true.1 hx
  obtain rfl := eq_of_beq hx
  exact h l hl

theorem Derives.head (hnames : names.Proper) {l : Level} {ts : List Token} {e : Expr}
    (h : names.Derives l ts e) : ∃ t us, ts = t :: us ∧ t ∉ l.barred := by
  induction h with
  | @tighten l ts e hl h ih =>
    obtain ⟨t, us, rfl, ht⟩ := ih
    exact ⟨t, us, rfl, fun hbarred => ht (l.barred_subset_tighter hbarred)⟩
  | join hop hleft hright ihl ihr =>
    obtain ⟨t, us, rfl, ht⟩ := ihl
    exact ⟨t, _, rfl, ht⟩
  | not h ih => exact ⟨_, _, rfl, by decide⟩
  | comparison hop hleft hright ihl ihr =>
    obtain ⟨t, us, rfl, ht⟩ := ihl
    exact ⟨t, _, rfl, ht⟩
  | minus h ih => exact ⟨_, _, rfl, by decide⟩
  | plus h ih => exact ⟨_, _, rfl, by decide⟩
  | power hbase hexponent ihb ihe =>
    obtain ⟨t, us, rfl, ht⟩ := ihb
    exact ⟨t, _, rfl, ht⟩
  | integer hplain hn => exact ⟨_, _, rfl, by simp [Level.barred, Token.ofOp, Token.ofName]⟩
  | decimal hmark hx => exact ⟨_, _, rfl, by simp [Level.barred, Token.ofOp, Token.ofName]⟩
  | truth => exact ⟨_, _, rfl, by decide⟩
  | falsity => exact ⟨_, _, rfl, by decide⟩
  | brackets h ih => exact ⟨_, _, rfl, by decide⟩
  | loc hx =>
    refine ⟨_, _, rfl, ?_⟩
    have hkeyword := (hnames.of_isLocal hx).2
    simp only [Level.barred, Token.ofOp, Token.ofName, List.mem_cons, Token.mk.injEq, reduceCtorEq,
      false_and, true_and, List.not_mem_nil, or_false, false_or]
    rintro rfl
    exact hkeyword (by decide)
  | @builtin f parts comma hparts hcomma harity ih => exact ⟨_, _, rfl, by cases f <;> decide⟩
  | method hplain hparts hcomma ih => exact ⟨_, _, rfl, by decide⟩
  | scalar hplain hv hndim => exact ⟨_, _, rfl, by decide⟩
  | element hplain hv hparts hne hndim ih => exact ⟨_, _, rfl, by decide⟩

/-- Tokens are read as an expression of level `l` if they are followed by some that do not continue
it and the depth is enough for them. -/
def ReadAs (names : Names) (l : Level) (ts : List Token) (e : Expr) : Prop :=
  ∀ n rest, l.Stops rest → 12 * ts.length + l.rank ≤ n →
    Expr.parse names n l (ts ++ rest) = .ok (e, rest)

/-- Tokens are read as the start of a chain. -/
def ReadInto (names : Names) (l : Level) (ts : List Token) (e : Expr) : Prop :=
  ∀ n rest, l.tighter.Stops rest → 12 * ts.length + l.rank ≤ n →
    ∃ m, n ≤ m + 12 * ts.length ∧
      Expr.parse names n l (ts ++ rest) = Expr.chain names m l e rest

end Names

namespace Expr

variable {names : Names} {l : Level} {ts us : List Token} {e left right : Expr}

theorem parse_joined (hl : l.joins ≠ []) (n : Nat) (ts : List Token) :
    parse names (n + 1) l ts =
      parse names n l.tighter ts >>= fun r => chain names n l r.1 r.2 := by
  cases l <;> first | rfl | exact absurd rfl hl

theorem chain_stops {rest : List Token} (h : l.Stops rest) (m : Nat) (e : Expr) :
    chain names m l e rest = .ok (e, rest) := by
  cases m with
  | zero => rfl
  | succ m =>
    cases rest with
    | nil => rfl
    | cons t rest =>
      have hnone : l.operator? t = none := by
        refine Option.eq_none_iff_forall_ne_some.2 fun op hop => ?_
        obtain ⟨hop, ht⟩ := Level.operator?_eq_some_iff.1 hop
        exact (h t rfl).2 op (Level.level_of_mem_joins hop ▸ le_rfl) ht
      simp only [chain, hnone]

theorem chain_token {op : BinaryOp} (hop : op ∈ l.joins) (m : Nat) (left : Expr)
    (ts : List Token) :
    chain names (m + 1) l left (op.token :: ts) =
      parse names m l.tighter ts >>= fun r => chain names m l (.binary op left r.1) r.2 := by
  simp only [chain, Level.operator?_eq_some_iff.2 ⟨hop, rfl⟩]

theorem operand_builtin (n : Nat) (f : Builtin) (inner : List Token) :
    operand names (n + 1) (.ofName f.name :: .ofOp "(" :: inner) =
      arguments names n inner >>= fun r =>
        builtinCall f.name f r.1 >>= fun e => .ok (e, r.2) := by
  have htrue : f.name ≠ "True" := by cases f <;> decide
  have hfalse : f.name ≠ "False" := by cases f <;> decide
  have hself : f.name ≠ "self" := by cases f <;> decide
  have hname : Builtin.ofName? f.name = some f := Builtin.ofName?_eq_some_iff.2 rfl
  simp only [operand, Token.ofName, htrue, hfalse, hself, if_false, afterOp?_self, hname]
  rfl

theorem operand_self (n : Nat) (ts : List Token) :
    operand names (n + 1) (.ofName "self" :: ts) = member names n ts := rfl

theorem ofTokens_of_parse (hts : ts ≠ [])
    (h : parse names (parseDepth ts) .or ts = .ok (e, [])) : ofTokens names ts = .ok e := by
  have hempty : ¬ ts.isEmpty = true := fun hempty => hts (List.isEmpty_iff.1 hempty)
  rw [ofTokens, if_neg hempty, h]
  rfl

end Expr

namespace Names

open ProcessModel.Expr

variable {names : Names} {l : Level} {ts us : List Token} {e left right : Expr}

theorem afterOp?_cons_eq_none {s : String} {t : Token} (h : t ≠ .ofOp s) (rest : List Token) :
    afterOp? s (t :: rest) = none :=
  if_neg (mt Token.isOp_iff.1 h)

theorem afterWord?_cons_eq_none {s : String} {t : Token} (h : t ≠ .ofName s) (rest : List Token) :
    afterWord? s (t :: rest) = none :=
  if_neg (mt Token.isName_iff.1 h)

/-! Chains. -/

theorem ReadAs.into (hl : l.joins ≠ []) (hts : 0 < ts.length) (h : names.ReadAs l.tighter ts e) :
    names.ReadInto l ts e := by
  intro n rest hrest hn
  have hrank := l.rank_tighter (Level.ne_operand_of_joins hl)
  obtain ⟨m, rfl⟩ : ∃ m, n = m + 1 := ⟨n - 1, by omega⟩
  refine ⟨m, by omega, ?_⟩
  rw [parse_joined hl, h m rest hrest (by omega)]
  rfl

theorem ReadInto.join {op : BinaryOp} (hop : op ∈ l.joins) (hleft : names.ReadInto l ts left)
    (hright : names.ReadAs l.tighter us right) :
    names.ReadInto l (ts ++ op.token :: us) (.binary op left right) := by
  intro n rest hrest hn
  have hl : l.joins ≠ [] := List.ne_nil_of_mem hop
  have hrank := l.rank_tighter (Level.ne_operand_of_joins hl)
  have hlevel := Level.level_of_mem_joins hop
  simp only [List.length_append, List.length_cons] at hn ⊢
  rw [List.append_assoc, List.cons_append]
  obtain ⟨m, hm, hparse⟩ := hleft n (op.token :: (us ++ rest))
    (Level.stops_token (by rw [hlevel]; omega)) (by omega)
  obtain ⟨k, rfl⟩ : ∃ k, m = k + 1 := ⟨m - 1, by omega⟩
  refine ⟨k, by omega, ?_⟩
  rw [hparse, chain_token hop, hright k rest hrest (by omega)]
  rfl

theorem ReadInto.readAs (h : names.ReadInto l ts e) : names.ReadAs l ts e := by
  intro n rest hrest hn
  obtain ⟨m, -, hparse⟩ := h n rest hrest.tighter hn
  rw [hparse, chain_stops hrest]

/-! The other levels. -/

theorem readAs_succ (h : ∀ n rest, l.Stops rest → 12 * ts.length + l.rank ≤ n + 1 →
    Expr.parse names (n + 1) l (ts ++ rest) = .ok (e, rest)) : names.ReadAs l ts e := by
  intro n rest hrest hn
  have hrank : 0 < l.rank := by cases l <;> decide
  obtain ⟨m, rfl⟩ : ∃ m, n = m + 1 := ⟨n - 1, by omega⟩
  exact h m rest hrest hn

theorem ReadAs.not_tighten (hnot : ∀ rest, afterWord? "not" (ts ++ rest) = none)
    (h : names.ReadAs .comparison ts e) : names.ReadAs .not ts e := by
  refine readAs_succ fun m rest hrest hn => ?_
  simp only [Level.rank] at hn
  simp only [parse, hnot]
  exact h m rest hrest.tighter (by simp only [Level.rank]; omega)

theorem ReadAs.not (h : names.ReadAs .not ts e) :
    names.ReadAs .not (.ofName "not" :: ts) (.unary .not e) := by
  refine readAs_succ fun m rest hrest hn => ?_
  simp only [Level.rank, List.length_cons] at hn
  simp only [List.cons_append, parse, afterWord?_self]
  rw [h m rest hrest (by simp only [Level.rank]; omega)]
  rfl

theorem ReadAs.comparison_tighten (h : names.ReadAs .sum ts e) :
    names.ReadAs .comparison ts e := by
  refine readAs_succ fun m rest hrest hn => ?_
  simp only [Level.rank] at hn
  simp only [parse]
  rw [h m rest hrest.tighter (by simp only [Level.rank]; omega), ok_bind]
  simp only [hrest.comparison?_eq_none]
  rfl

theorem ReadAs.comparison {op : BinaryOp} (hop : op.isComparison = true)
    (hleft : names.ReadAs .sum ts left) (hright : names.ReadAs .sum us right) :
    names.ReadAs .comparison (ts ++ op.token :: us) (.binary op left right) := by
  refine readAs_succ fun m rest hrest hn => ?_
  simp only [Level.rank, List.length_append, List.length_cons] at hn
  have hloose : Level.sum.rank < op.level.rank := by
    revert hop
    cases op <;> decide
  rw [List.append_assoc, List.cons_append]
  simp only [parse]
  rw [hleft m _ (Level.stops_token hloose) (by simp only [Level.rank]; omega), ok_bind]
  simp only [comparison?_eq_some_iff.2 ⟨hop, rfl⟩]
  rw [hright m rest hrest.tighter (by simp only [Level.rank]; omega), ok_bind]
  simp only [hrest.comparison?_eq_none]
  rfl

theorem ReadAs.sign_tighten (hminus : ∀ rest, afterOp? "-" (ts ++ rest) = none)
    (hplus : ∀ rest, afterOp? "+" (ts ++ rest) = none) (h : names.ReadAs .power ts e) :
    names.ReadAs .sign ts e := by
  refine readAs_succ fun m rest hrest hn => ?_
  simp only [Level.rank] at hn
  simp only [parse, hminus, hplus]
  exact h m rest hrest.tighter (by simp only [Level.rank]; omega)

theorem ReadAs.minus (h : names.ReadAs .sign ts e) :
    names.ReadAs .sign (.ofOp "-" :: ts) (.unary .neg e) := by
  refine readAs_succ fun m rest hrest hn => ?_
  simp only [Level.rank, List.length_cons] at hn
  simp only [List.cons_append, parse, afterOp?_self]
  rw [h m rest hrest (by simp only [Level.rank]; omega)]
  rfl

theorem ReadAs.plus (h : names.ReadAs .sign ts e) :
    names.ReadAs .sign (.ofOp "+" :: ts) (.unary .pos e) := by
  refine readAs_succ fun m rest hrest hn => ?_
  simp only [Level.rank, List.length_cons] at hn
  have hminus : afterOp? "-" (.ofOp "+" :: (ts ++ rest)) = none := rfl
  simp only [List.cons_append, parse, hminus, afterOp?_self]
  rw [h m rest hrest (by simp only [Level.rank]; omega)]
  rfl

theorem ReadAs.power_tighten (h : names.ReadAs .operand ts e) : names.ReadAs .power ts e := by
  refine readAs_succ fun m rest hrest hn => ?_
  simp only [Level.rank] at hn
  have hpower : afterOp? "**" rest = none :=
    hrest.afterOp?_eq_none (.inr ⟨.pow, le_rfl, rfl⟩)
  simp only [parse]
  rw [h m rest hrest.tighter (by simp only [Level.rank]; omega), ok_bind]
  simp only [hpower]
  rfl

theorem ReadAs.power (hbase : names.ReadAs .operand ts left)
    (hexponent : names.ReadAs .sign us right) :
    names.ReadAs .power (ts ++ .ofOp "**" :: us) (.binary .pow left right) := by
  refine readAs_succ fun m rest hrest hn => ?_
  simp only [Level.rank, List.length_append, List.length_cons] at hn
  have hloose : Level.operand.rank < BinaryOp.pow.level.rank := by decide
  have hstops : Level.operand.Stops (.ofOp "**" :: (us ++ rest)) := Level.stops_token hloose
  rw [List.append_assoc, List.cons_append]
  simp only [parse]
  rw [hbase m _ hstops (by simp only [Level.rank]; omega), ok_bind]
  simp only [afterOp?_self]
  rw [hexponent m rest hrest.sign (by simp only [Level.rank]; omega)]
  rfl

/-! Operands. -/

theorem readAs_operand (h : ∀ n rest, Level.operand.Stops rest → 12 * ts.length ≤ n →
    operand names (n + 1) (ts ++ rest) = .ok (e, rest)) : names.ReadAs .operand ts e := by
  intro n rest hrest hn
  simp only [Level.rank] at hn
  obtain ⟨m, rfl⟩ : ∃ m, n = m + 2 := ⟨n - 2, by omega⟩
  exact h m rest hrest (by omega)

/-- An expression in a list: it does not start with the end of the list. -/
def Item (names : Names) (p : List Token × Expr) : Prop :=
  names.ReadAs .or p.1 p.2 ∧ ∀ rest, afterOp? ")" (p.1 ++ rest) = none

section Lists

variable {p : List Token × Expr} {parts : List (List Token × Expr)} {comma : List Token} {n : Nat}

theorem Item.parse (h : names.Item p) {s : String} (hs : s ∈ [")", "]", ","])
    (hn : 12 * p.1.length + 10 ≤ n) (rest : List Token) :
    Expr.parse names n .or (p.1 ++ .ofOp s :: rest) = .ok (p.2, .ofOp s :: rest) :=
  h.1 n _ (Level.stops_closer hs) hn

theorem Item.arguments_more (h : names.Item p) (hn : 12 * p.1.length + 10 ≤ n) (more : List Token) :
    arguments names (n + 1) (p.1 ++ .ofOp "," :: more) =
      arguments names n more >>= fun r => .ok (p.2 :: r.1, r.2) := by
  simp only [arguments, h.2]
  rw [h.parse (by decide) hn]
  rfl

theorem Item.indices_more (h : names.Item p) (hn : 12 * p.1.length + 10 ≤ n) (more : List Token) :
    indices names (n + 1) (p.1 ++ .ofOp "," :: more) =
      indices names n more >>= fun r => .ok (p.2 :: r.1, r.2) := by
  simp only [indices]
  rw [h.parse (by decide) hn]
  rfl

theorem arguments_listed (hparts : ∀ p ∈ parts, names.Item p) (hcomma : EndsList parts comma)
    (hn : 12 * (listed parts ++ comma).length + 11 ≤ n) (rest : List Token) :
    arguments names n (listed parts ++ (comma ++ .ofOp ")" :: rest)) =
      .ok (parts.map (·.2), rest) := by
  induction parts generalizing n with
  | nil =>
    obtain rfl : comma = [] := hcomma.resolve_right fun h => h.1 rfl
    obtain ⟨m, rfl⟩ : ∃ m, n = m + 1 := ⟨n - 1, by omega⟩
    rfl
  | cons p parts ih =>
    obtain ⟨m, rfl⟩ : ∃ m, n = m + 1 := ⟨n - 1, by omega⟩
    have hp := hparts p List.mem_cons_self
    cases parts with
    | nil =>
      simp only [listed_singleton, List.length_append] at hn ⊢
      rcases hcomma with rfl | ⟨-, rfl⟩
      · simp only [List.nil_append, arguments, hp.2]
        rw [hp.parse (by decide) (by omega)]
        rfl
      · simp only [List.length_singleton] at hn
        obtain ⟨k, rfl⟩ : ∃ k, m = k + 1 := ⟨m - 1, by omega⟩
        rw [List.singleton_append, hp.arguments_more (by omega)]
        rfl
    | cons next parts =>
      simp only [listed_cons_cons, List.length_append, List.length_cons] at hn
      rw [listed_cons_cons, List.append_assoc, List.cons_append, hp.arguments_more (by omega),
        ih (fun q hq => hparts q (List.mem_cons_of_mem _ hq))
          (hcomma.imp_right fun h => ⟨by simp, h.2⟩) (by simp only [List.length_append]; omega)]
      rfl

theorem indices_listed (hparts : ∀ p ∈ parts, names.Item p) (hne : parts ≠ [])
    (hn : 12 * (listed parts).length + 11 ≤ n) (rest : List Token) :
    indices names n (listed parts ++ .ofOp "]" :: rest) = .ok (parts.map (·.2), rest) := by
  induction parts generalizing n with
  | nil => exact absurd rfl hne
  | cons p parts ih =>
    obtain ⟨m, rfl⟩ : ∃ m, n = m + 1 := ⟨n - 1, by omega⟩
    have hp := hparts p List.mem_cons_self
    cases parts with
    | nil =>
      rw [listed_singleton] at hn ⊢
      simp only [indices]
      rw [hp.parse (by decide) (by omega)]
      rfl
    | cons next parts =>
      simp only [listed_cons_cons, List.length_append, List.length_cons] at hn
      rw [listed_cons_cons, List.append_assoc, List.cons_append, hp.indices_more (by omega),
        ih (fun q hq => hparts q (List.mem_cons_of_mem _ hq)) (by simp) (by omega)]
      rfl

theorem readAs_brackets (h : names.ReadAs .or ts e) :
    names.ReadAs .operand (.ofOp "(" :: (ts ++ [.ofOp ")"])) e := by
  refine readAs_operand fun n rest hrest hn => ?_
  simp only [List.length_cons, List.length_append] at hn
  rw [List.cons_append, List.append_assoc, List.singleton_append]
  simp only [operand, Token.ofOp, if_true]
  rw [← Token.ofOp, h n _ (Level.stops_closer (by decide)) (by simp only [Level.rank]; omega),
    ok_bind]
  simp only [afterOp?_self]
  rfl

theorem readAs_loc {x : String} (hx : names.isLocal x = true)
    (hword : x ∉ ["True", "False", "self"]) : names.ReadAs .operand [.ofName x] (.loc x) := by
  refine readAs_operand fun n rest hrest hn => ?_
  obtain ⟨htrue, hfalse, hself⟩ : x ≠ "True" ∧ x ≠ "False" ∧ x ≠ "self" := by simpa using hword
  have hcall : afterOp? "(" rest = none := hrest.afterOp?_eq_none (.inl (by decide))
  have hindex : afterOp? "[" rest = none := hrest.afterOp?_eq_none (.inl (by decide))
  simp [operand, Token.ofName, hself, htrue, hfalse, hcall, hindex, hx]

theorem readAs_builtin {f : Builtin} (hparts : ∀ p ∈ parts, names.Item p)
    (hcomma : EndsList parts comma) (harity : parts.length = f.arity) :
    names.ReadAs .operand (.ofName f.name :: .ofOp "(" :: (listed parts ++ (comma ++ [.ofOp ")"])))
      (.call (.builtin f) (parts.map (·.2))) := by
  refine readAs_operand fun n rest hrest hn => ?_
  simp only [List.length_cons, List.length_append] at hn
  have hcall : builtinCall f.name f (parts.map (·.2)) =
      .ok (.call (.builtin f) (parts.map (·.2))) :=
    builtinCall_eq_ok_iff.2 ⟨by simpa using harity, rfl⟩
  simp only [List.cons_append, List.append_assoc, List.nil_append]
  rw [operand_builtin,
    arguments_listed hparts hcomma (by simp only [List.length_append]; omega), ok_bind, hcall]
  rfl

theorem members_before (chain : List String) {s : String} (hs : s ≠ ".") (behind : List Token) :
    members (dotted chain ++ .ofOp s :: behind) = .ok (chain, .ofOp s :: behind) := by
  refine members_dotted chain fun t ht => ?_
  cases ht
  simpa [Token.ofOp] using hs

theorem member_call {owner : List String} {name : String}
    (hplain : ∀ s ∈ owner ++ [name], Family.ofName? s = none)
    (hparts : ∀ p ∈ parts, names.Item p) (hcomma : EndsList parts comma)
    (hn : 12 * (listed parts ++ comma).length + 11 ≤ n) (rest : List Token) :
    member names (n + 1) (dotted (owner ++ [name]) ++
        .ofOp "(" :: (listed parts ++ (comma ++ .ofOp ")" :: rest))) =
      .ok (.call (.method owner name) (parts.map (·.2)), rest) := by
  simp only [member, members_before _ (show "(" ≠ "." by decide), ok_bind,
    designate_eq_inl_iff.2 ⟨rfl, hplain⟩, afterOp?_self, arguments_listed hparts hcomma hn]
  rfl

theorem member_var {path : VarPath} {v : Variable}
    (hplain : ∀ s ∈ path.owner, Family.ofName? s = none)
    (hv : names.definition.declared? path = some v) (hndim : v.ndim = 0) (n : Nat)
    {rest : List Token} (hrest : ∀ t ∈ rest.head?, t ∉ [.ofOp ".", .ofOp "["]) :
    member names (n + 1) (dotted path.segments ++ rest) = .ok (.var path [], rest) := by
  have hmembers : members (dotted path.segments ++ rest) = .ok (path.segments, rest) :=
    members_dotted _ fun t ht hdot => hrest t ht (hdot ▸ List.mem_cons_self)
  have hindex : afterOp? "[" rest = none := by
    refine Option.eq_none_iff_forall_ne_some.2 fun behind hbehind => ?_
    obtain rfl := afterOp?_eq_some_iff.1 hbehind
    exact hrest _ rfl (by decide)
  simp only [member, hmembers, ok_bind, designate_eq_inr_iff.2 ⟨rfl, hplain, v, hv, hndim⟩, hindex]
  rfl

variable {path : VarPath} {v : Variable}

theorem member_indexed (hplain : ∀ s ∈ path.owner, Family.ofName? s = none)
    (hv : names.definition.declared? path = some v) (hparts : ∀ p ∈ parts, names.Item p)
    (hne : parts ≠ []) (hndim : parts.length = v.ndim) (hn : 12 * (listed parts).length + 11 ≤ n)
    (rest : List Token) :
    member names (n + 1)
        (dotted path.segments ++ .ofOp "[" :: (listed parts ++ .ofOp "]" :: rest)) =
      .ok (.var path (parts.map (·.2)), rest) := by
  have hindexed : indexed path v.ndim (parts.map (·.2)) = .ok (.var path (parts.map (·.2))) :=
    indexed_eq_ok_iff.2 ⟨by simpa using hndim, rfl⟩
  simp only [member, members_before _ (show "[" ≠ "." by decide), ok_bind,
    designate_eq_inr_iff.2 ⟨rfl, hplain, v, hv, rfl⟩, afterOp?_self, indices_listed hparts hne hn,
    hindexed]
  rfl

theorem readAs_method {owner : List String} {name : String}
    (hplain : ∀ s ∈ owner ++ [name], Family.ofName? s = none)
    (hparts : ∀ p ∈ parts, names.Item p) (hcomma : EndsList parts comma) :
    names.ReadAs .operand (.ofName "self" :: (dotted (owner ++ [name]) ++
        .ofOp "(" :: (listed parts ++ (comma ++ [.ofOp ")"]))))
      (.call (.method owner name) (parts.map (·.2))) := by
  refine readAs_operand fun n rest hrest hn => ?_
  simp only [List.length_cons, List.length_append] at hn
  obtain ⟨m, rfl⟩ : ∃ m, n = m + 1 := ⟨n - 1, by omega⟩
  simp only [List.cons_append, List.append_assoc, List.nil_append]
  rw [operand_self, member_call hplain hparts hcomma (by simp only [List.length_append]; omega)]

theorem readAs_scalar (hplain : ∀ s ∈ path.owner, Family.ofName? s = none)
    (hv : names.definition.declared? path = some v) (hndim : v.ndim = 0) :
    names.ReadAs .operand (.ofName "self" :: dotted path.segments) (.var path []) := by
  refine readAs_operand fun n rest hrest hn => ?_
  simp only [List.length_cons] at hn
  obtain ⟨m, rfl⟩ : ∃ m, n = m + 1 := ⟨n - 1, by omega⟩
  have hsubset : [Token.ofOp ".", .ofOp "["] ⊆ Level.openers := by decide
  rw [List.cons_append, operand_self,
    member_var hplain hv hndim m fun t ht hmem => (hrest t ht).1 (hsubset hmem)]

theorem readAs_element (hplain : ∀ s ∈ path.owner, Family.ofName? s = none)
    (hv : names.definition.declared? path = some v) (hparts : ∀ p ∈ parts, names.Item p)
    (hne : parts ≠ []) (hndim : parts.length = v.ndim) :
    names.ReadAs .operand
      (.ofName "self" :: (dotted path.segments ++ .ofOp "[" :: (listed parts ++ [.ofOp "]"])))
      (.var path (parts.map (·.2))) := by
  refine readAs_operand fun n rest hrest hn => ?_
  simp only [List.length_cons, List.length_append] at hn
  obtain ⟨m, rfl⟩ : ∃ m, n = m + 1 := ⟨n - 1, by omega⟩
  simp only [List.cons_append, List.append_assoc, List.nil_append]
  rw [operand_self, member_indexed hplain hv hparts hne hndim (by omega)]

end Lists

/-- Tokens that are read as an expression of level `l` wherever they stand. At the levels of chains
they are the start of every longer chain. -/
structure Settles (names : Names) (l : Level) (ts : List Token) (e : Expr) : Prop where
  first : ∃ t us, ts = t :: us ∧ t ≠ .ofOp ")"
  readAs : names.ReadAs l ts e
  readInto : l.joins ≠ [] → names.ReadInto l ts e

namespace Settles

theorem item {p : List Token × Expr} (h : names.Settles .or p.1 p.2) : names.Item p := by
  obtain ⟨t, us, hp, ht⟩ := h.first
  refine ⟨h.readAs, fun rest => ?_⟩
  rw [hp]
  exact afterOp?_cons_eq_none ht _

theorem of_readAs {t : Token} (ht : t ≠ .ofOp ")") (hl : l.joins = [])
    (h : names.ReadAs l (t :: ts) e) : names.Settles l (t :: ts) e :=
  ⟨⟨t, ts, rfl, ht⟩, h, fun hne => absurd hl hne⟩

theorem tighten (hl : l ≠ .operand) (hmarks : ∀ t ∈ ts.head?, t ∉ l.marks)
    (h : names.Settles l.tighter ts e) : names.Settles l ts e := by
  obtain ⟨t, us, rfl, ht⟩ := h.first
  have hmark : t ∉ l.marks := hmarks t rfl
  by_cases hjoins : l.joins = []
  · refine of_readAs ht hjoins ?_
    cases l with
    | not =>
      exact h.readAs.not_tighten fun rest =>
        afterWord?_cons_eq_none (List.ne_of_not_mem_cons hmark) _
    | comparison => exact h.readAs.comparison_tighten
    | sign =>
      have hsigns : t ≠ .ofOp "-" ∧ t ≠ .ofOp "+" := by simpa [Level.marks] using hmark
      exact h.readAs.sign_tighten (fun rest => afterOp?_cons_eq_none hsigns.1 _)
        fun rest => afterOp?_cons_eq_none hsigns.2 _
    | power => exact h.readAs.power_tighten
    | operand => exact absurd rfl hl
    | or | and | sum | product => exact absurd hjoins (by decide)
  · have hinto := h.readAs.into hjoins (by simp)
    exact ⟨⟨t, us, rfl, ht⟩, hinto.readAs, fun _ => hinto⟩

theorem join {op : BinaryOp} (hop : op ∈ l.joins) (hleft : names.Settles l ts left)
    (hright : names.Settles l.tighter us right) :
    names.Settles l (ts ++ op.token :: us) (.binary op left right) := by
  have hinto := (hleft.readInto (List.ne_nil_of_mem hop)).join hop hright.readAs
  obtain ⟨t, ts', rfl, ht⟩ := hleft.first
  exact ⟨⟨t, _, rfl, ht⟩, hinto.readAs, fun _ => hinto⟩

end Settles

theorem closed_settles (names : Names) : names.Closed names.Settles where
  tighten := .tighten
  join := .join
  not h := .of_readAs (by decide) rfl h.readAs.not
  comparison hop hleft hright := by
    have hread := hleft.readAs.comparison hop hright.readAs
    obtain ⟨t, us, rfl, ht⟩ := hleft.first
    exact .of_readAs ht rfl hread
  minus h := .of_readAs (by decide) rfl h.readAs.minus
  plus h := .of_readAs (by decide) rfl h.readAs.plus
  power hbase hexponent := by
    have hread := hbase.readAs.power hexponent.readAs
    obtain ⟨t, us, rfl, ht⟩ := hbase.first
    exact .of_readAs ht rfl hread
  integer hplain hn := by
    refine .of_readAs (by simp [Token.ofOp]) rfl (readAs_operand fun n rest hrest hdepth => ?_)
    simp [operand, numberExpr?_eq_some_iff.2 (.inl ⟨hplain, _, hn, rfl⟩)]
  decimal hmark hx := by
    refine .of_readAs (by simp [Token.ofOp]) rfl (readAs_operand fun n rest hrest hdepth => ?_)
    simp [operand, numberExpr?_eq_some_iff.2 (.inr ⟨hmark, _, hx, rfl⟩)]
  truth := .of_readAs (by decide) rfl (readAs_operand fun n rest hrest hdepth => rfl)
  falsity := .of_readAs (by decide) rfl (readAs_operand fun n rest hrest hdepth => rfl)
  brackets h := .of_readAs (by decide) rfl (readAs_brackets h.readAs)
  loc hx hword := .of_readAs (by simp [Token.ofName, Token.ofOp]) rfl (readAs_loc hx hword)
  builtin hparts hcomma harity :=
    .of_readAs (by simp [Token.ofName, Token.ofOp]) rfl
      (readAs_builtin (fun p hp => (hparts p hp).item) hcomma harity)
  method hplain hparts hcomma :=
    .of_readAs (by decide) rfl (readAs_method hplain (fun p hp => (hparts p hp).item) hcomma)
  scalar hplain hv hndim := .of_readAs (by decide) rfl (readAs_scalar hplain hv hndim)
  element hplain hv hparts hne hndim :=
    .of_readAs (by decide) rfl
      (readAs_element hplain hv (fun p hp => (hparts p hp).item) hne hndim)

/-- What has a derivation is read so, if no local is named like a word with a meaning. -/
theorem Derives.settles (hnames : names.Proper) (h : names.Derives l ts e) :
    names.Settles l ts e := by
  have hclosed := closed_settles names
  induction h with
  | @tighten l ts e hl h ih =>
    obtain ⟨t, us, rfl, ht⟩ := h.head hnames
    refine hclosed.tighten hl (fun u hu hmark => ?_) ih
    obtain rfl : t = u := Option.some.inj hu
    exact ht (l.marks_subset_barred hmark)
  | join hop hleft hright ihl ihr => exact hclosed.join hop ihl ihr
  | not h ih => exact hclosed.not ih
  | comparison hop hleft hright ihl ihr => exact hclosed.comparison hop ihl ihr
  | minus h ih => exact hclosed.minus ih
  | plus h ih => exact hclosed.plus ih
  | power hbase hexponent ihb ihe => exact hclosed.power ihb ihe
  | integer hplain hn => exact hclosed.integer hplain hn
  | decimal hmark hx => exact hclosed.decimal hmark hx
  | truth => exact hclosed.truth
  | falsity => exact hclosed.falsity
  | brackets h ih => exact hclosed.brackets ih
  | @loc x hx =>
    obtain ⟨hself, hkeyword⟩ := hnames.of_isLocal hx
    have htrue : x ≠ "True" := fun h => hkeyword (h ▸ by decide)
    have hfalse : x ≠ "False" := fun h => hkeyword (h ▸ by decide)
    exact hclosed.loc hx (by simp [htrue, hfalse, hself])
  | builtin hparts hcomma harity ih => exact hclosed.builtin ih hcomma harity
  | method hplain hparts hcomma ih => exact hclosed.method hplain ih hcomma
  | scalar hplain hv hndim => exact hclosed.scalar hplain hv hndim
  | element hplain hv hparts hne hndim ih => exact hclosed.element hplain hv ih hne hndim

theorem Settles.ofTokens (h : names.Settles .or ts e) : Expr.ofTokens names ts = .ok e := by
  have hparse := h.readAs (parseDepth ts) [] Level.stops_nil
    (by simp only [Level.rank, parseDepth]; omega)
  obtain ⟨t, us, rfl, -⟩ := h.first
  rw [List.append_nil] at hparse
  exact ofTokens_of_parse (by simp) hparse

theorem Derives.ofTokens (hnames : names.Proper) (h : names.Derives .or ts e) :
    Expr.ofTokens names ts = .ok e :=
  (h.settles hnames).ofTokens

end Names

/-- The reader accepts exactly the expressions of the grammar, and no tokens make two of them. -/
theorem Expr.ofTokens_iff_derives {names : Names} (hnames : names.Proper) (ts : List Token) :
    (∀ e, ofTokens names ts = .ok e ↔ names.Derives .or ts e) ∧
      ∀ e e', names.Derives .or ts e → names.Derives .or ts e' → e = e' := by
  refine ⟨fun e => ⟨derives_of_ofTokens, fun h => h.ofTokens hnames⟩, fun e e' he he' => ?_⟩
  have hread := (he.ofTokens hnames).symm.trans (he'.ofTokens hnames)
  exact Except.ok.inj hread

def tank : Names where
  definition := { name := "tank", groups := [⟨.control, [{ name := "k", ndim := 1 }]⟩] }
  locals := [⟨"max", .float⟩]

/-- `-max ** 2 < self.parameters.control.k[0] and not max(max, 1,)` -/
def tankTokens : List Token :=
  [.ofOp "-", .ofName "max", .ofOp "**", ⟨.number, "2"⟩, .ofOp "<"] ++
  (.ofName "self" :: dotted ["parameters", "control", "k"]) ++
  [.ofOp "[", ⟨.number, "0"⟩, .ofOp "]", .ofName "and", .ofName "not", .ofName "max", .ofOp "(",
    .ofName "max", .ofOp ",", ⟨.number, "1"⟩, .ofOp ",", .ofOp ")"]

def tankExpr : Expr :=
  .binary .and
    (.binary .lt (.unary .neg (.binary .pow (.loc "max") (.int 2)))
      (.var ⟨[], .kind .control, "k"⟩ [.int 0]))
    (.unary .not (.call (.builtin .max) [.loc "max", .int 1]))

theorem tank_ofTokens_iff_derives :
    tank.Proper ∧ tank.Derives .or tankTokens tankExpr ∧
      ∀ e, tank.Derives .or tankTokens e → e = tankExpr := by
  have hproper : tank.Proper := by decide
  obtain ⟨hiff, hunique⟩ := Expr.ofTokens_iff_derives hproper tankTokens
  have hderives : tank.Derives .or tankTokens tankExpr := (hiff tankExpr).1 rfl
  exact ⟨hproper, hderives, fun e he => hunique e tankExpr he hderives⟩

end ProcessModel
