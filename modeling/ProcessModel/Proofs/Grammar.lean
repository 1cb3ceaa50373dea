import Mathlib.Data.List.Basic
import Mathlib.Data.List.TakeWhile
import ProcessModel.Proofs.Slots
import ProcessModel.Tree.StmtParser

/-! The grammar of expressions.

`Names.Derives` says which token lists make an expression, level by level: a derivation puts token
lists next to each other and knows nothing of how they are read. Whatever is read has a derivation. -/

namespace ProcessModel

namespace BinaryOp

def token : BinaryOp → Token
  | .and => .ofName "and"
  | .or => .ofName "or"
  | op => .ofOp op.symbol

theorem ofSymbol?_eq_some_iff {s : String} {op : BinaryOp} :
    ofSymbol? s = some op ↔ s = op.symbol := by
  constructor
  · intro h
    unfold ofSymbol? at h
    have hs := List.find?_some h
    exact (eq_of_beq hs).symm
  · rintro rfl
    cases op <;> rfl

theorem token_of_isComparison {op : BinaryOp} (h : op.isComparison = true) :
    op.token = .ofOp op.symbol := by
  cases op <;> first | rfl | cases h

end BinaryOp

variable {s : String}

theorem Builtin.ofName?_eq_some_iff {f : Builtin} : ofName? s = some f ↔ s = f.name := by
  constructor
  · intro h
    unfold ofName? at h
    have hs := List.find?_some h
    exact (eq_of_beq hs).symm
  · rintro rfl
    cases f <;> rfl

theorem Family.ofName?_eq_some_iff {f : Family} : ofName? s = some f ↔ s = f.name := by
  constructor
  · intro h
    unfold ofName? at h
    split_ifs at h with hparameters hsequences
    · cases h
      exact hparameters
    · cases h
      exact hsequences
  · rintro rfl
    cases f <;> rfl

theorem GroupKind.ofName?_eq_some {k : GroupKind} (h : ofName? s = some k) : s = k.name := by
  unfold ofName? at h
  have hs := List.find?_some h
  exact (eq_of_beq hs).symm

theorem GroupRef.ofName?_eq_some_iff {f : Family} {g : GroupRef} :
    ofName? f s = some g ↔ f = g.family ∧ s = g.name := by
  constructor
  · intro h
    unfold ofName? at h
    split_ifs at h with hold
    · cases h
      exact hold
    · obtain ⟨k, hk, rfl⟩ := Option.map_eq_some_iff.1 h
      obtain ⟨hk, hfamily⟩ := Option.filter_eq_some_iff.1 hk
      exact ⟨(of_decide_eq_true hfamily).symm, GroupKind.ofName?_eq_some hk⟩
  · rintro ⟨rfl, rfl⟩
    cases g with
    | oldStates => rfl
    | kind k => cases k <;> rfl

namespace Level

/-- The operators that join expressions of a level from the left. -/
def joins : Level → List BinaryOp
  | .or => [.or]
  | .and => [.and]
  | .sum => [.add, .sub]
  | .product => [.mul, .div, .floorDiv, .mod]
  | _ => []

theorem operator?_eq_some_iff {l : Level} {t : Token} {op : BinaryOp} :
    l.operator? t = some op ↔ op ∈ l.joins ∧ t = op.token := by
  constructor
  · intro h
    obtain ⟨kind, text⟩ := t
    unfold operator? at h
    split at h
    case h_9 => cases h
    all_goals
      cases h
      rename_i hkind hsymbol
      obtain rfl : kind = _ := hkind
      obtain rfl : text = _ := BinaryOp.ofSymbol?_eq_some_iff.1 hsymbol
      exact ⟨by decide, rfl⟩
  · rintro ⟨hop, rfl⟩
    cases l <;> simp only [joins, List.mem_cons, List.not_mem_nil, or_false] at hop
    case or | and => subst hop; rfl
    case sum => rcases hop with rfl | rfl <;> rfl
    case product => rcases hop with rfl | rfl | rfl | rfl <;> rfl

end Level

theorem Token.isOp_iff {t : Token} : t.isOp s = true ↔ t = .ofOp s := by
  obtain ⟨kind, text⟩ := t
  simp [isOp, ofOp]

theorem Token.isName_iff {t : Token} : t.isName s = true ↔ t = .ofName s := by
  obtain ⟨kind, text⟩ := t
  simp [isName, ofName]

variable {ts rest : List Token}

theorem afterOp?_eq_some_iff {op : String} :
    afterOp? op ts = some rest ↔ ts = .ofOp op :: rest := by
  cases ts with
  | nil => simp [afterOp?]
  | cons t ts =>
    simp only [afterOp?, Option.ite_none_right_eq_some, Token.isOp_iff, Option.some.injEq,
      List.cons.injEq]

theorem afterWord?_eq_some_iff {word : String} :
    afterWord? word ts = some rest ↔ ts = .ofName word :: rest := by
  cases ts with
  | nil => simp [afterWord?]
  | cons t ts =>
    simp only [afterWord?, Option.ite_none_right_eq_some, Token.isName_iff, Option.some.injEq,
      List.cons.injEq]

@[simp] theorem afterOp?_self (op : String) (rest : List Token) :
    afterOp? op (.ofOp op :: rest) = some rest :=
  afterOp?_eq_some_iff.2 rfl

@[simp] theorem afterWord?_self (word : String) (rest : List Token) :
    afterWord? word (.ofName word :: rest) = some rest :=
  afterWord?_eq_some_iff.2 rfl

theorem comparison?_eq_some_iff {op : BinaryOp} :
    comparison? ts = some (op, rest) ↔ op.isComparison = true ∧ ts = op.token :: rest := by
  cases ts with
  | nil => simp [comparison?]
  | cons t ts =>
    obtain ⟨kind, text⟩ := t
    simp only [comparison?, Option.ite_none_right_eq_some, Option.map_eq_some_iff,
      Option.filter_eq_some_iff, BinaryOp.ofSymbol?_eq_some_iff, Prod.mk.injEq, List.cons.injEq]
    constructor
    · rintro ⟨rfl, op', ⟨rfl, hop⟩, rfl, rfl⟩
      exact ⟨hop, (BinaryOp.token_of_isComparison hop).symm, rfl⟩
    · rintro ⟨hop, htoken, rfl⟩
      rw [BinaryOp.token_of_isComparison hop] at htoken
      cases htoken
      exact ⟨rfl, op, ⟨rfl, hop⟩, rfl, rfl⟩

def dotted (chain : List String) : List Token := chain.flatMap fun s => [.ofOp ".", .ofName s]

@[simp] theorem dotted_nil : dotted [] = [] := rfl

@[simp] theorem dotted_cons (s : String) (chain : List String) :
    dotted (s :: chain) = .ofOp "." :: .ofName s :: dotted chain := rfl

def VarPath.segments (p : VarPath) : List String :=
  p.owner ++ [p.group.family.name, p.group.name, p.name]

def listed (parts : List (List Token × Expr)) : List Token :=
  [Token.ofOp ","].intercalate (parts.map (·.1))

@[simp] theorem listed_nil : listed [] = [] := rfl

@[simp] theorem listed_singleton (part : List Token × Expr) : listed [part] = part.1 :=
  List.intercalate_singleton

@[simp] theorem listed_cons_cons (part next : List Token × Expr)
    (parts : List (List Token × Expr)) :
    listed (part :: next :: parts) = part.1 ++ .ofOp "," :: listed (next :: parts) := by
  simp [listed, List.intercalate_cons_cons]

/-- A comma may stand behind the last argument of a call. -/
def EndsList (parts : List (List Token × Expr)) (comma : List Token) : Prop :=
  comma = [] ∨ parts ≠ [] ∧ comma = [.ofOp ","]

/-- The expressions of a level that token lists make. -/
inductive Names.Derives (names : Names) : Level → List Token → Expr → Prop
  | tighten {l ts e} (hl : l ≠ .operand) (h : Derives names l.tighter ts e) : Derives names l ts e
  | join {l op ts us left right} (hop : op ∈ l.joins) (hleft : Derives names l ts left)
      (hright : Derives names l.tighter us right) :
      Derives names l (ts ++ op.token :: us) (.binary op left right)
  | not {ts e} (h : Derives names .not ts e) :
      Derives names .not (.ofName "not" :: ts) (.unary .not e)
  /-- Comparisons do not join: both sides are sums. -/
  | comparison {op ts us left right} (hop : op.isComparison = true)
      (hleft : Derives names .sum ts left) (hright : Derives names .sum us right) :
      Derives names .comparison (ts ++ op.token :: us) (.binary op left right)
  | minus {ts e} (h : Derives names .sign ts e) :
      Derives names .sign (.ofOp "-" :: ts) (.unary .neg e)
  | plus {ts e} (h : Derives names .sign ts e) :
      Derives names .sign (.ofOp "+" :: ts) (.unary .pos e)
  /-- A sign before a power applies to the power, one before the exponent to the exponent. -/
  | power {ts us base exponent} (hbase : Derives names .operand ts base)
      (hexponent : Derives names .sign us exponent) :
      Derives names .power (ts ++ .ofOp "**" :: us) (.binary .pow base exponent)
  | integer {text n} (hplain : ∀ c ∈ text.toList, c ∉ ['.', 'e', 'E'])
      (hn : Decimal.int64? text = some n) : Derives names .operand [⟨.number, text⟩] (.int n)
  | decimal {text x} (hmark : ∃ c ∈ text.toList, c ∈ ['.', 'e', 'E'])
      (hx : Decimal.float? text = some x) :
      Derives names .operand [⟨.number, text⟩] (.float x text)
  | truth : Derives names .operand [.ofName "True"] (.bool true)
  | falsity : Derives names .operand [.ofName "False"] (.bool false)
  | brackets {ts e} (h : Derives names .or ts e) :
      Derives names .operand (.ofOp "(" :: (ts ++ [.ofOp ")"])) e
  /-- No rule puts a bracket behind an operand, so locals are neither called nor indexed. -/
  | loc {x} (hx : names.isLocal x = true) : Derives names .operand [.ofName x] (.loc x)
  | builtin {f parts comma} (hparts : ∀ p ∈ parts, Derives names .or p.1 p.2)
      (hcomma : EndsList parts comma) (harity : parts.length = f.arity) :
      Derives names .operand
        (.ofName f.name :: .ofOp "(" :: (listed parts ++ (comma ++ [.ofOp ")"])))
        (.call (.builtin f) (parts.map (·.2)))
  | method {owner name parts comma} (hplain : ∀ s ∈ owner ++ [name], Family.ofName? s = none)
      (hparts : ∀ p ∈ parts, Derives names .or p.1 p.2) (hcomma : EndsList parts comma) :
      Derives names .operand
        (.ofName "self" :: (dotted (owner ++ [name]) ++
          .ofOp "(" :: (listed parts ++ (comma ++ [.ofOp ")"]))))
        (.call (.method owner name) (parts.map (·.2)))
  | scalar {path v} (hplain : ∀ s ∈ path.owner, Family.ofName? s = none)
      (hv : names.definition.declared? path = some v) (hndim : v.ndim = 0) :
      Derives names .operand (.ofName "self" :: dotted path.segments) (.var path [])
  | element {path v parts} (hplain : ∀ s ∈ path.owner, Family.ofName? s = none)
      (hv : names.definition.declared? path = some v)
      (hparts : ∀ p ∈ parts, Derives names .or p.1 p.2) (hne : parts ≠ [])
      (hndim : parts.length = v.ndim) :
      Derives names .operand
        (.ofName "self" :: (dotted path.segments ++ .ofOp "[" :: (listed parts ++ [.ofOp "]"])))
        (.var path (parts.map (·.2)))

/-- The tokens that expressions of a level may start with and those of tighter levels may not. -/
def Level.marks : Level → List Token
  | .not => [.ofName "not"]
  | .sign => [.ofOp "-", .ofOp "+"]
  | _ => []

/-- A relation that is closed under the rules of the grammar, as far as they are applied in reading:
a level is passed over where none of its marks stands, and a word that is read otherwise is not read
as a local. -/
structure Names.Closed (names : Names) (P : Level → List Token → Expr → Prop) : Prop where
  tighten : ∀ {l ts e}, l ≠ .operand → (∀ t ∈ ts.head?, t ∉ l.marks) → P l.tighter ts e → P l ts e
  join : ∀ {l op ts us left right}, op ∈ l.joins → P l ts left → P l.tighter us right →
    P l (ts ++ op.token :: us) (.binary op left right)
  not : ∀ {ts e}, P .not ts e → P .not (.ofName "not" :: ts) (.unary .not e)
  comparison : ∀ {op ts us left right}, op.isComparison = true → P .sum ts left → P .sum us right →
    P .comparison (ts ++ op.token :: us) (.binary op left right)
  minus : ∀ {ts e}, P .sign ts e → P .sign (.ofOp "-" :: ts) (.unary .neg e)
  plus : ∀ {ts e}, P .sign ts e → P .sign (.ofOp "+" :: ts) (.unary .pos e)
  power : ∀ {ts us base exponent}, P .operand ts base → P .sign us exponent →
    P .power (ts ++ .ofOp "**" :: us) (.binary .pow base exponent)
  integer : ∀ {text n}, (∀ c ∈ text.toList, c ∉ ['.', 'e', 'E']) →
    Decimal.int64? text = some n → P .operand [⟨.number, text⟩] (.int n)
  decimal : ∀ {text x}, (∃ c ∈ text.toList, c ∈ ['.', 'e', 'E']) →
    Decimal.float? text = some x → P .operand [⟨.number, text⟩] (.float x text)
  truth : P .operand [.ofName "True"] (.bool true)
  falsity : P .operand [.ofName "False"] (.bool false)
  brackets : ∀ {ts e}, P .or ts e → P .operand (.ofOp "(" :: (ts ++ [.ofOp ")"])) e
  loc : ∀ {x}, names.isLocal x = true → x ∉ ["True", "False", "self"] →
    P .operand [.ofName x] (.loc x)
  builtin : ∀ {f parts comma}, (∀ p ∈ parts, P .or p.1 p.2) → EndsList parts comma →
    parts.length = f.arity →
      P .operand (.ofName f.name :: .ofOp "(" :: (listed parts ++ (comma ++ [.ofOp ")"])))
        (.call (.builtin f) (parts.map (·.2)))
  method : ∀ {owner name parts comma}, (∀ s ∈ owner ++ [name], Family.ofName? s = none) →
    (∀ p ∈ parts, P .or p.1 p.2) → EndsList parts comma →
      P .operand (.ofName "self" :: (dotted (owner ++ [name]) ++
          .ofOp "(" :: (listed parts ++ (comma ++ [.ofOp ")"]))))
        (.call (.method owner name) (parts.map (·.2)))
  scalar : ∀ {path v}, (∀ s ∈ path.owner, Family.ofName? s = none) →
    names.definition.declared? path = some v → v.ndim = 0 →
      P .operand (.ofName "self" :: dotted path.segments) (.var path [])
  element : ∀ {path v parts}, (∀ s ∈ path.owner, Family.ofName? s = none) →
    names.definition.declared? path = some v → (∀ p ∈ parts, P .or p.1 p.2) → parts ≠ [] →
    parts.length = v.ndim →
      P .operand
        (.ofName "self" :: (dotted path.segments ++ .ofOp "[" :: (listed parts ++ [.ofOp "]"])))
        (.var path (parts.map (·.2)))

theorem Names.closed_derives (names : Names) : names.Closed names.Derives where
  tighten hl _ h := .tighten hl h
  join := .join
  not := .not
  comparison := .comparison
  minus := .minus
  plus := .plus
  power := .power
  integer := .integer
  decimal := .decimal
  truth := .truth
  falsity := .falsity
  brackets := .brackets
  loc hx _ := .loc hx
  builtin := .builtin
  method := .method
  scalar := .scalar
  element := .element

/-- A property of token lists that all rules of the grammar keep, whatever the tokens mean. -/
structure Spliced (P : List Token → Prop) : Prop where
  nil : P []
  append : ∀ {ts us : List Token}, P ts → P us → P (ts ++ us)
  number : ∀ text, P [⟨.number, text⟩]
  path : ∀ x chain, P (.ofName x :: dotted chain)
  operator : ∀ op : BinaryOp, P [op.token]
  comma : P [.ofOp ","]
  brackets : ∀ {ts : List Token}, P ts → P (.ofOp "(" :: (ts ++ [.ofOp ")"]))
  index : ∀ {ts : List Token}, P ts → P (.ofOp "[" :: (ts ++ [.ofOp "]"]))

namespace Spliced

variable {P : List Token → Prop} {parts : List (List Token × Expr)}

theorem listed (hP : Spliced P) (h : ∀ p ∈ parts, P p.1) : P (listed parts) := by
  induction parts with
  | nil => exact hP.nil
  | cons part parts ih =>
    rw [List.forall_mem_cons] at h
    cases parts with
    | nil => simpa using h.1
    | cons next parts =>
      rw [listed_cons_cons]
      exact hP.append h.1 (hP.append hP.comma (ih h.2))

theorem arguments (hP : Spliced P) {comma : List Token} (h : ∀ p ∈ parts, P p.1)
    (hcomma : EndsList parts comma) :
    P (.ofOp "(" :: (ProcessModel.listed parts ++ (comma ++ [.ofOp ")"]))) := by
  have hend : P comma := by
    rcases hcomma with rfl | ⟨-, rfl⟩
    · exact hP.nil
    · exact hP.comma
  rw [← List.append_assoc]
  exact hP.brackets (hP.append (hP.listed h) hend)

theorem of_derives (hP : Spliced P) {names : Names} {l : Level} {ts : List Token} {e : Expr}
    (h : names.Derives l ts e) : P ts := by
  have hname (x : String) : P [.ofName x] := hP.path x []
  induction h with
  | tighten hl h ih => exact ih
  | join hop hleft hright ihl ihr => exact hP.append ihl (hP.append (hP.operator _) ihr)
  | not h ih => exact hP.append (hname _) ih
  | comparison hop hleft hright ihl ihr => exact hP.append ihl (hP.append (hP.operator _) ihr)
  | minus h ih => exact hP.append (hP.operator .sub) ih
  | plus h ih => exact hP.append (hP.operator .add) ih
  | power hbase hexponent ihb ihe => exact hP.append ihb (hP.append (hP.operator .pow) ihe)
  | integer hplain hn => exact hP.number _
  | decimal hmark hx => exact hP.number _
  | truth => exact hname _
  | falsity => exact hname _
  | brackets h ih => exact hP.brackets ih
  | loc hx => exact hname _
  | builtin hparts hcomma harity ih => exact hP.append (hname _) (hP.arguments ih hcomma)
  | method hplain hparts hcomma ih => exact hP.append (hP.path _ _) (hP.arguments ih hcomma)
  | scalar hplain hv hndim => exact hP.path _ _
  | element hplain hv hparts hne hndim ih =>
    exact hP.append (hP.path _ _) (hP.index (hP.listed ih))

end Spliced

variable {e : Expr}

theorem numberExpr?_eq_some_iff {text : String} : numberExpr? text = some e ↔
    (∀ c ∈ text.toList, c ∉ ['.', 'e', 'E']) ∧ (∃ n, Decimal.int64? text = some n ∧ .int n = e) ∨
    (∃ c ∈ text.toList, c ∈ ['.', 'e', 'E']) ∧
      ∃ x, Decimal.float? text = some x ∧ .float x text = e := by
  have hany : (text.toList.any fun c => c == '.' || c == 'e' || c == 'E') = true ↔
      ∃ c ∈ text.toList, c ∈ ['.', 'e', 'E'] := by
    simp [or_assoc]
  unfold numberExpr?
  by_cases hmark : ∃ c ∈ text.toList, c ∈ ['.', 'e', 'E']
  · rw [if_pos (hany.2 hmark), Option.map_eq_some_iff]
    constructor
    · exact fun h => .inr ⟨hmark, h⟩
    · rintro (⟨hplain, -⟩ | ⟨-, h⟩)
      · obtain ⟨c, hc, hmarked⟩ := hmark
        exact absurd hmarked (hplain c hc)
      · exact h
  · rw [if_neg (mt hany.1 hmark), Option.map_eq_some_iff]
    constructor
    · exact fun h => .inl ⟨fun c hc hmarked => hmark ⟨c, hc, hmarked⟩, h⟩
    · rintro (⟨-, h⟩ | ⟨hmarked, -⟩)
      · exact h
      · exact absurd hmarked hmark

theorem members_eq_ok {chain : List String} (h : members ts = .ok (chain, rest)) :
    ts = dotted chain ++ rest := by
  fun_induction members ts generalizing chain with
  | case1 => cases h; rfl
  | case2 d hd => cases h
  | case3 d hd => cases h; rfl
  | case4 d t ts hd ht ih =>
    obtain ⟨r, hr, h⟩ := bind_eq_ok h
    cases h
    obtain rfl := Token.isOp_iff.1 hd
    obtain ⟨kind, text⟩ := t
    obtain rfl : kind = .name := ht
    rw [ih hr]
    rfl
  | case5 d t ts hd ht => cases h
  | case6 d t ts hd => cases h; rfl

theorem members_dotted (chain : List String) (hrest : ∀ t ∈ rest.head?, t ≠ .ofOp ".") :
    members (dotted chain ++ rest) = .ok (chain, rest) := by
  induction chain with
  | nil =>
    cases rest with
    | nil => rfl
    | cons t rest =>
      have ht : ¬ t.isOp "." = true := fun h => hrest t rfl (Token.isOp_iff.1 h)
      cases rest <;> simp [members, ht]
  | cons s chain ih =>
    simp only [dotted_cons, List.cons_append, members, Token.isOp_iff.2 rfl, if_true, ih]
    rfl

section Designate

variable {d : Definition} {chain : List String}

theorem takeWhile_append_drop (chain : List String) (p : String → Bool) :
    chain.takeWhile p ++ chain.drop (chain.takeWhile p).length = chain :=
  List.prefix_iff_eq_append.1 (List.takeWhile_prefix p)

theorem plain_of_mem_takeWhile {s : String}
    (h : s ∈ chain.takeWhile fun s => (Family.ofName? s).isNone) : Family.ofName? s = none := by
  have hs := List.mem_takeWhile_imp h
  exact Option.isNone_iff_eq_none.1 hs

theorem designate_eq_inl_iff {owner : List String} {name : String} :
    designate d chain = .ok (.inl (owner, name)) ↔
      chain = owner ++ [name] ∧ ∀ s ∈ chain, Family.ofName? s = none := by
  have hsplit := takeWhile_append_drop chain fun s => (Family.ofName? s).isNone
  constructor
  · intro h
    unfold designate at h
    dsimp only at h
    split at h
    · rename_i hrest
      rw [hrest, List.append_nil] at hsplit
      split at h
      · cases h
      · rename_i last hlast
        cases h
        refine ⟨(List.dropLast_append_getLast? _ hlast).symm, fun s hs => ?_⟩
        rw [← hsplit] at hs
        exact plain_of_mem_takeWhile hs
    · repeat' split at h
      all_goals cases h
    · cases h
  · rintro ⟨rfl, hplain⟩
    have htake :
        ((owner ++ [name]).takeWhile fun s => (Family.ofName? s).isNone) = owner ++ [name] :=
      List.takeWhile_eq_self_iff.2 fun s hs => Option.isNone_iff_eq_none.2 (hplain s hs)
    simp only [designate, htake, List.drop_length, List.getLast?_concat, List.dropLast_concat]

theorem designate_eq_inr_iff {path : VarPath} {ndim : Nat} :
    designate d chain = .ok (.inr (path, ndim)) ↔
      chain = path.segments ∧ (∀ s ∈ path.owner, Family.ofName? s = none) ∧
        ∃ v, d.declared? path = some v ∧ v.ndim = ndim := by
  have hsplit := takeWhile_append_drop chain fun s => (Family.ofName? s).isNone
  constructor
  · intro h
    unfold designate at h
    dsimp only at h
    split at h
    · split at h <;> cases h
    · rename_i f g name hrest
      split at h
      · cases h
      · rename_i family hf
        split at h
        · cases h
        · rename_i group hg
          split at h
          · cases h
          · rename_i v hv
            cases h
            obtain rfl := Family.ofName?_eq_some_iff.1 hf
            obtain ⟨rfl, rfl⟩ := GroupRef.ofName?_eq_some_iff.1 hg
            rw [hrest] at hsplit
            exact ⟨hsplit.symm, fun s hs => plain_of_mem_takeWhile hs, v, hv, rfl⟩
    · cases h
  · obtain ⟨owner, group, name⟩ := path
    rintro ⟨rfl, hplain, v, hv, rfl⟩
    have hfamily : Family.ofName? group.family.name = some group.family :=
      Family.ofName?_eq_some_iff.2 rfl
    have htake : ((VarPath.segments ⟨owner, group, name⟩).takeWhile
        fun s => (Family.ofName? s).isNone) = owner := by
      rw [VarPath.segments, List.takeWhile_append_of_pos
        fun s hs => Option.isNone_iff_eq_none.2 (hplain s hs)]
      simp [hfamily]
    have hdrop : (VarPath.segments ⟨owner, group, name⟩).drop owner.length =
        [group.family.name, group.name, name] := List.drop_left
    simp only [Definition.declared?] at hv
    simp only [designate, htake, hdrop, hfamily, GroupRef.ofName?_eq_some_iff.2 ⟨rfl, rfl⟩, hv]

end Designate

theorem builtinCall_eq_ok_iff {name : String} {f : Builtin} {args : List Expr} :
    builtinCall name f args = .ok e ↔ args.length = f.arity ∧ .call (.builtin f) args = e := by
  unfold builtinCall
  split_ifs with h <;> simp [h]

theorem indexed_eq_ok_iff {path : VarPath} {ndim : Nat} {indices : List Expr} :
    indexed path ndim indices = .ok e ↔ indices.length = ndim ∧ .var path indices = e := by
  unfold indexed
  split_ifs with h <;> simp [h]

namespace Names

variable {names : Names} {P : Level → List Token → Expr → Prop}

def Reads (P : Level → List Token → Expr → Prop) (l : Level) (ts : List Token)
    (r : Expr × List Token) : Prop :=
  ∃ used, ts = used ++ r.2 ∧ P l used r.1

def Lists (P : Level → List Token → Expr → Prop) (parts : List (List Token × Expr))
    (es : List Expr) : Prop :=
  (∀ p ∈ parts, P .or p.1 p.2) ∧ parts.map (·.2) = es

theorem lists_nil : Lists P [] [] := by simp [Lists]

variable {ts : List Token}

theorem Lists.cons {parts : List (List Token × Expr)} {es : List Expr} {e : Expr}
    (h : Lists P parts es) (he : P .or ts e) : Lists P ((ts, e) :: parts) (e :: es) := by
  refine ⟨fun p hp => ?_, congrArg (e :: ·) h.2⟩
  rcases List.mem_cons.1 hp with rfl | hp
  · exact he
  · exact h.1 p hp

theorem Reads.tighten (hP : names.Closed P) {l : Level} (hl : l ≠ .operand)
    (hmarks : ∀ t ∈ ts.head?, t ∉ l.marks) {r : Expr × List Token} (h : Reads P l.tighter ts r) :
    Reads P l ts r := by
  obtain ⟨used, rfl, hused⟩ := h
  refine ⟨used, rfl, hP.tighten hl (fun t ht => hmarks t ?_) hused⟩
  simp [List.head?_append, Option.mem_def.1 ht]

theorem not_marked_of_afterWord? {word : String} (h : afterWord? word ts = none) :
    ∀ t ∈ ts.head?, t ≠ .ofName word := by
  rintro t ht rfl
  obtain ⟨rest, rfl⟩ := List.head?_eq_some_iff.1 ht
  simp at h

theorem not_marked_of_afterOp? {op : String} (h : afterOp? op ts = none) :
    ∀ t ∈ ts.head?, t ≠ .ofOp op := by
  rintro t ht rfl
  obtain ⟨rest, rfl⟩ := List.head?_eq_some_iff.1 ht
  simp at h

end Names

namespace Expr

open ProcessModel.Names

/-- What each function of the reader has read at depth `n`, for a relation that is closed under the
rules. -/
structure ReaderDerives (names : Names) (P : Level → List Token → Expr → Prop) (n : Nat) : Prop where
  parse : ∀ l ts, Yields (Reads P l ts) (parse names n l ts)
  chain : ∀ l read left ts, P l read left →
    Yields (Reads P l (read ++ ts)) (chain names n l left ts)
  operand : ∀ ts, Yields (Reads P .operand ts) (operand names n ts)
  member : ∀ ts, Yields (Reads P .operand (.ofName "self" :: ts)) (member names n ts)
  arguments : ∀ ts, Yields (fun r => ∃ parts comma, Lists P parts r.1 ∧ EndsList parts comma ∧
    ts = listed parts ++ (comma ++ .ofOp ")" :: r.2)) (arguments names n ts)
  indices : ∀ ts, Yields (fun r => ∃ parts, Lists P parts r.1 ∧ parts ≠ [] ∧
    ts = listed parts ++ .ofOp "]" :: r.2) (indices names n ts)

variable {names : Names} {P : Level → List Token → Expr → Prop} {n : Nat}

section

variable (hP : names.Closed P) (h : ReaderDerives names P n)
include hP h

theorem parse_reads (l : Level) (ts : List Token) :
    Yields (Reads P l ts) (parse names (n + 1) l ts) := by
  have hchain : ∀ k, k ≠ .operand → k.marks = [] → Yields (Reads P k ts)
      (parse names n k.tighter ts >>= fun r => Expr.chain names n k r.1 r.2) := by
    intro k hk hmarks
    refine yields_bind (h.parse _ _) fun r hr => ?_
    obtain ⟨used, rfl, hused⟩ := hr
    exact h.chain _ _ _ _ (hP.tighten hk (by simp [hmarks]) hused)
  cases l with
  | or => exact hchain .or (by decide) rfl
  | and => exact hchain .and (by decide) rfl
  | sum => exact hchain .sum (by decide) rfl
  | product => exact hchain .product (by decide) rfl
  | not =>
    simp only [Expr.parse]
    split
    · rename_i rest hnot
      obtain rfl := afterWord?_eq_some_iff.1 hnot
      refine yields_bind (h.parse _ _) fun r hr => yields_pure ?_
      obtain ⟨used, rfl, hused⟩ := hr
      exact ⟨_, rfl, hP.not hused⟩
    · rename_i hnot
      have hmarks : ∀ t ∈ ts.head?, t ∉ Level.not.marks := by
        simpa [Level.marks] using not_marked_of_afterWord? hnot
      exact fun r hr => .tighten hP (l := .not) (by decide) hmarks (h.parse .comparison ts r hr)
  | comparison =>
    refine yields_bind (h.parse _ _) fun r hr => ?_
    dsimp only
    split
    · exact yields_pure (.tighten hP (l := .comparison) (by decide) (by simp [Level.marks]) hr)
    · rename_i op rest hrest
      obtain ⟨used, rfl, hleft⟩ := hr
      obtain ⟨hop, hrest⟩ := comparison?_eq_some_iff.1 hrest
      refine yields_bind (h.parse _ _) fun q hq => yields_refuse (yields_pure ?_)
      obtain ⟨used', rfl, hright⟩ := hq
      exact ⟨_, by simp [hrest], hP.comparison hop hleft hright⟩
  | sign =>
    simp only [Expr.parse]
    split
    · rename_i rest hsign
      obtain rfl := afterOp?_eq_some_iff.1 hsign
      refine yields_bind (h.parse _ _) fun r hr => yields_pure ?_
      obtain ⟨used, rfl, hused⟩ := hr
      exact ⟨_, rfl, hP.minus hused⟩
    · rename_i rest _ hsign
      obtain rfl := afterOp?_eq_some_iff.1 hsign
      refine yields_bind (h.parse _ _) fun r hr => yields_pure ?_
      obtain ⟨used, rfl, hused⟩ := hr
      exact ⟨_, rfl, hP.plus hused⟩
    · rename_i hminus hplus
      have hmarks : ∀ t ∈ ts.head?, t ∉ Level.sign.marks := by
        intro t ht
        simp [Level.marks, not_marked_of_afterOp? hminus t ht, not_marked_of_afterOp? hplus t ht]
      exact fun r hr => .tighten hP (l := .sign) (by decide) hmarks (h.parse .power ts r hr)
  | power =>
    refine yields_bind (h.parse _ _) fun r hr => ?_
    dsimp only
    split
    · exact yields_pure (.tighten hP (l := .power) (by decide) (by simp [Level.marks]) hr)
    · rename_i rest hop
      obtain ⟨used, rfl, hbase⟩ := hr
      refine yields_bind (h.parse _ _) fun q hq => yields_pure ?_
      obtain ⟨used', rfl, hexponent⟩ := hq
      exact ⟨_, by simp [afterOp?_eq_some_iff.1 hop], hP.power hbase hexponent⟩
  | operand => exact h.operand ts

theorem chain_reads (l : Level) (read : List Token) (left : Expr) (ts : List Token)
    (hleft : P l read left) : Yields (Reads P l (read ++ ts)) (chain names (n + 1) l left ts) := by
  cases ts with
  | nil => exact yields_ok ⟨read, rfl, hleft⟩
  | cons t rest =>
    simp only [Expr.chain]
    split
    · exact yields_ok ⟨read, rfl, hleft⟩
    · rename_i op ht
      obtain ⟨hop, rfl⟩ := Level.operator?_eq_some_iff.1 ht
      refine yields_bind (h.parse _ _) fun r hr => ?_
      obtain ⟨used, rfl, hright⟩ := hr
      simpa using h.chain _ _ _ r.2 (hP.join hop hleft hright)

theorem operand_reads (ts : List Token) :
    Yields (Reads P .operand ts) (operand names (n + 1) ts) := by
  cases ts with
  | nil => exact yields_error _
  | cons t rest =>
    obtain ⟨kind, text⟩ := t
    simp only [Expr.operand]
    cases kind with
    | number =>
      dsimp only
      split
      · rename_i e he
        refine yields_ok ⟨[⟨.number, text⟩], rfl, ?_⟩
        rcases numberExpr?_eq_some_iff.1 he with ⟨hplain, m, hm, rfl⟩ | ⟨hmark, x, hx, rfl⟩
        · exact hP.integer hplain hm
        · exact hP.decimal hmark hx
      · exact yields_error _
    | op =>
      dsimp only
      split_ifs with htext
      · subst htext
        refine yields_bind (h.parse _ _) fun r hr => ?_
        split
        · rename_i rest' hclose
          obtain ⟨used, rfl, hused⟩ := hr
          refine yields_pure ⟨_, ?_, hP.brackets hused⟩
          simp [afterOp?_eq_some_iff.1 hclose, Token.ofOp]
        · exact yields_throw _
      · exact yields_error _
    | name =>
      dsimp only
      split
      · subst text
        exact yields_ok ⟨_, rfl, hP.truth⟩
      split
      · subst text
        exact yields_ok ⟨_, rfl, hP.falsity⟩
      split
      · subst text
        exact h.member rest
      · split
        · rename_i inner hopen
          obtain rfl := afterOp?_eq_some_iff.1 hopen
          split
          · exact yields_error _
          · rename_i f hf
            obtain rfl := Builtin.ofName?_eq_some_iff.1 hf
            refine yields_bind (h.arguments _) fun r hr => ?_
            obtain ⟨args, rest⟩ := r
            obtain ⟨parts, comma, ⟨hparts, rfl⟩, hcomma, rfl⟩ := hr
            intro q hq
            obtain ⟨e, he, hq⟩ := bind_eq_ok hq
            cases hq
            obtain ⟨harity, rfl⟩ := builtinCall_eq_ok_iff.1 he
            rw [List.length_map] at harity
            refine ⟨_, ?_, hP.builtin hparts hcomma harity⟩
            simp [Token.ofName]
        · split_ifs with hindex hlocal
          · exact yields_error _
          · exact yields_ok ⟨_, rfl, hP.loc hlocal (by simp [*])⟩
          · exact yields_error _
    | str => exact yields_error _

theorem member_reads (ts : List Token) :
    Yields (Reads P .operand (.ofName "self" :: ts)) (member names (n + 1) ts) := by
  intro r hmember
  obtain ⟨⟨segments, rest⟩, hsegments, hbehind⟩ := bind_eq_ok hmember
  obtain rfl := members_eq_ok hsegments
  dsimp only at hbehind
  obtain ⟨meaning, hmeaning, hr⟩ := bind_eq_ok hbehind
  rcases meaning with ⟨owner, name⟩ | ⟨path, ndim⟩
  · obtain ⟨rfl, hplain⟩ := designate_eq_inl_iff.1 hmeaning
    dsimp only at hr
    split at hr
    · cases hr
    · rename_i inner hopen
      obtain rfl := afterOp?_eq_some_iff.1 hopen
      obtain ⟨⟨args, rest⟩, hargs, hcall⟩ := bind_eq_ok hr
      cases hcall
      obtain ⟨parts, comma, ⟨hparts, rfl⟩, hcomma, rfl⟩ := h.arguments _ _ hargs
      refine ⟨_, ?_, hP.method hplain hparts hcomma⟩
      simp
  · obtain ⟨rfl, hplain, v, hv, rfl⟩ := designate_eq_inr_iff.1 hmeaning
    dsimp only at hr
    split at hr
    · obtain ⟨e, he, hvar⟩ := bind_eq_ok hr
      cases hvar
      obtain ⟨hndim, rfl⟩ := indexed_eq_ok_iff.1 he
      exact ⟨_, rfl, hP.scalar hplain hv hndim.symm⟩
    · rename_i inner hopen
      obtain rfl := afterOp?_eq_some_iff.1 hopen
      obtain ⟨⟨is, rest⟩, hindices, hclosed⟩ := bind_eq_ok hr
      dsimp only at hclosed
      obtain ⟨e, he, hvar⟩ := bind_eq_ok hclosed
      cases hvar
      obtain ⟨hndim, rfl⟩ := indexed_eq_ok_iff.1 he
      obtain ⟨parts, ⟨hparts, rfl⟩, hne, rfl⟩ := h.indices _ _ hindices
      rw [List.length_map] at hndim
      refine ⟨_, ?_, hP.element hplain hv hparts hne hndim⟩
      simp

end

theorem arguments_reads (h : ReaderDerives names P n) (ts : List Token) :
    Yields (fun r => ∃ parts comma, Lists P parts r.1 ∧ EndsList parts comma ∧
      ts = listed parts ++ (comma ++ .ofOp ")" :: r.2)) (arguments names (n + 1) ts) := by
  simp only [Expr.arguments]
  split
  · rename_i rest hclose
    exact yields_ok ⟨[], [], lists_nil, .inl rfl, afterOp?_eq_some_iff.1 hclose⟩
  · refine yields_bind (h.parse _ _) fun r hr => ?_
    obtain ⟨used, rfl, hused⟩ := hr
    split
    · rename_i rest hclose
      refine yields_pure ⟨[(used, r.1)], [], lists_nil.cons hused, .inl rfl, ?_⟩
      simp [afterOp?_eq_some_iff.1 hclose]
    · rename_i rest _ hcomma
      refine yields_bind (h.arguments _) fun q hq => yields_pure ?_
      obtain ⟨parts, comma, hparts, hend, rfl⟩ := hq
      cases parts with
      | nil =>
        obtain rfl : comma = [] := hend.resolve_right fun hne => hne.1 rfl
        refine ⟨[(used, r.1)], [.ofOp ","], hparts.cons hused, .inr ⟨by simp, rfl⟩, ?_⟩
        simp [afterOp?_eq_some_iff.1 hcomma]
      | cons part parts =>
        refine ⟨(used, r.1) :: part :: parts, comma, hparts.cons hused, ?_, ?_⟩
        · exact hend.imp_right fun hc => ⟨by simp, hc.2⟩
        · simp [afterOp?_eq_some_iff.1 hcomma]
    · exact yields_throw _

theorem indices_reads (h : ReaderDerives names P n) (ts : List Token) :
    Yields (fun r => ∃ parts, Lists P parts r.1 ∧ parts ≠ [] ∧
      ts = listed parts ++ .ofOp "]" :: r.2) (indices names (n + 1) ts) := by
  refine yields_bind (h.parse _ _) fun r hr => ?_
  obtain ⟨used, rfl, hused⟩ := hr
  dsimp only
  split
  · rename_i rest hclose
    refine yields_pure ⟨[(used, r.1)], lists_nil.cons hused, by simp, ?_⟩
    simp [afterOp?_eq_some_iff.1 hclose]
  · rename_i rest _ hcomma
    refine yields_bind (h.indices _) fun q hq => yields_pure ?_
    obtain ⟨parts, hparts, hne, rfl⟩ := hq
    obtain ⟨part, parts, rfl⟩ := List.exists_cons_of_ne_nil hne
    refine ⟨(used, r.1) :: part :: parts, hparts.cons hused, by simp, ?_⟩
    simp [afterOp?_eq_some_iff.1 hcomma]
  · exact yields_throw _

theorem reader_derives (hP : names.Closed P) (n : Nat) : ReaderDerives names P n := by
  induction n with
  | zero =>
    refine ⟨?_, ?_, ?_, ?_, ?_, ?_⟩
    · exact fun _ _ => yields_error _
    · exact fun _ read _ _ hleft => yields_ok ⟨read, rfl, hleft⟩
    · exact fun _ => yields_error _
    · exact fun _ => yields_error _
    · exact fun _ => yields_error _
    · exact fun _ => yields_error _
  | succ n ih =>
    exact ⟨parse_reads hP ih, chain_reads hP ih, operand_reads hP ih, member_reads hP ih,
      arguments_reads ih, indices_reads ih⟩

variable {ts : List Token} {e : Expr}

theorem parse_of_ofTokens (h : ofTokens names ts = .ok e) :
    parse names (parseDepth ts) .or ts = .ok (e, []) := by
  unfold ofTokens at h
  split_ifs at h
  obtain ⟨⟨e', rest⟩, hparse, h⟩ := bind_eq_ok h
  cases rest with
  | nil =>
    cases h
    exact hparse
  | cons t rest => cases h

/-- Whatever all of the tokens are read as, they make. -/
theorem closed_of_ofTokens (hP : names.Closed P) (h : ofTokens names ts = .ok e) : P .or ts e := by
  obtain ⟨used, hts, hused⟩ := (reader_derives hP _).parse _ _ _ (parse_of_ofTokens h)
  rw [List.append_nil] at hts
  exact hts ▸ hused

theorem derives_of_ofTokens (h : ofTokens names ts = .ok e) : names.Derives .or ts e :=
  closed_of_ofTokens names.closed_derives h

end Expr

end ProcessModel
