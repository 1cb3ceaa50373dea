import ProcessModel.Proofs.Reading
import ProcessModel.Proofs.Rereading

/-! Augmented assignments mean reassignments.

`x op= e` is written out as `x = x op (e)`. The brackets around `e` keep all of it together,
whatever operators it has, and `x` is an operand at every level of binding. -/

namespace ProcessModel

open Script

section Enclosed

/-- Tokens with their brackets in pairs and without an assignment. -/
structure Enclosed (ts : List Token) : Prop where
  nesting : ∀ depth, nesting depth ts = some depth
  assigns : ∀ t ∈ ts, t ≠ .ofOp "="

namespace Enclosed

variable {ts us : List Token} {t : Token}

theorem nil : Enclosed [] := ⟨fun _ => rfl, by simp⟩

theorem append (hts : Enclosed ts) (hus : Enclosed us) : Enclosed (ts ++ us) := by
  refine ⟨fun depth => ?_, fun t ht => ?_⟩
  · rw [nesting_append, hts.nesting, Option.bind_some, hus.nesting]
  · exact (List.mem_append.1 ht).elim (hts.assigns t) (hus.assigns t)

theorem singleton (hplain : t.isOpening = false ∧ t.isClosing = false) (h : t ≠ .ofOp "=") :
    Enclosed [t] :=
  ⟨nesting_of_plain (by simpa using hplain), by simpa using h⟩

theorem cons (hplain : t.isOpening = false ∧ t.isClosing = false) (h : t ≠ .ofOp "=")
    (hts : Enclosed ts) : Enclosed (t :: ts) :=
  (singleton hplain h).append hts

theorem name (x : String) : Enclosed [.ofName x] :=
  singleton ⟨rfl, rfl⟩ (by simp [Token.ofName, Token.ofOp])

theorem brackets {opening closing : String} (h : Enclosed ts)
    (hpair : (opening, closing) ∈ [("(", ")"), ("[", "]")]) :
    Enclosed (.ofOp opening :: (ts ++ [.ofOp closing])) := by
  have hopen : ∀ depth, (Token.ofOp opening).nest depth = some (depth + 1) := by
    rcases List.mem_pair.1 hpair with heq | heq <;> cases heq <;> exact fun _ => rfl
  have hclose : ∀ depth, (Token.ofOp closing).nest (depth + 1) = some depth := by
    rcases List.mem_pair.1 hpair with heq | heq <;> cases heq <;> exact fun _ => rfl
  have hplain : Token.ofOp opening ≠ .ofOp "=" ∧ Token.ofOp closing ≠ .ofOp "=" := by
    rcases List.mem_pair.1 hpair with heq | heq <;> cases heq <;> decide
  refine ⟨fun depth => ?_, fun t ht => ?_⟩
  · simp [nesting_append, hopen, h.nesting, hclose]
  · simp only [List.mem_cons, List.mem_append, List.not_mem_nil, or_false] at ht
    rcases ht with rfl | ht | rfl
    · exact hplain.1
    · exact h.assigns t ht
    · exact hplain.2

theorem path (x : String) (xs : List String) : Enclosed (.ofName x :: dotted xs) := by
  induction xs generalizing x with
  | nil => exact name x
  | cons y xs ih => exact (name x).append ((ih y).cons (t := .ofOp ".") (by decide) (by decide))

theorem spliced : Spliced Enclosed where
  nil := nil
  append := append
  number text := singleton ⟨rfl, rfl⟩ (by simp [Token.ofOp])
  path := path
  operator op := by cases op <;> exact singleton (by decide) (by decide)
  comma := singleton (by decide) (by decide)
  brackets h := h.brackets (by decide)
  index h := h.brackets (by decide)

end Enclosed

end Enclosed

namespace Names

variable {names : Names} {P : Level → List Token → Expr → Prop}

theorem Closed.operand (hP : names.Closed P) : names.Closed fun l ts e =>
    P l ts e ∧ ∀ path indices, e = .var path indices → P .operand ts e where
  tighten hl hmarks h := ⟨hP.tighten hl hmarks h.1, h.2⟩
  join hop hleft hright := ⟨hP.join hop hleft.1 hright.1, by simp⟩
  not h := ⟨hP.not h.1, by simp⟩
  comparison hop hleft hright := ⟨hP.comparison hop hleft.1 hright.1, by simp⟩
  minus h := ⟨hP.minus h.1, by simp⟩
  plus h := ⟨hP.plus h.1, by simp⟩
  power hbase hexponent := ⟨hP.power hbase.1 hexponent.1, by simp⟩
  integer hplain hn := ⟨hP.integer hplain hn, by simp⟩
  decimal hmark hx := ⟨hP.decimal hmark hx, by simp⟩
  truth := ⟨hP.truth, by simp⟩
  falsity := ⟨hP.falsity, by simp⟩
  brackets h := ⟨hP.brackets h.1, fun _ _ _ => hP.brackets h.1⟩
  loc hx hword := ⟨hP.loc hx hword, by simp⟩
  builtin hparts hcomma harity :=
    ⟨hP.builtin (fun p hp => (hparts p hp).1) hcomma harity, by simp⟩
  method hplain hparts hcomma := ⟨hP.method hplain (fun p hp => (hparts p hp).1) hcomma, by simp⟩
  scalar hplain hv hndim := ⟨hP.scalar hplain hv hndim, fun _ _ _ => hP.scalar hplain hv hndim⟩
  element hplain hv hparts hne hndim :=
    have h := hP.element hplain hv (fun p hp => (hparts p hp).1) hne hndim
    ⟨h, fun _ _ _ => h⟩

/-- Tokens that start with no mark of a level, so that all levels pass on to operands. -/
def Unmarked (ts : List Token) : Prop := ∀ t ∈ ts.head?, ∀ l : Level, t ∉ l.marks

theorem unmarked_cons {t : Token} (h : t ∉ [.ofName "not", .ofOp "-", .ofOp "+"])
    (ts : List Token) : Unmarked (t :: ts) := by
  intro u hu l
  obtain rfl : t = u := Option.some.inj hu
  exact fun hmark => h (by cases l <;> simp_all [Level.marks])

theorem Unmarked.append {ts : List Token} (h : Unmarked ts) (hne : ts ≠ []) (us : List Token) :
    Unmarked (ts ++ us) := by
  obtain ⟨t, ts, rfl⟩ := List.exists_cons_of_ne_nil hne
  exact h

end Names

namespace Level

theorem rank_injective : Function.Injective rank := by
  intro l l' h
  cases l <;> cases l' <;> first | rfl | cases h

theorem operand_rank_le (l : Level) : operand.rank ≤ l.rank := by
  cases l <;> decide

theorem looser_induction {motive : Level → Prop} {l l' : Level} (hle : l'.rank ≤ l.rank)
    (hbase : motive l') (hstep : ∀ k : Level, k ≠ .operand → motive k.tighter → motive k) :
    motive l := by
  by_cases heq : l.rank = l'.rank
  · exact rank_injective heq ▸ hbase
  · have hne : l ≠ .operand := by
      rintro rfl
      have hleast := l'.operand_rank_le
      omega
    have hrank := l.rank_tighter hne
    exact hstep l hne (looser_induction (by omega) hbase hstep)
termination_by l.rank
decreasing_by omega

end Level

namespace Names

variable {names : Names}

variable {ts : List Token}

theorem Settles.ne_nil {l : Level} {e : Expr} (h : names.Settles l ts e) : ts ≠ [] := by
  obtain ⟨t, ts, rfl, -⟩ := h.first
  simp

theorem Settles.loosen {l l' : Level} {e : Expr} (h : names.Settles l' ts e) (hts : Unmarked ts)
    (hle : l'.rank ≤ l.rank) : names.Settles l ts e :=
  Level.looser_induction (motive := fun k => names.Settles k ts e) hle h fun k hk ih =>
    ih.tighten hk fun t ht => hts t ht k

def arithmetic : List BinaryOp := [.add, .sub, .mul, .div, .floorDiv, .mod, .pow]

theorem mem_joins_of_arithmetic {op : BinaryOp} (hop : op ∈ arithmetic) (hpow : op ≠ .pow) :
    op ∈ op.level.joins := by
  revert op
  decide

theorem unmarked_brackets (ts : List Token) : Unmarked (.ofOp "(" :: ts) :=
  unmarked_cons (by decide) ts

theorem Settles.operation {op : BinaryOp} (hop : op ∈ arithmetic) {us : List Token}
    {left right : Expr} (hleft : names.Settles .operand ts left) (hts : Unmarked ts)
    (hright : names.Settles .or us right) :
    names.Settles .or (ts ++ op.token :: .ofOp "(" :: (us ++ [.ofOp ")"]))
      (.binary op left right) := by
  have hclosed := closed_settles names
  have hbrackets := hclosed.brackets hright
  have hinner := unmarked_brackets (us ++ [.ofOp ")"])
  have hlevel : names.Settles op.level (ts ++ op.token :: .ofOp "(" :: (us ++ [.ofOp ")"]))
      (.binary op left right) := by
    by_cases hpow : op = .pow
    · subst hpow
      exact hclosed.power hleft (hbrackets.loosen hinner (by decide))
    · exact hclosed.join (mem_joins_of_arithmetic hop hpow)
        (hleft.loosen hts (by cases op <;> decide))
        (hbrackets.loosen hinner (by cases op <;> decide))
  exact hlevel.loosen (hts.append hleft.ne_nil _) (by cases op <;> decide)

end Names

namespace Expr

open ProcessModel.Names

variable {names : Names} {n : Nat} {l : Level} {ts : List Token}

variable {r : Expr × List Token}

theorem parse_tighter (hl : l ≠ .operand) (hts : Unmarked ts)
    (h : parse names (n + 1) l ts = .ok r) : ∃ r', parse names n l.tighter ts = .ok r' := by
  have hword : afterWord? "not" ts = none := by
    refine Option.eq_none_iff_forall_ne_some.2 fun rest hrest => ?_
    obtain rfl := afterWord?_eq_some_iff.1 hrest
    exact hts _ rfl .not (by decide)
  have hsign : ∀ s ∈ ["-", "+"], afterOp? s ts = none := by
    intro s hs
    refine Option.eq_none_iff_forall_ne_some.2 fun rest hrest => ?_
    obtain rfl := afterOp?_eq_some_iff.1 hrest
    exact hts _ rfl .sign (by rcases List.mem_pair.1 hs with rfl | rfl <;> decide)
  cases l with
  | or | and | sum | product =>
    rw [parse_joined (by decide)] at h
    obtain ⟨r', hr', -⟩ := bind_eq_ok h
    exact ⟨r', hr'⟩
  | not =>
    simp only [parse, hword] at h
    exact ⟨r, h⟩
  | comparison =>
    obtain ⟨r', hr', -⟩ := bind_eq_ok h
    exact ⟨r', hr'⟩
  | sign =>
    simp only [parse, hsign "-" (by decide), hsign "+" (by decide)] at h
    exact ⟨r, h⟩
  | power =>
    obtain ⟨r', hr', -⟩ := bind_eq_ok h
    exact ⟨r', hr'⟩
  | operand => exact absurd rfl hl

theorem parse_below {l' : Level} (hts : Unmarked ts) {k : Nat} (hk : l.rank = l'.rank + k)
    (h : parse names (n + k) l ts = .ok r) : ∃ r', parse names n l' ts = .ok r' := by
  induction k generalizing l r with
  | zero =>
    obtain rfl := Level.rank_injective hk
    exact ⟨r, h⟩
  | succ k ih =>
    have hl : l ≠ .operand := by
      rintro rfl
      have hleast := l'.operand_rank_le
      omega
    have hrank := l.rank_tighter hl
    obtain ⟨r', hr'⟩ := parse_tighter hl hts h
    exact ih (by omega) hr'

theorem settles_of_brackets (hts : nesting 0 ts = some 0)
    (h : parse names (n + 2) .operand (.ofOp "(" :: (ts ++ [.ofOp ")"])) = .ok r) :
    ∃ e, names.Settles .or ts e := by
  obtain ⟨⟨e, rest⟩, hparse, hclose⟩ := bind_eq_ok h
  dsimp only at hclose
  split at hclose
  · rename_i rest' hrest
    obtain rfl := afterOp?_eq_some_iff.1 hrest
    obtain ⟨used, hused, hsettles⟩ := (reader_derives (closed_settles names) n).parse _ _ _ hparse
    obtain ⟨used', hused', hderives⟩ :=
      (reader_derives names.closed_derives n).parse _ _ _ hparse
    obtain rfl : used = used' := List.append_cancel_right (hused.symm.trans hused')
    rcases List.append_eq_append_iff.1 hused with ⟨more, rfl, hmore⟩ | ⟨more, hmore, hrest⟩
    · cases more with
      | nil => exact ⟨e, by simpa using hsettles⟩
      | cons t more =>
        have hlength := congrArg List.length hmore
        simp only [List.length_nil, List.length_cons, List.length_append] at hlength
        omega
    · cases more with
      | nil => exact ⟨e, by simpa [hmore] using hsettles⟩
      | cons t more =>
        obtain ⟨rfl, -⟩ := List.cons.inj hrest
        rw [hmore, nesting_append, (Enclosed.spliced.of_derives hderives).nesting, Option.bind_some] at hts
        cases hts
  · cases hclose

theorem settles_of_brackets_below (hts : nesting 0 ts = some 0) (hn : l.rank ≤ n)
    (h : parse names n l (.ofOp "(" :: (ts ++ [.ofOp ")"])) = .ok r) :
    ∃ e, names.Settles .or ts e := by
  obtain ⟨k, hk⟩ := Nat.exists_eq_add_of_le l.operand_rank_le
  obtain ⟨m, rfl⟩ := Nat.exists_eq_add_of_le hn
  have hdepth : l.rank + m = m + 2 + k := by
    rw [hk, Level.rank]
    omega
  rw [hdepth] at h
  obtain ⟨r', hr'⟩ := parse_below (unmarked_brackets _) hk h
  exact settles_of_brackets hts hr'

theorem parse_behind {op : BinaryOp} (hop : op ∈ arithmetic) {us : List Token} {left : Expr}
    (hleft : names.Settles .operand ts left) (hts : Unmarked ts) (hn : 12 * ts.length + 12 ≤ n)
    (h : parse names (n + 1) op.level (ts ++ op.token :: us) = .ok r) :
    ∃ (l : Level) (k : Nat) (r' : Expr × List Token), l.rank ≤ k ∧ parse names k l us = .ok r' := by
  by_cases hpow : op = .pow
  · subst hpow
    have hstops : Level.operand.Stops (BinaryOp.pow.token :: us) := Level.stops_token (by decide)
    obtain ⟨⟨base, rest⟩, hbase, hrest⟩ := bind_eq_ok h
    rw [hleft.readAs n _ hstops (by simp only [Level.rank]; omega)] at hbase
    cases hbase
    obtain ⟨r', hr', -⟩ := bind_eq_ok hrest
    exact ⟨.sign, n, r', by simp only [Level.rank]; omega, hr'⟩
  · have hjoins := mem_joins_of_arithmetic hop hpow
    have hl : op.level.joins ≠ [] := List.ne_nil_of_mem hjoins
    have hrank := op.level.rank_tighter (Level.ne_operand_of_joins hl)
    have hmost : op.level.rank ≤ 10 := by cases op <;> decide
    have hloose := hleft.loosen hts (l := op.level) (Level.operand_rank_le _)
    obtain ⟨k, hk, hchain⟩ := hloose.readInto hl (n + 1) (op.token :: us)
      (Level.stops_token (by omega)) (by omega)
    obtain ⟨k, rfl⟩ : ∃ k', k = k' + 1 := ⟨k - 1, by omega⟩
    rw [hchain, chain_token hjoins] at h
    obtain ⟨r', hr', -⟩ := bind_eq_ok h
    exact ⟨op.level.tighter, k, r', by omega, hr'⟩

theorem settles_of_operation {op : BinaryOp} (hop : op ∈ arithmetic) {us : List Token} {left : Expr}
    (hleft : names.Settles .operand ts left) (hts : Unmarked ts) (hus : nesting 0 us = some 0)
    {e : Expr} (h : ofTokens names (ts ++ op.token :: .ofOp "(" :: (us ++ [.ofOp ")"])) = .ok e) :
    ∃ right, names.Settles .or us right := by
  have hparse := parse_of_ofTokens h
  have hlevel : Level.or.rank = op.level.rank + (10 - op.level.rank) := by cases op <;> rfl
  obtain ⟨m, hm, hdepth⟩ : ∃ m, parseDepth (ts ++ op.token :: .ofOp "(" :: (us ++ [.ofOp ")"])) =
      m + 1 + (10 - op.level.rank) ∧ 12 * ts.length + 12 ≤ m := by
    simp only [parseDepth, List.length_append, List.length_cons, List.length_nil]
    exact ⟨12 * (ts.length + us.length + 4) - 1 - (10 - op.level.rank), by omega, by omega⟩
  rw [hm] at hparse
  obtain ⟨r, hr⟩ := parse_below (hts.append hleft.ne_nil _) hlevel hparse
  obtain ⟨l, k, r', hk, hr'⟩ := parse_behind hop hleft hts hdepth hr
  exact settles_of_brackets_below hus hk hr'

end Expr

section Outside

variable {q : Token → Bool} {ts : List Token} {depth depth' : Nat}

namespace topLevel?

theorem go_cons_plain {t : Token} (hplain : t.isOpening = false ∧ t.isClosing = false)
    (ht : q t = false) (depth at_ : Nat) (ts : List Token) :
    go q depth at_ (t :: ts) = go q depth (at_ + 1) ts := by
  simp [go, hplain, ht]

theorem go_cons_found {t : Token} (hplain : t.isOpening = false ∧ t.isClosing = false)
    (ht : q t = true) (at_ : Nat) (ts : List Token) : go q 0 at_ (t :: ts) = some at_ := by
  simp [go, hplain, ht]

theorem go_inside (q : Token → Bool) (hts : nesting depth ts = some depth') (at_ : Nat) :
    go q (depth + 1) at_ ts = none := by
  rw [go_eq_map, Option.map_eq_none_iff, Token.go_eq_none_iff]
  rintro i ⟨t, -, -, -, -, hzero⟩
  obtain ⟨d, hd⟩ := exists_nesting hts (List.take_prefix i ts)
  rw [counted_of_nesting (nesting_add hd 1)] at hzero
  cases hzero

end topLevel?

end Outside

namespace NormalBody

variable {names : Names} {op : BinaryOp} {ts target value : List Token} {i : Nat}

def isAugmented (t : Token) : Bool := t.kind == .op && augmented.contains t.text

/-- The tokens of `x = x op (e)`. -/
def reassigned (target : List Token) (op : BinaryOp) (value : List Token) : List Token :=
  target ++ .ofOp "=" :: (target ++ op.token :: .ofOp "(" :: (value ++ [.ofOp ")"]))

theorem operator_of_augmented : ∀ text ∈ augmented, ∃ op ∈ Names.arithmetic,
    text = op.symbol ++ "=" ∧
      op.token = .ofOp (String.ofList (text.toList.filter (· != '='))) := by
  decide

theorem expandTokens_of_none (h : topLevel? isAugmented ts = none) : expandTokens ts = ts := by
  unfold expandTokens
  split
  · rfl
  · rename_i i hi
    cases hi.symm.trans h

theorem expandTokens_of_some (h : topLevel? isAugmented ts = some i) :
    ∃ op ∈ Names.arithmetic, ts[i]? = some (.ofOp (op.symbol ++ "=")) ∧
      expandTokens ts = reassigned (ts.take i) op (ts.drop (i + 1)) := by
  obtain ⟨t, ht, hat, -⟩ := topLevel?_eq_some h
  obtain ⟨hkind, haugmented⟩ : t.kind = .op ∧ t.text ∈ augmented := by simpa [isAugmented] using ht
  obtain ⟨op, hop, htext, htoken⟩ := operator_of_augmented t.text haugmented
  refine ⟨op, hop, ?_, ?_⟩
  · rw [hat, ← htext, Token.ofOp, ← hkind]
  · unfold expandTokens
    split
    · rename_i hnone
      cases hnone.symm.trans h
    · rename_i j hj
      obtain rfl : j = i := Option.some.inj (hj.symm.trans h)
      simp only [hat, Option.map_some, Option.getD_some, ← htoken, reassigned, List.append_assoc,
        List.cons_append, List.nil_append]

theorem expandTokens_assignment (hts : ts = target ++ .ofOp (op.symbol ++ "=") :: value)
    (h : topLevel? isAugmented ts = some target.length) :
    op ∈ Names.arithmetic ∧ expandTokens ts = reassigned target op value := by
  obtain ⟨op', hop', hat, hexpand⟩ := expandTokens_of_some h
  have hsymbol : op.symbol ++ "=" = op'.symbol ++ "=" := by
    rw [hts, List.getElem?_append_right le_rfl, Nat.sub_self] at hat
    exact congrArg Token.text (Option.some.inj hat)
  obtain rfl : op = op' :=
    BinaryOp.symbol_injective ((String.append_left_inj _).1 hsymbol)
  refine ⟨hop', ?_⟩
  rw [hexpand, hts]
  simp

theorem topLevel?_reassigned {q : Token → Bool} (htarget : nesting 0 target = some 0)
    (hvalue : nesting 0 value = some 0) (hq : q op.token = false)
    (hnone : topLevel? q target = none) :
    topLevel? q (reassigned target op value) =
      if q (.ofOp "=") then some target.length else none := by
  have hplain : op.token.isOpening = false ∧ op.token.isClosing = false := by
    cases op <;> decide
  have hassign : topLevel? q (reassigned target op value) =
      topLevel?.go q 0 target.length
        (.ofOp "=" :: (target ++ op.token :: .ofOp "(" :: (value ++ [.ofOp ")"]))) := by
    rw [topLevel?, reassigned, topLevel?.go_append, ← topLevel?, hnone, Option.none_or,
      counted_of_nesting htarget, Nat.zero_add]
  rw [hassign]
  split_ifs with heq
  · exact topLevel?.go_cons_found (by decide) heq _ _
  · have hagain : topLevel?.go q 0 (target.length + 1) target = none := by
      rw [topLevel?.go_eq_map, ← topLevel?, hnone, Option.map_none]
    rw [topLevel?.go_cons_plain (by decide) (by simpa using heq),
      topLevel?.go_append, hagain, Option.none_or, counted_of_nesting htarget,
      topLevel?.go_cons_plain hplain hq]
    have hinside := topLevel?.go_inside q hvalue (target.length + 1 + target.length + 1 + 1)
    show topLevel?.go q 1 _ (value ++ [.ofOp ")"]) = none
    rw [topLevel?.go_append, hinside, Option.none_or, counted_of_nesting (nesting_add hvalue 1)]
    rfl

theorem expandTokens_expandTokens (hts : nesting 0 ts = some 0) :
    expandTokens (expandTokens ts) = expandTokens ts := by
  cases hi : topLevel? isAugmented ts with
  | none => rw [expandTokens_of_none hi, expandTokens_of_none hi]
  | some i =>
    obtain ⟨op, -, -, hexpand⟩ := expandTokens_of_some hi
    obtain ⟨htarget, hvalue⟩ := topLevel?_nesting hi hts
    have hbefore : topLevel? isAugmented (ts.take i) = none := by
      cases hj : topLevel? isAugmented (ts.take i) with
      | none => rfl
      | some j =>
        obtain ⟨t, -, hat, -⟩ := topLevel?_eq_some hj
        have hlt := (List.getElem?_eq_some_iff.1 hat).1
        rw [List.length_take] at hlt
        have hi' := topLevel?_append_of_some hj (ts.drop i)
        rw [List.take_append_drop, hi, Option.some.injEq] at hi'
        omega
    have hsign : isAugmented op.token = false := by cases op <;> decide
    rw [hexpand]
    refine expandTokens_of_none ?_
    rw [topLevel?_reassigned htarget hvalue hsign hbefore]
    rfl

theorem expand_expand {line : LogicalLine} (h : nesting 0 line.tokens = some 0) :
    expand (expand line) = expand line := by
  by_cases hheader : line.isHeader = true
  · simp only [expand, hheader, if_true]
  · have hline : expand line = { line with tokens := expandTokens line.tokens } := if_neg hheader
    rw [hline]
    unfold expand
    split_ifs
    · rfl
    · rw [expandTokens_expandTokens h]

/-- What an augmented assignment changes: something of the model, with or without indices, or a
local that is neither a word of the language nor named like the model. -/
inductive Assignable (names : Names) : List Token → Prop
  | reference (t : Token) (rest : List Token) : Assignable names (.ofName "self" :: t :: rest)
  | loc {x : String} (hlocal : names.isLocal x = true) (hword : x ∉ keywords) (hself : x ≠ "self") :
      Assignable names [.ofName x]

namespace Assignable

variable (h : Assignable names target)
include h

theorem head : ∃ x rest, target = .ofName x :: rest ∧ x ∉ keywords := by
  cases h with
  | reference t rest => exact ⟨_, _, rfl, by decide⟩
  | loc hlocal hword hself => exact ⟨_, _, rfl, hword⟩

theorem unmarked : Names.Unmarked target := by
  obtain ⟨x, rest, rfl, hx⟩ := h.head
  refine Names.unmarked_cons ?_ rest
  simp only [Token.ofName, Token.ofOp, List.mem_cons, Token.mk.injEq, reduceCtorEq, false_and,
    true_and, List.not_mem_nil, or_false]
  rintro rfl
  exact hx (by decide)

theorem settles {t : Target} (ht : Stmt.target names target = .ok t) :
    ∃ x, names.Settles .operand target x := by
  cases h with
  | reference u rest =>
    obtain ⟨e, he, hvar⟩ := bind_eq_ok ht
    cases e with
    | var path indices =>
      exact ⟨_, (Expr.closed_of_ofTokens (Names.closed_settles names).operand he).2 _ _ rfl⟩
    | _ => cases hvar
  | @loc x hlocal hword hself =>
    refine ⟨_, (Names.closed_settles names).loc hlocal fun hx => ?_⟩
    simp only [List.mem_cons, List.not_mem_nil, or_false] at hx
    rcases hx with rfl | rfl | rfl
    · exact hword (by decide)
    · exact hword (by decide)
    · exact hself rfl

theorem ofTokens {t : Target} (ht : Stmt.target names target = .ok t) :
    ∃ x, Expr.ofTokens names target = .ok x := by
  obtain ⟨x, hx⟩ := h.settles ht
  exact ⟨x, (hx.loosen h.unmarked (by decide)).ofTokens⟩

end Assignable

end NormalBody

namespace Stmt

variable {names : Names} {line : LogicalLine} {x : String} {more : List Token} {i : Nat}

variable (hline : line.tokens = .ofName x :: more) (hx : x ∉ keywords)
include hline hx

theorem statement_of_name (n : Nat) (rest : List LogicalLine) : statement names (n + 1) line rest =
      onLine line.line (simple names line) >>= fun s => .ok (s, rest) := by
  have hhead : (line.tokens.head?.filter fun t => t.kind = .name) = some (.ofName x) := by
    rw [hline]
    rfl
  have hword : ∀ {kind : TokenKind} {word : String}, word ∈ keywords →
      (line.tokens.head?.filter fun t => t.kind = .name) ≠ some ⟨kind, word⟩ := by
    intro kind word hmem h
    cases hhead.symm.trans h
    exact hx hmem
  simp only [statement]
  split
  · exact absurd ‹_› (hword (by decide))
  · exact absurd ‹_› (hword (by decide))
  · exact absurd ‹_› (hword (by decide))
  · exact absurd ‹_› (hword (by decide))
  · exact absurd ‹_› (hword (by decide))
  · rfl

theorem simple_of_assign (hheader : line.isHeader = false)
    (hi : topLevel? (fun t => t.isOp "=") line.tokens = some i) :
    simple names line = target names (line.tokens.take i) >>= fun t =>
      Expr.ofTokens names (line.tokens.drop (i + 1)) >>= fun e => .ok (.assign line.line t e) := by
  have hword : ∀ word ∈ keywords, (line.tokens.head?.any fun t => t.isName word) = false := by
    intro word hmem
    have hne : x ≠ word := fun h => hx (h ▸ hmem)
    simp [hline, Token.isName, Token.ofName, hne]
  simp only [simple, hword "return" (by decide), hword "pass" (by decide), hheader, hi,
    Bool.false_and, Bool.false_eq_true, if_false]
  rfl

theorem statement_eq_ok_iff (hheader : line.isHeader = false)
    (hi : topLevel? (fun t => t.isOp "=") line.tokens = some i) (n : Nat) (rest : List LogicalLine)
    (r : Stmt × List LogicalLine) :
    statement names (n + 1) line rest = .ok r ↔ ∃ t e,
      target names (line.tokens.take i) = .ok t ∧
        Expr.ofTokens names (line.tokens.drop (i + 1)) = .ok e ∧
        r = (.assign line.line t e, rest) := by
  rw [statement_of_name hline hx, simple_of_assign hline hx hheader hi]
  constructor
  · intro h
    obtain ⟨s, hs, hr⟩ := bind_eq_ok h
    obtain ⟨t, ht, hs⟩ := bind_eq_ok (Scope.onLine_eq_ok hs)
    obtain ⟨e, he, hs⟩ := bind_eq_ok hs
    cases hs
    cases hr
    exact ⟨t, e, ht, he, rfl⟩
  · rintro ⟨t, e, ht, he, rfl⟩
    rw [ht, ok_bind, he]
    rfl

end Stmt

namespace NormalBody

variable {names : Names} {op : BinaryOp} {target value : List Token} {line : LogicalLine}

theorem not_ofTokens_of_assign {ts : List Token} (h : .ofOp "=" ∈ ts) (e : Expr) :
    Expr.ofTokens names ts ≠ .ok e :=
  fun he => (Enclosed.spliced.of_derives (Expr.derives_of_ofTokens he)).assigns _ h rfl

theorem isHeader_reassigned (h : line.tokens = reassigned target op value) :
    line.isHeader = false := by
  have hlast : line.tokens.getLast? = some (.ofOp ")") := by
    simp [h, reassigned, List.getLast?_append, List.getLast?_cons]
  rw [LogicalLine.isHeader, hlast]
  rfl

/-- When an assignment that is written out is read, and what it is read as. -/
theorem statement_reassigned (hop : op ∈ Names.arithmetic) (htarget : nesting 0 target = some 0)
    (hvalue : nesting 0 value = some 0) (hassignable : Assignable names target)
    (hline : line.tokens = reassigned target op value) (n : Nat) (rest : List LogicalLine)
    (r : Stmt × List LogicalLine) :
    Stmt.statement names (n + 1) line rest = .ok r ↔ ∃ t x e,
      Stmt.target names target = .ok t ∧ Expr.ofTokens names target = .ok x ∧
        Expr.ofTokens names value = .ok e ∧ r = (.assign line.line t (.binary op x e), rest) := by
  obtain ⟨y, more, hhead, hy⟩ := hassignable.head
  have hfirst : line.tokens = .ofName y ::
      (more ++ .ofOp "=" :: (target ++ op.token :: .ofOp "(" :: (value ++ [.ofOp ")"]))) := by
    rw [hline, reassigned]
    nth_rewrite 1 [hhead]
    rfl
  have hheader := isHeader_reassigned hline
  cases hj : topLevel? (fun t => t.isOp "=") target with
  | some j =>
    obtain ⟨t, ht, hat, htarget'⟩ := topLevel?_eq_some hj
    obtain rfl := Token.isOp_iff.1 ht
    have hj' : topLevel? (fun t => t.isOp "=") line.tokens = some j := by
      rw [hline]
      exact topLevel?_append_of_some hj _
    rw [Stmt.statement_eq_ok_iff hfirst hy hheader hj']
    have hlt : j < target.length := (List.getElem?_eq_some_iff.1 hat).1
    have hvalue' : .ofOp "=" ∈ line.tokens.drop (j + 1) := by
      rw [hline, reassigned, List.drop_append_of_le_length (by omega)]
      simp
    constructor
    · rintro ⟨t, e, -, he, -⟩
      exact absurd he (not_ofTokens_of_assign hvalue' e)
    · rintro ⟨t, x, e, -, hx, -⟩
      exact absurd hx (not_ofTokens_of_assign (List.mem_of_getElem? hat) x)
  | none =>
    have hj' : topLevel? (fun t => t.isOp "=") line.tokens = some target.length := by
      rw [hline, topLevel?_reassigned htarget hvalue (by cases op <;> decide) hj]
      rfl
    have htake : line.tokens.take target.length = target := by simp [hline, reassigned]
    have hdrop : line.tokens.drop (target.length + 1) =
        target ++ op.token :: .ofOp "(" :: (value ++ [.ofOp ")"]) := by
      simp [hline, reassigned, List.drop_append]
    rw [Stmt.statement_eq_ok_iff hfirst hy hheader hj', htake, hdrop]
    have hunmarked := hassignable.unmarked
    constructor
    · rintro ⟨t, e, ht, he, rfl⟩
      obtain ⟨x, hx⟩ := hassignable.settles ht
      obtain ⟨right, hright⟩ := Expr.settles_of_operation hop hx hunmarked hvalue he
      have hwhole := (hx.operation hop hunmarked hright).ofTokens
      obtain rfl := Except.ok.inj (he.symm.trans hwhole)
      exact ⟨t, x, right, ht, (hx.loosen hunmarked (by decide)).ofTokens, hright.ofTokens, rfl⟩
    · rintro ⟨t, x, e, ht, hx, he, rfl⟩
      obtain ⟨x', hx'⟩ := hassignable.settles ht
      obtain rfl := Except.ok.inj (hx.symm.trans (hx'.loosen hunmarked (by decide)).ofTokens)
      have hright := Expr.closed_of_ofTokens (Names.closed_settles names) he
      exact ⟨t, _, ht, (hx'.operation hop hunmarked hright).ofTokens, rfl⟩

/-- Augmented assignments are reassignments. A line of a text is written out at most once, and an
assignment that is written out is read exactly if its target can be assigned to and its value is an
expression. -/
theorem expand_reassigns {text : String} {first : Nat} {block : Block}
    (h : tokenize text first = .ok block) (hline : line ∈ block.lines) :
    expand (expand line) = expand line ∧
      ∀ (names : Names) (op : BinaryOp) (target value : List Token), line.isHeader = false →
        line.tokens = target ++ .ofOp (op.symbol ++ "=") :: value →
        topLevel? isAugmented line.tokens = some target.length → Assignable names target →
        ∀ (n : Nat) (rest : List LogicalLine),
          ((∃ r, Stmt.statement names (n + 1) (expand line) rest = .ok r) ↔
            (∃ t, Stmt.target names target = .ok t) ∧ ∃ e, Expr.ofTokens names value = .ok e) ∧
          ∀ t e, Stmt.target names target = .ok t → Expr.ofTokens names value = .ok e →
            ∃ x, Expr.ofTokens names target = .ok x ∧
              Stmt.statement names (n + 1) (expand line) rest =
                .ok (.assign line.line t (.binary op x e), rest) := by
  have hbalanced := ((written_of_tokenize h) line hline).1.balanced
  refine ⟨expand_expand hbalanced, ?_⟩
  intro names op target value hheader htokens hi hassignable n rest
  obtain ⟨hop, hexpand⟩ := expandTokens_assignment htokens hi
  obtain ⟨htarget, hvalue⟩ := topLevel?_nesting hi hbalanced
  rw [htokens, List.take_left] at htarget
  rw [htokens, List.drop_append, List.drop_of_length_le (by simp)] at hvalue
  replace hvalue : nesting 0 value = some 0 := by simpa using hvalue
  have hexpanded : (expand line).tokens = reassigned target op value := by
    simp only [expand, hheader, Bool.false_eq_true, if_false, hexpand]
  have hnumber : (expand line).line = line.line := by
    unfold expand
    split_ifs <;> rfl
  have hread := statement_reassigned hop htarget hvalue hassignable hexpanded n rest
  rw [hnumber] at hread
  refine ⟨⟨?_, ?_⟩, ?_⟩
  · rintro ⟨r, hr⟩
    obtain ⟨t, x, e, ht, -, he, -⟩ := (hread r).1 hr
    exact ⟨⟨t, ht⟩, e, he⟩
  · rintro ⟨⟨t, ht⟩, e, he⟩
    obtain ⟨x, hx⟩ := hassignable.ofTokens ht
    exact ⟨_, (hread _).2 ⟨t, x, e, ht, hx, he, rfl⟩⟩
  · intro t e ht he
    obtain ⟨x, hx⟩ := hassignable.ofTokens ht
    exact ⟨x, hx, (hread _).2 ⟨t, x, e, ht, hx, he, rfl⟩⟩

def spillway : Names where
  definition := { name := "spillway", groups := [⟨.states, [{ name := "s", ndim := 1 }]⟩] }
  locals := [⟨"n", .int⟩, ⟨"d_x", .float⟩]

def spillwayTarget : List Token :=
  .ofName "self" :: dotted ["sequences", "states", "s"] ++
    [.ofOp "[", .ofName "n", .ofOp "+", ⟨.number, "1"⟩, .ofOp "]"]

def spillwayValue : List Token :=
  [.ofOp "-", .ofName "d_x", .ofOp "**", ⟨.number, "2"⟩, .ofName "or", .ofName "n"]

/-- The value of a power takes in the whole right side, though `or` binds looser than `**`. -/
theorem spillway_reassigns :
    let line : LogicalLine := ⟨0, 7, spillwayTarget ++ .ofOp "**=" :: spillwayValue⟩
    let s : Expr := .var ⟨[], .kind .states, "s"⟩ [.binary .add (.loc "n") (.int 1)]
    expand (expand line) = expand line ∧
      Stmt.statement spillway 1 (expand line) [] = .ok (.assign 7
        (.var ⟨[], .kind .states, "s"⟩ [.binary .add (.loc "n") (.int 1)])
        (.binary .pow s (.binary .or (.unary .neg (.binary .pow (.loc "d_x") (.int 2)))
          (.loc "n"))), []) := by
  intro line s
  have htext : tokenize "self.sequences.states.s[n + 1] **= -d_x ** 2 or n\n" 7 =
      .ok ⟨[line], []⟩ := by decide +kernel
  obtain ⟨hagain, hread⟩ := expand_reassigns htext (List.mem_singleton_self line)
  refine ⟨hagain, ?_⟩
  obtain ⟨x, hx, hstatement⟩ := (hread spillway .pow spillwayTarget spillwayValue (by decide) rfl
    (by decide) (.reference _ _) 0 []).2 _ _ rfl rfl
  cases hx
  exact hstatement

/-- A local that is named like the model can be assigned to, but it is no operand. -/
theorem self_not_reassigned :
    let names : Names := ⟨{ name := "m" }, [⟨"self", .int⟩]⟩
    let line : LogicalLine := ⟨0, 2, [.ofName "self", .ofOp "+=", ⟨.number, "1"⟩]⟩
    tokenize "self += 1\n" 2 = .ok ⟨[line], []⟩ ∧ names.isLocal "self" = true ∧
      "self" ∉ keywords ∧ Stmt.target names [.ofName "self"] = .ok (.loc "self") ∧
      Expr.ofTokens names [⟨.number, "1"⟩] = .ok (.int 1) ∧
      ∀ n, Stmt.statement names (n + 1) (expand line) [] = .error ⟨2, .bareSelf⟩ := by
  refine ⟨by decide +kernel, by decide, by decide, rfl, rfl, fun n => rfl⟩

end NormalBody

end ProcessModel
