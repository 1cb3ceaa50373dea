import ProcessModel.Proofs.Indentation
import ProcessModel.Proofs.Resolution

/-! What a method with declared references can touch.

The check of the declarations is made on the tokens of a method, before there is a tree. A variable
of the tree is spelled out in the tokens it is read from; what is spelled out there has been put in
place of a chain, and so passed the check. -/

namespace ProcessModel

/-- Whether tokens spell out the path of a variable, from a `self` that does not follow a point. -/
def Spells (p : VarPath) : Bool → List Token → Prop
  | _, [] => False
  | after, t :: ts =>
    (after = false ∧ t = .ofName "self" ∧ dotted p.segments <+: ts) ∨ Spells p (t.isOp ".") ts

namespace Spells

variable {p : VarPath} {after : Bool} {ts us vs : List Token} {t : Token}

theorem append (h : Spells p after ts) (post : List Token) : Spells p after (ts ++ post) := by
  induction ts generalizing after with
  | nil => exact h.elim
  | cons t ts ih =>
    rcases h with ⟨hafter, hself, hpath⟩ | h
    · exact .inl ⟨hafter, hself, hpath.trans (List.prefix_append ts post)⟩
    · exact .inr (ih h)

theorem behind (ht : t.isOp "." = false) (h : Spells p false ts) (before : List Token) :
    Spells p after (before ++ t :: ts) := by
  induction before generalizing after with
  | nil => exact .inr (ht ▸ h)
  | cons u before ih => exact .inr ih

theorem split (hkind : t.kind = .op) (ht : t.isOp "." = false)
    (h : Spells p after (us ++ t :: vs)) : Spells p after us ∨ Spells p false vs := by
  induction us generalizing after with
  | nil =>
    rcases h with ⟨-, rfl, -⟩ | h
    · cases hkind
    · exact .inr (ht ▸ h)
  | cons u us ih =>
    rcases h with ⟨hafter, hself, post, hpath⟩ | h
    · have hnot : t ∉ dotted p.segments := by
        intro hmem
        obtain ⟨x, -, hx⟩ := List.mem_flatMap.1 hmem
        rcases List.mem_pair.1 hx with rfl | rfl
        · simp [Token.isOp, Token.ofOp] at ht
        · cases hkind
      rcases List.append_eq_append_iff.1 hpath with ⟨between, rfl, -⟩ | ⟨between, hbetween, hvs⟩
      · exact .inl (.inl ⟨hafter, hself, List.prefix_append _ _⟩)
      · cases between with
        | nil => exact .inl (.inl ⟨hafter, hself, by simp [hbetween]⟩)
        | cons v between =>
          obtain rfl : t = v := (List.cons.inj hvs).1
          exact absurd (hbetween ▸ by simp) hnot
    · exact (ih h).imp_left .inr

theorem of_dotted (chain : List String) (h : Spells p false (dotted chain ++ ts)) :
    Spells p false ts := by
  induction chain with
  | nil => exact h
  | cons x chain ih =>
    rcases h with ⟨-, hself, -⟩ | ⟨hpoint, -⟩ | h
    · cases hself
    · cases hpoint
    · exact ih h

end Spells

namespace Expr

/-- Whether an expression, if it is a variable, has a path of a certain kind. -/
def Touches (P : VarPath → Prop) : Expr → Prop
  | .var path _ => P path
  | _ => True

instance {P : VarPath → Prop} [DecidablePred P] : DecidablePred (Touches P) := fun e =>
  match e with
  | .var path _ => inferInstanceAs (Decidable (P path))
  | .int _ | .float _ _ | .bool _ | .loc _ | .unary _ _ | .binary _ _ _ | .call _ _ => .isTrue trivial

theorem Touches.mono {P Q : VarPath → Prop} (hPQ : ∀ p, P p → Q p) (e : Expr) (h : e.Touches P) :
    e.Touches Q := by
  cases e with
  | var path indices => exact hPQ path h
  | _ => trivial

/-- All variables of an expression that is read have their paths spelled out. -/
def SpelledIn (ts : List Token) (e : Expr) : Prop := All (Touches fun p => Spells p false ts) e

variable {ts : List Token} {e : Expr}

theorem SpelledIn.mono {us : List Token} (h : SpelledIn ts e)
    (htu : ∀ p, Spells p false ts → Spells p false us) : SpelledIn us e :=
  all_mono h (Touches.mono htu)

theorem SpelledIn.append (h : SpelledIn ts e) (post : List Token) : SpelledIn (ts ++ post) e :=
  h.mono fun _ hp => hp.append post

theorem SpelledIn.behind {t : Token} (h : SpelledIn ts e) (ht : t.isOp "." = false)
    (before : List Token) : SpelledIn (before ++ t :: ts) e :=
  h.mono fun _ hp => hp.behind ht before

theorem spelledIn_listed {parts : List (List Token × Expr)}
    (h : ∀ part ∈ parts, SpelledIn part.1 part.2) :
    ∀ part ∈ parts, SpelledIn (listed parts) part.2 := by
  induction parts with
  | nil => simp
  | cons first parts ih =>
    have hfirst := h first List.mem_cons_self
    cases parts with
    | nil => simpa using hfirst
    | cons next parts =>
      rw [listed_cons_cons]
      intro part hpart
      rcases List.mem_cons.1 hpart with rfl | hpart
      · exact hfirst.append _
      · exact (ih (fun part hpart => h part (List.mem_cons_of_mem _ hpart)) part hpart).behind rfl _

theorem spelledIn_arguments {parts : List (List Token × Expr)} {t : Token}
    (h : ∀ part ∈ parts, SpelledIn part.1 part.2) (ht : t.isOp "." = false)
    (before post : List Token) :
    AllIn (Touches fun p => Spells p false (before ++ t :: (listed parts ++ post)))
      (parts.map (·.2)) := by
  rw [allIn_iff]
  intro e he
  obtain ⟨part, hpart, rfl⟩ := List.mem_map.1 he
  exact ((spelledIn_listed h part hpart).append post).behind ht before

theorem token_isOp_point (op : BinaryOp) : op.token.isOp "." = false := by
  cases op <;> decide

theorem spelledIn_of_derives {names : Names} {l : Level} (h : names.Derives l ts e) :
    SpelledIn ts e := by
  induction h with
  | tighten hl h ih => exact ih
  | join hop hleft hright ihl ihr =>
    exact (all_binary ..).2 ⟨trivial, ihl.append _, ihr.behind (token_isOp_point _) _⟩
  | not h ih => exact (all_unary ..).2 ⟨trivial, ih.behind rfl []⟩
  | comparison hop hleft hright ihl ihr =>
    exact (all_binary ..).2 ⟨trivial, ihl.append _, ihr.behind (token_isOp_point _) _⟩
  | minus h ih => exact (all_unary ..).2 ⟨trivial, ih.behind rfl []⟩
  | plus h ih => exact (all_unary ..).2 ⟨trivial, ih.behind rfl []⟩
  | power hbase hexponent ihb ihe =>
    exact (all_binary ..).2 ⟨trivial, ihb.append _, ihe.behind rfl _⟩
  | integer hplain hn => exact (all_int _).2 trivial
  | decimal hmark hx => exact (all_float _ _).2 trivial
  | truth => exact (all_bool _).2 trivial
  | falsity => exact (all_bool _).2 trivial
  | brackets h ih => exact (ih.append _).behind rfl []
  | loc hx => exact (all_loc _).2 trivial
  | @builtin f parts comma hparts hcomma harity ih =>
    exact (all_call ..).2 ⟨trivial, spelledIn_arguments ih rfl [.ofName f.name] _⟩
  | @method owner name parts comma hplain hparts hcomma ih =>
    exact (all_call ..).2 ⟨trivial,
      spelledIn_arguments ih rfl (.ofName "self" :: dotted (owner ++ [name])) _⟩
  | @scalar path v hplain hv hndim =>
    exact (all_var ..).2 ⟨.inl ⟨rfl, rfl, List.prefix_rfl⟩, allIn_nil⟩
  | @element path v parts hplain hv hparts hne hndim ih =>
    exact (all_var ..).2 ⟨.inl ⟨rfl, rfl, List.prefix_append _ _⟩,
      spelledIn_arguments ih rfl (.ofName "self" :: dotted path.segments) _⟩

end Expr

namespace Scope

variable {s : Scope}

/-- Sub-models with the name of a family cannot be reached. -/
def Reachable (name : String) : Prop := Family.ofName? name = none

theorem admits_reachable (d : Definition) : Admits Reachable d :=
  fun _ _ _ _ _ hplain => hplain

theorem chainRest_snd (ts rest : List Token) (x : String) :
    (chainRest ts).2 ≠ .ofOp "." :: .ofName x :: rest := by
  fun_induction chainRest ts with
  | case1 d t ts h ih => exact ih
  | case2 d t ts h =>
    rintro heq
    obtain ⟨rfl, hrest⟩ := List.cons.inj heq
    obtain ⟨rfl, -⟩ := List.cons.inj hrest
    exact h rfl
  | case3 ts h =>
    rintro rfl
    exact h _ _ _ rfl

theorem head_of_use {chain : List String} {call : Bool} {found : Option (List Token)} {y : String}
    (h : s.use chain call = .ok found) : ∃ x rest, found.getD [.ofName y] = .ofName x :: rest := by
  cases uses_of_use h with
  | single | helper | var | method => exact ⟨_, _, rfl⟩

variable {ts : List Token}

theorem Rewritten.of_point {out : List Token} {x : String}
    (h : s.Rewritten false ts (.ofOp "." :: .ofName x :: out)) :
    ∃ rest, ts = .ofOp "." :: .ofName x :: rest := by
  generalize hout : Token.ofOp "." :: .ofName x :: out = whole at h
  cases h with
  | nil => cases hout
  | keep hkeep h =>
    obtain ⟨rfl, hrest⟩ := List.cons.inj hout
    generalize hafter : (Token.ofOp ".").isOp "." = after at h
    cases h with
    | nil => cases hrest
    | keep hkeep h =>
      obtain ⟨rfl, -⟩ := List.cons.inj hrest
      exact ⟨_, rfl⟩
    | chain => cases hafter
  | chain hself hfound h =>
    obtain ⟨y, rest, hfirst⟩ := head_of_use hfound
    rw [hfirst] at hout
    cases hout

theorem dotted_cons_inj {x y : String} {a b : List String} {us : List Token}
    (h : dotted (x :: a) ++ ts = dotted (y :: b) ++ us) :
    x = y ∧ dotted a ++ ts = dotted b ++ us := by
  simpa using h

section Own

variable {p : VarPath} (hp : p.owner = [])
include hp

theorem segments_own : p.segments = [p.group.family.name, p.group.name, p.name] := by
  rw [VarPath.segments, hp, List.nil_append]

theorem dotted_own_ne {x : String} (hx : Reachable x) (chain : List String) (ts us : List Token) :
    dotted p.segments ++ ts ≠ dotted (x :: chain) ++ us := by
  intro h
  rw [segments_own hp] at h
  have hfamily := Family.ofName?_eq_some_iff.2 (dotted_cons_inj h).1.symm
  rw [hx] at hfamily
  cases hfamily

theorem dotted_own_inj {q : VarPath} (hq : ∀ x ∈ q.owner, Reachable x) {ts us : List Token}
    (h : dotted p.segments ++ ts = dotted q.segments ++ us) : p = q := by
  obtain ⟨owner, group, name⟩ := q
  cases owner with
  | cons x owner => exact absurd h (dotted_own_ne hp (hq x List.mem_cons_self) _ _ _)
  | nil =>
    rw [segments_own hp, segments_own rfl] at h
    obtain ⟨hfamily, h⟩ := dotted_cons_inj h
    obtain ⟨hgroup, h⟩ := dotted_cons_inj h
    obtain ⟨rfl, -⟩ := dotted_cons_inj h
    have hsame : p.group.family = group.family := by
      have hname := Family.ofName?_eq_some_iff.2 hfamily
      rw [Family.ofName?_eq_some_iff.2 rfl] at hname
      exact Option.some.inj hname
    have hfound := GroupRef.ofName?_eq_some_iff.2 ⟨hsame, hgroup⟩
    rw [GroupRef.ofName?_eq_some_iff.2 ⟨rfl, rfl⟩] at hfound
    cases p
    cases hp
    cases hfound
    rfl

end Own

theorem permits_of_rewritten (hs : s.Sound Reachable) {after : Bool} {out : List Token}
    (h : s.Rewritten after ts out) {p : VarPath} (howner : p.owner = []) (hp : Spells p after out) :
    s.permits p = true := by
  induction h with
  | nil after => exact hp.elim
  | @keep after t ts out hkeep h ih =>
    rcases hp with ⟨rfl, rfl, -⟩ | hp
    · exact absurd hkeep (by simp [Token.ofName])
    · exact ih hp
  | @chain x ts out found hself hfound h ih =>
    have huses := uses_of_use hfound
    generalize x :: (chainRest ts).1 = chain at huses
    cases huses with
    | single =>
      rcases hp with ⟨-, hfirst, -⟩ | hp
      · exact absurd (Token.ofName_inj.1 hfirst) hself
      · exact ih hp
    | helper hunknown =>
      rcases hp with ⟨-, hfirst, hpath⟩ | hp
      · rw [segments_own howner] at hpath
        obtain ⟨post, rfl⟩ := hpath
        obtain ⟨rest, hrest⟩ := h.of_point
        exact absurd hrest (chainRest_snd _ _ _)
      · exact ih hp
    | var hnone hstart hwalk hpermits =>
      rcases hp with ⟨-, -, post, hpost⟩ | hp
      · have hq := walk_owner (admits_reachable _) hs hstart hwalk
        rwa [dotted_own_inj howner hq hpost]
      · exact ih (hp.of_dotted _)
    | @method _ _ owner _ name hnone hstart hwalk =>
      rcases hp with ⟨-, -, post, hpost⟩ | hp
      · have howners := walk_owner (admits_reachable _) hs hstart hwalk
        cases owner with
        | nil => exact absurd hpost (dotted_own_ne howner (walk_method hs hstart hwalk).2 _ _ _)
        | cons x owner =>
          exact absurd hpost (dotted_own_ne howner (howners x List.mem_cons_self) _ _ _)
      · exact ih (hp.of_dotted _)

end Scope

variable {p : VarPath}

theorem spells_expandTokens {ts : List Token} (h : Spells p false (NormalBody.expandTokens ts)) :
    Spells p false ts := by
  unfold NormalBody.expandTokens at h
  split at h
  · exact h
  · rename_i i hi
    obtain ⟨t, ht, hat, hts⟩ := topLevel?_eq_some hi
    obtain ⟨hkind, haugmented⟩ : t.kind = .op ∧ t.text ∈ NormalBody.augmented := by simpa using ht
    have hpoint : ∀ text ∈ NormalBody.augmented, text ≠ "." ∧
        String.ofList (text.toList.filter (· != '=')) ≠ "." := by decide
    obtain ⟨htext, hop⟩ := hpoint t.text haugmented
    have htarget : Spells p false (ts.take i) → Spells p false ts := by
      intro h
      rw [hts]
      exact h.append _
    have hvalue : Spells p false (ts.drop (i + 1)) → Spells p false ts := by
      intro h
      rw [hts]
      exact h.behind (by simp [Token.isOp, htext]) _
    simp only [hat, Option.map_some, Option.getD_some, List.append_assoc, List.cons_append,
      List.nil_append] at h
    rcases h.split rfl rfl with h | h
    · exact htarget h
    rcases h.split rfl (by simpa [Token.isOp, Token.ofOp] using hop) with h | h
    · exact htarget h
    rcases h with ⟨-, hself, -⟩ | h
    · cases hself
    rcases Spells.split rfl rfl h with h | h
    · exact hvalue h
    · exact h.elim

def Target.Touches (P : VarPath → Prop) : Target → Prop
  | .var path _ => P path
  | .loc _ => True

instance {P : VarPath → Prop} [DecidablePred P] : DecidablePred (Target.Touches P) := fun t =>
  match t with
  | .var path _ => inferInstanceAs (Decidable (P path))
  | .loc _ => .isTrue trivial

theorem Amid.spells {part ts : List Token} (h : Amid part ts) (hp : Spells p false part) :
    Spells p false ts := by
  induction h with
  | refl => exact hp
  | append h us ih => exact ih.append us
  | behind h ht before ih => exact ih.behind ht before

/-- All variables of a body have paths of a kind that its lines spell out only. -/
theorem Stmt.ofLines_touches {names : Names} {ls : List LogicalLine} {ss : List Stmt}
    {P : VarPath → Prop} (h : ofLines names ls = .ok ss)
    (hP : ∀ l ∈ ls, ∀ p, Spells p false l.tokens → P p) :
    AllIn (Expr.Touches P) (Target.Touches P) ss := by
  refine ofLines_all h (fun l hl part e hpart he => ?_) (fun _ _ => trivial)
    (fun _ _ hpath => hpath) trivial
  have hspelled := Expr.spelledIn_of_derives (Expr.derives_of_ofTokens he)
  exact Expr.all_mono hspelled (Expr.Touches.mono fun p hp => hP l hl p (hpart.spells hp))

/-- Whether a reference that a method declares names a variable of its model, the states and the
old states being one. -/
def MethodSource.Declares (d : Definition) (dialect : Dialect) (m : MethodSource) (path : VarPath) :
    Prop :=
  ∃ s, Scope.ofMethod d dialect m = .ok s ∧ ∃ r ∈ m.references.all, ∃ g,
    s.declaredVariable r = .ok (g, path.name) ∧
      (g = path.group ∨ Scope.counterpart? path.group = some g)

theorem Scope.declares_of_permits {d : Definition} {dialect : Dialect} {m : MethodSource} {s : Scope}
    {path : VarPath} (hs : ofMethod d dialect m = .ok s) (hm : m.references.isEmpty = false)
    (howner : path.owner = []) (h : s.permits path = true) : m.Declares d dialect path := by
  refine ⟨s, hs, ?_⟩
  obtain ⟨s₀, -, hs⟩ := bind_eq_ok hs
  rw [if_neg (by simp [hm])] at hs
  obtain ⟨declared, hdeclared, hs⟩ := bind_eq_ok hs
  cases hs
  have hnamed : ∀ g, (g, path.name) ∈ declared →
      ∃ r ∈ m.references.all, s₀.declaredVariable r = .ok (g, path.name) :=
    fun g hg => mem_of_mapM hdeclared hg
  simp only [permits, howner, List.isEmpty_nil, Bool.not_true, Bool.false_or, Bool.or_eq_true,
    List.contains_iff_mem, Option.any_eq_true] at h
  rcases h with h | ⟨g, hg, h⟩
  · obtain ⟨r, hr, hname⟩ := hnamed _ h
    exact ⟨r, hr, path.group, hname, .inl rfl⟩
  · obtain ⟨r, hr, hname⟩ := hnamed g h
    exact ⟨r, hr, g, hname, .inr hg⟩

theorem NormalBody.permits_of_spells {s s' : Scope} (hs : s.Sound Scope.Reachable)
    {ls out normal : List LogicalLine} {names : List Local} {name : String}
    (hlines : s.lines ls = .ok (out, s'))
    (hnormal : normalLines s.dialect name names out = .ok normal) (howner : p.owner = [])
    {l : LogicalLine} (hl : l ∈ normal) (hp : Spells p false l.tokens) : s.permits p = true := by
  obtain ⟨-, rs, hrs, hout⟩ := Scope.reads_lines (Scope.admits_reachable _) hs hlines
  rw [normalLines_eq_ok hnormal, hout] at hl
  obtain ⟨l', hl', rfl⟩ := List.mem_map.1 hl
  obtain ⟨r, -, hr⟩ := exists_of_forall₂ hrs.flip (List.mem_filter.1 hl').1
  have hspelled : Spells p false l'.tokens := by
    unfold expand at hp
    split_ifs at hp
    · exact hp
    · exact spells_expandTokens hp
  have hpermits := Scope.permits_of_rewritten hr.sound (Scope.rewritten_of_tokens hr.tokens) howner hspelled
  rwa [Scope.permits, hr.renames.declared] at hpermits

theorem Method.compile_declares {d : Definition} {dialect : Dialect} {kind : MethodKind}
    {name : String} {f : Method} (h : Method.compile d dialect kind name = .ok f)
    (hrefs : f.source.references.isEmpty = false) :
    Stmt.AllIn (Expr.Touches fun p => p.owner = [] → f.source.Declares d dialect p)
      (Target.Touches fun p => p.owner = [] → f.source.Declares d dialect p) f.body.stmts := by
  obtain ⟨resolved, normal, -, hresolved, hnormal, hbody⟩ := Method.compile_eq_ok h
  obtain ⟨s, hs, hresolved⟩ := bind_eq_ok hresolved
  obtain ⟨block, -, hresolved⟩ := bind_eq_ok hresolved
  obtain ⟨⟨lines, s'⟩, hlines, hresolved⟩ := bind_eq_ok hresolved
  cases hresolved
  obtain ⟨out, hout, hnormal⟩ := bind_eq_ok hnormal
  cases hnormal
  obtain ⟨stmts, hstmts, hbody⟩ := bind_eq_ok hbody
  obtain ⟨returns, -, hbody⟩ := bind_eq_ok hbody
  have hsame : f.body.stmts = stmts := (congrArg Body.stmts (Except.ok.inj hbody)).symm
  replace hs := Scope.onLine_eq_ok hs
  obtain ⟨hsound, -, hdialect⟩ := Scope.ofMethod_eq_ok (Scope.admits_reachable d) hs
  rw [hsame]
  refine Stmt.ofLines_touches hstmts fun l hl p hp howner => ?_
  have hpermits := NormalBody.permits_of_spells hsound hlines (hdialect ▸ hout) howner hl hp
  exact Scope.declares_of_permits hs hrefs howner hpermits

/-- Every variable of the model itself that a compiled method with references reads or writes,
wherever it stands in the body, is one that a reference of the method names. -/
theorem Model.compile_touches_declared {dialect : Dialect} {d : Definition} {m s : Model}
    {o : List String} {f : Method} (hm : compile dialect d = .ok m) (hs : m.descend? o = some s)
    (hf : f ∈ s.methods) (hrefs : f.source.references.isEmpty = false) :
    (∀ path indices, .var path indices ∈ Stmt.nodes f.body.stmts → path.owner = [] →
        f.source.Declares s.definition dialect path) ∧
      ∀ path indices, .var path indices ∈ Stmt.targetsAll f.body.stmts → path.owner = [] →
        f.source.Declares s.definition dialect path := by
  obtain ⟨d', -, hread⟩ := read_descend? (compile_eq_ok hm).1 hs
  obtain ⟨rfl, -, -⟩ := read_eq_ok hread
  obtain ⟨entry, -, hcompiled⟩ := read_methods hread hf
  have hall := Method.compile_declares hcompiled hrefs
  obtain ⟨hnodes, htargets⟩ := (Stmt.allIn_iff_nodes _).1 hall
  exact ⟨fun path indices hmem => hnodes _ hmem, fun path indices hmem => htargets _ hmem⟩

def pond : Definition where
  name := "pond"
  sources := [⟨"pond.mdl", "def calc(model):\n    w = model.sequences.states.fastaccess\n" ++
    "    flu.q += con.k * (old.v - w.v)\n"⟩]
  groups := [{ kind := .control, vars := [{ name := "k" }] },
    { kind := .fluxes, vars := [{ name := "q" }] }, { kind := .states, vars := [{ name := "v" }] }]
  methods := { run := ["calc"] }
  references := [("calc", {
    requires := [⟨"con", "k"⟩, ⟨"sta", "v"⟩]
    results := [⟨"flu", "q"⟩] })]

/-- The pond reads the old state, and declares it. -/
theorem pond_touches_declared :
    ∃ m f indices, Model.compile {} pond = .ok m ∧ f ∈ m.methods ∧
      f.source.references.isEmpty = false ∧
      .var ⟨[], .oldStates, "v"⟩ indices ∈ Stmt.nodes f.body.stmts ∧
      f.source.Declares m.definition {} ⟨[], .oldStates, "v"⟩ := by
  have hrun : ((Model.compile {} pond).toOption.any fun m =>
      (m.method? "calc").any fun f : Method => f.source.references.isEmpty = false ∧
        ¬∀ e ∈ Stmt.nodes f.body.stmts, e.Touches (· ≠ ⟨[], .oldStates, "v"⟩)) := by
    decide +kernel
  obtain ⟨m, hcompile, h⟩ := exists_ok_of_any hrun
  obtain ⟨f, hf, h⟩ := (Option.any_eq_true _ _).1 h
  obtain ⟨hrefs, hread⟩ := of_decide_eq_true h
  have hmem := (Model.method?_mem hf).1
  simp only [not_forall] at hread
  obtain ⟨e, he, htouches⟩ := hread
  cases e with
  | var path indices =>
    obtain rfl : path = ⟨[], .oldStates, "v"⟩ := not_not.1 htouches
    have hnodes := (Model.compile_touches_declared hcompile (o := []) (s := m) rfl hmem hrefs).1
    exact ⟨m, f, indices, hcompile, hmem, hrefs, he, hnodes _ indices he rfl⟩
  | _ => exact absurd trivial htouches

end ProcessModel
