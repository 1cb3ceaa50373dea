import ProcessModel.Proofs.Keys
import ProcessModel.Proofs.Reading
import ProcessModel.Proofs.Resolution

/-! What resolution writes is read back as what it found.

Resolution follows a chain through the tree of models, and reading cuts the names behind `self` at
the first one that is a family. No sub-model on a way that resolution takes is named like a family,
since at a model a family goes before a sub-model. -/

namespace ProcessModel

namespace Designation

/-- What a chain ends at is there: the variable is declared and the method is one of its model. -/
def Exists (d : Definition) : Designation → Prop
  | .var path => ∃ v, d.declared? path = some v
  | .method owner name => ∃ d', d.descend? owner = some d' ∧ d'.methods.contains name = true
  | _ => True

end Designation

namespace Scope

variable {s s' : Scope} {call : Bool} {chain : List String}

/-- The scopes of a method: the one it starts with, and those after bindings. -/
inductive InForce (d : Definition) (dialect : Dialect) (m : MethodSource) : Scope → Prop
  | start {s : Scope} (h : ofMethod d dialect m = .ok s) : InForce d dialect m s
  | bind {s s' : Scope} {line : LogicalLine} (hs : InForce d dialect m s)
      (h : s.bind line = .ok s') : InForce d dialect m s'

section InForce

variable {d : Definition} {dialect : Dialect} {m : MethodSource} {A : String → Prop}

theorem InForce.sound (hA : Admits A d) (h : InForce d dialect m s) :
    s.Sound A ∧ s.definition = d ∧ s.dialect = dialect := by
  induction h with
  | start h => exact ofMethod_eq_ok hA h
  | bind hs h ih =>
    obtain ⟨hsound, rfl, rfl⟩ := ih
    obtain ⟨hsound', hrenames⟩ := bind_sound hA hsound h
    exact ⟨hsound', hrenames.definition, hrenames.dialect⟩

theorem admits_plain (d : Definition) : Admits (fun name => Family.ofName? name = none) d :=
  fun _ _ _ _ _ hplain => hplain

end InForce

def found (s : Scope) (chain : List String) (call : Bool) : Except Construct Designation :=
  s.start .unknownObject chain >>= fun r => s.walk call r.1 r.2

def callsHelper (s : Scope) (chain : List String) : Bool :=
  chain.headD "" = s.dialect.helpers && chain.length = 2 && (s.aliases.longest? chain).isNone

/-- The tokens for what a chain leads to. -/
def spell (s : Scope) (chain : List String) : Designation → Except Construct (Option (List Token))
  | .var path =>
    if s.permits path then .ok (some (.ofName "self" :: dotted path.segments))
    else .error (.undeclaredUse path.group.name path.name)
  | .method owner name => .ok (some (.ofName "self" :: dotted (owner ++ [name])))
  | _ => .error (.notAVariable (Text.joinWith "." chain))

theorem use_eq_found (hlength : chain.length ≠ 1) (hhelper : s.callsHelper chain = false) :
    s.use chain call = s.found chain call >>= s.spell chain := by
  have halone : decide (chain.length = 1) = false := decide_eq_false hlength
  have hhelper' : (decide (chain.headD "" = s.dialect.helpers) && decide (chain.length = 2) &&
      (s.aliases.longest? chain).isNone) = false := hhelper
  unfold use found
  simp only [halone, hhelper', Bool.false_and, Bool.false_eq_true, if_false]
  cases s.start .unknownObject chain with
  | error cause => rfl
  | ok r =>
    simp only [ok_bind]
    cases s.walk call r.1 r.2 with
    | error cause => rfl
    | ok found => cases found <;> rfl

variable {found : Designation}

theorem step_exists {last : Bool} {name : String} {start : Designation}
    (h : s.step call last name start = .ok found) : found.Exists s.definition := by
  cases start with
  | model owner =>
    obtain ⟨d, hd, h⟩ := bind_eq_ok h
    split at h
    · cases h
      trivial
    · split_ifs at h with hsub hmethod
      · cases h
        trivial
      · cases h
        simp only [Bool.and_eq_true] at hmethod
        exact ⟨d, model_eq_ok hd, hmethod.2⟩
  | family owner f =>
    obtain ⟨d, -, h⟩ := bind_eq_ok h
    split at h
    · split_ifs at h
      cases h
      trivial
    · cases h
  | group owner g =>
    unfold step at h
    split_ifs at h
    · cases h
      trivial
    · obtain ⟨d, hd, h⟩ := bind_eq_ok h
      split_ifs at h with hgroup hvar
      cases h
      obtain ⟨v, hv⟩ := Option.ne_none_iff_exists'.1 (mt Option.isNone_iff_eq_none.2 hvar)
      exact ⟨v, by simp [Definition.declared?, model_eq_ok hd, hv]⟩
  | var path => cases h
  | method owner name => cases h

theorem walk_exists {start : Designation} (hstart : start.Exists s.definition)
    (h : s.walk call start chain = .ok found) : found.Exists s.definition := by
  induction chain generalizing start with
  | nil =>
    cases h
    exact hstart
  | cons name rest ih =>
    obtain ⟨next, hnext, h⟩ := bind_eq_ok h
    exact ih (step_exists hnext) h

theorem found_of_use {A : String → Prop} (hs : s.Sound A) (hhelper : s.callsHelper chain = false)
    {ts : List Token} (h : s.use chain call = .ok (some ts)) :
    ∃ found, s.found chain call = .ok found ∧ s.spell chain found = .ok (some ts) := by
  have hlength : chain.length ≠ 1 := by
    intro hlength
    obtain ⟨x, rfl⟩ := List.length_eq_one_iff.1 hlength
    have hnone : s.enters? [x] call = none := enters?_single hs x
    cases uses_of_use h with
    | var _ hstart hwalk =>
      rw [enters?_var hstart hwalk] at hnone
      cases hnone
    | method _ hstart hwalk =>
      rw [enters?_method hstart hwalk] at hnone
      cases hnone
  rw [use_eq_found hlength hhelper] at h
  exact bind_eq_ok h

theorem found_plain (hs : s.Sound fun name => Family.ofName? name = none)
    (h : s.found chain call = .ok found) :
    (∀ name ∈ found.owner, Family.ofName? name = none) ∧ found.Exists s.definition ∧
      ∀ owner name, found = .method owner name → Family.ofName? name = none := by
  obtain ⟨⟨first, rest⟩, hstart, hwalk⟩ := bind_eq_ok h
  have hfirst := (start_sound hs hstart).1.1
  refine ⟨walk_owner (admits_plain _) hs hstart hwalk, ?_, ?_⟩
  · refine walk_exists ?_ hwalk
    cases first with
    | var path => cases hfirst
    | method owner name => cases hfirst
    | _ => trivial
  · rintro owner name rfl
    obtain ⟨_, -, before, hsteps⟩ := (walk_last hfirst hwalk).resolve_left Bool.false_ne_true
    cases hsteps with
    | method hplain => exact hplain

end Scope

/-- The tokens of the indices of a variable. A variable without dimensions has none. -/
def indexTokens (parts : List (List Token × Expr)) : List Token :=
  if parts.isEmpty then [] else .ofOp "[" :: (listed parts ++ [.ofOp "]"])

def argumentTokens (parts : List (List Token × Expr)) (comma : List Token) : List Token :=
  .ofOp "(" :: (listed parts ++ (comma ++ [.ofOp ")"]))

section ReadBack

open ProcessModel.Expr

variable {names : Names} {parts : List (List Token × Expr)} {comma rest : List Token} {n : Nat}

theorem Names.item_of_ofTokens (h : ∀ p ∈ parts, ofTokens names p.1 = .ok p.2) :
    ∀ p ∈ parts, names.Item p :=
  fun p hp => (closed_of_ofTokens (closed_settles names) (h p hp)).item

theorem Expr.member_of_declared {path : VarPath} {v : Variable}
    (hplain : ∀ s ∈ path.owner, Family.ofName? s = none)
    (hv : names.definition.declared? path = some v)
    (hparts : ∀ p ∈ parts, ofTokens names p.1 = .ok p.2) (hndim : parts.length = v.ndim)
    (hrest : parts = [] → ∀ t ∈ rest.head?, t ∉ [.ofOp ".", .ofOp "["])
    (hn : 12 * (dotted path.segments ++ indexTokens parts).length ≤ n) :
    member names (n + 1) (dotted path.segments ++ (indexTokens parts ++ rest)) =
      .ok (.var path (parts.map (·.2)), rest) := by
  cases parts with
  | nil => exact Names.member_var hplain hv hndim.symm n (hrest rfl)
  | cons p parts =>
    have hindex : indexTokens (p :: parts) = .ofOp "[" :: (listed (p :: parts) ++ [.ofOp "]"]) :=
      rfl
    rw [hindex] at hn ⊢
    simp only [List.length_append, List.length_cons] at hn
    simp only [List.cons_append, List.append_assoc, List.nil_append]
    exact Names.member_indexed hplain hv (Names.item_of_ofTokens hparts) (by simp) hndim
      (by omega) rest

theorem Expr.member_of_method {owner : List String} {name : String}
    (hplain : ∀ s ∈ owner ++ [name], Family.ofName? s = none)
    (hparts : ∀ p ∈ parts, ofTokens names p.1 = .ok p.2) (hcomma : EndsList parts comma)
    (hn : 12 * (dotted (owner ++ [name]) ++ argumentTokens parts comma).length ≤ n) :
    member names (n + 1) (dotted (owner ++ [name]) ++ (argumentTokens parts comma ++ rest)) =
      .ok (.call (.method owner name) (parts.map (·.2)), rest) := by
  simp only [argumentTokens, List.length_append, List.length_cons] at hn
  simp only [argumentTokens, List.cons_append, List.append_assoc, List.nil_append]
  exact Names.member_call hplain (Names.item_of_ofTokens hparts) hcomma
    (by simp only [List.length_append]; omega) rest

end ReadBack

namespace Scope

/-- Resolution and reading mean the same. The tokens that take the place of a chain in a method are
read behind `self` as the variable, or as the call of the method, that the chain leads to. -/
theorem use_read_back {d : Definition} {dialect : Dialect} {m : MethodSource} {s : Scope}
    (hs : InForce d dialect m s) {chain : List String} {call : Bool} {ts : List Token}
    (hhelper : s.callsHelper chain = false) (huse : s.use chain call = .ok (some ts)) :
    ∃ behind, ts = .ofName "self" :: behind ∧
      ((∃ path v, s.found chain call = .ok (.var path) ∧ d.declared? path = some v ∧
          ∀ (names : Names) (parts : List (List Token × Expr)) (rest : List Token) (n : Nat),
            names.definition = d → (∀ p ∈ parts, Expr.ofTokens names p.1 = .ok p.2) →
            parts.length = v.ndim →
            (parts = [] → ∀ t ∈ rest.head?, t ∉ [.ofOp ".", .ofOp "["]) →
            12 * (behind ++ indexTokens parts).length ≤ n →
            Expr.member names (n + 1) (behind ++ (indexTokens parts ++ rest)) =
              .ok (.var path (parts.map (·.2)), rest)) ∨
        ∃ owner name d', s.found chain call = .ok (.method owner name) ∧
          d.descend? owner = some d' ∧ d'.methods.contains name = true ∧
          ∀ (names : Names) (parts : List (List Token × Expr)) (comma rest : List Token) (n : Nat),
            names.definition = d → (∀ p ∈ parts, Expr.ofTokens names p.1 = .ok p.2) →
            EndsList parts comma → 12 * (behind ++ argumentTokens parts comma).length ≤ n →
            Expr.member names (n + 1) (behind ++ (argumentTokens parts comma ++ rest)) =
              .ok (.call (.method owner name) (parts.map (·.2)), rest)) := by
  obtain ⟨hsound, rfl, -⟩ := hs.sound (admits_plain d)
  obtain ⟨found, hfound, hspell⟩ := found_of_use hsound hhelper huse
  obtain ⟨howner, hexists, hmethod⟩ := found_plain hsound hfound
  cases found with
  | var path =>
    obtain ⟨v, hv⟩ := hexists
    dsimp only [spell] at hspell
    split_ifs at hspell
    cases hspell
    refine ⟨_, rfl, .inl ⟨path, v, hfound, hv, ?_⟩⟩
    intro names parts rest n hnames hparts hndim hrest hn
    exact Expr.member_of_declared howner (hnames ▸ hv) hparts hndim hrest hn
  | method owner name =>
    obtain ⟨d', hd', hcontains⟩ := hexists
    cases hspell
    refine ⟨_, rfl, .inr ⟨owner, name, d', hfound, hd', hcontains, ?_⟩⟩
    intro names parts comma rest n hnames hparts hcomma hn
    refine Expr.member_of_method (fun x hx => ?_) hparts hcomma hn
    rcases List.mem_append.1 hx with hx | hx
    · exact howner x hx
    · rw [List.mem_singleton.1 hx]
      exact hmethod owner name rfl
  | model owner => cases hspell
  | family owner f => cases hspell
  | group owner g => cases hspell

def headwater : Definition where
  name := "headwater"
  submodels := [("loss", {
    name := "loss", groups := [⟨.states, [{ name := "parameters", ndim := 1 }]⟩] })]

def headwaterSource : MethodSource where
  name := "calc"
  kind := .run
  source := "def calc(model):\n    low = model.loss.sequences.states.fastaccess\n"
  doc := ""
  params := ["model"]
  locals := ["low"]
  line := 1
  origin := "headwater.mdl"
  references := {}

/-- The scope behind `low = model.loss.sequences.states.fastaccess`. -/
def headwaterScope : Scope where
  definition := headwater
  dialect := {}
  aliases := AliasTable.shortcuts ++ [(["low"], .group ["loss"] (.kind .states))]

theorem headwaterScope_inForce : InForce headwater {} headwaterSource headwaterScope := by
  have hstart : ofMethod headwater {} headwaterSource =
      .ok { definition := headwater, dialect := {}, aliases := .shortcuts } := rfl
  have hbind : Scope.bind { definition := headwater, dialect := {}, aliases := .shortcuts }
      ⟨4, 2, [.ofName "low", .ofOp "=", .ofName "model"] ++
        dotted ["loss", "sequences", "states", "fastaccess"]⟩ = .ok headwaterScope := rfl
  exact .bind (.start hstart) hbind

/-- The first family among the names is where the model is left, whatever the variable is named. -/
theorem headwater_read_back :
    headwater.Built ∧ headwaterScope.callsHelper ["low", "parameters"] = false ∧
      headwaterScope.use ["low", "parameters"] false =
        .ok (some (.ofName "self" :: dotted ["loss", "sequences", "states", "parameters"])) ∧
      Expr.member ⟨headwater, [⟨"n", .int⟩]⟩ 145
          (dotted ["loss", "sequences", "states", "parameters"] ++
            (indexTokens [([.ofName "n"], .loc "n")] ++ [.ofOp "*", ⟨.number, "2"⟩])) =
        .ok (.var ⟨["loss"], .kind .states, "parameters"⟩ [.loc "n"],
          [.ofOp "*", ⟨.number, "2"⟩]) := by
  have hhelper : headwaterScope.callsHelper ["low", "parameters"] = false := by decide
  have huse : headwaterScope.use ["low", "parameters"] false =
      .ok (some (.ofName "self" :: dotted ["loss", "sequences", "states", "parameters"])) := rfl
  have hfound : headwaterScope.found ["low", "parameters"] false =
      .ok (.var ⟨["loss"], .kind .states, "parameters"⟩) := rfl
  have hbuilt : headwater.Built := by
    refine .of_canonical (by decide) (by decide +kernel) (by decide) fun e he => ?_
    obtain rfl := List.mem_singleton.1 he
    exact .of_canonical (by decide) (by decide +kernel) (by decide) (by simp)
  refine ⟨hbuilt, hhelper, huse, ?_⟩
  obtain ⟨behind, hbehind, hvar | hmethod⟩ := use_read_back headwaterScope_inForce hhelper huse
  · obtain ⟨path, v, hpath, hv, hread⟩ := hvar
    cases hbehind
    cases hfound.symm.trans hpath
    obtain rfl : { name := "parameters", ndim := 1 } = v := Option.some.inj hv
    exact hread _ [([.ofName "n"], .loc "n")] _ _ rfl (List.forall_mem_singleton.2 rfl) rfl
      (by simp) (by decide)
  · obtain ⟨owner, name, d', hfound', -⟩ := hmethod
    cases hfound.symm.trans hfound'

end Scope

end ProcessModel
