import ProcessModel.Proofs.References
import ProcessModel.Proofs.SourceLines

/-! The names that stand alone in a resolved statement.

A shorthand stands for the model or a part of it and is no value, so that resolution puts a path in
its place. It refuses a shorthand that stands alone in the source; what it writes itself is not
looked at again. -/

namespace ProcessModel

namespace Scope

variable {s : Scope} {A : String → Prop}

/-- The names in tokens that neither follow a point nor open a call. -/
def bareNames (after : Bool) : List Token → List String
  | [] => []
  | t :: ts =>
    if t.kind = .name ∧ after = false ∧ opensCall ts = false then
      t.text :: bareNames (t.isOp ".") ts
    else bareNames (t.isOp ".") ts

/-- Whether a name stands for the model or a part of it. -/
def isShorthand (s : Scope) (x : String) : Bool := x == "model" || s.aliases.isContainer x

/-- Whether a chain is the name of a helper behind the word for helpers. -/
def namesHelper (s : Scope) (chain : List String) : Bool :=
  chain.head? == some s.dialect.helpers && chain.length == 2 && (s.aliases.longest? chain).isNone

/-- The bare name in what takes the place of a chain. -/
def leaves? (s : Scope) (c : List String × Bool) : Option String :=
  if s.namesHelper c.1 then if c.2 then none else c.1.getLast?
  else if c.1.length = 1 then if c.2 then none else c.1.head?
  else some "self"

/-- Whether a chain leaves no shorthand over: the name of a helper is none or called, and anything
else but a single name is put below a `self` that is none. -/
def spares (s : Scope) (c : List String × Bool) : Bool :=
  if s.namesHelper c.1 then c.2 || c.1.getLast?.all fun x => !s.isShorthand x
  else c.1.length == 1 || !s.isShorthand "self"

variable {after : Bool} {t : Token} {ts : List Token}

section Names

theorem bareNames_of_kind (h : t.kind ≠ .name) :
    bareNames after (t :: ts) = bareNames (t.isOp ".") ts := by
  simp [bareNames, h]

theorem bareNames_after_point (t : Token) (ts : List Token) :
    bareNames true (t :: ts) = bareNames (t.isOp ".") ts := by
  simp [bareNames]

theorem bareNames_ofName (x : String) (ts : List Token) :
    bareNames false (.ofName x :: ts) =
      if opensCall ts then bareNames false ts else x :: bareNames false ts := by
  have hkind : (Token.ofName x).kind = .name := rfl
  have hpoint : (Token.ofName x).isOp "." = false := rfl
  by_cases hcall : opensCall ts = true <;> simp [bareNames, hcall, hkind, hpoint]

theorem bareNames_dotted (chain : List String) (ts : List Token) :
    bareNames false (dotted chain ++ ts) = bareNames false ts := by
  induction chain with
  | nil => rfl
  | cons x chain ih =>
    rw [dotted_cons, List.cons_append, List.cons_append, bareNames_of_kind (by simp [Token.ofOp])]
    exact (bareNames_after_point _ _).trans ih

theorem bareNames_path (chain : List String) (hchain : chain ≠ []) (ts : List Token) :
    bareNames false (.ofName "self" :: dotted chain ++ ts) = "self" :: bareNames false ts := by
  obtain ⟨x, chain, rfl⟩ := List.exists_cons_of_ne_nil hchain
  have hcall : opensCall (dotted (x :: chain) ++ ts) = false := rfl
  rw [List.cons_append, bareNames_ofName, hcall, bareNames_dotted]
  rfl

end Names

section Chain

theorem leaves?_single (s : Scope) (x : String) (call : Bool) :
    s.leaves? ([x], call) = if call then none else some x := by
  simp [leaves?, namesHelper]

variable {call : Bool} {chain : List String} {found : Option (List Token)}

theorem leaves?_of_enters? (hs : s.Sound A) {owner : List String}
    (hnone : ¬(chain.headD "" = s.dialect.helpers ∧ chain.length = 2 ∧
      s.aliases.longest? chain = none))
    (henters : s.enters? chain call = some owner) : s.leaves? (chain, call) = some "self" := by
  have hlength : chain.length ≠ 1 := by
    intro hlength
    obtain ⟨x, rfl⟩ := List.length_eq_one_iff.1 hlength
    rw [enters?_single hs] at henters
    cases henters
  have hnames : s.namesHelper chain = false := by
    cases chain with
    | nil => rfl
    | cons x rest => simpa [namesHelper, Option.isSome_iff_ne_none] using hnone
  simp [leaves?, hnames, hlength]

theorem bareNames_use (hs : s.Sound A) {x : String} {rest : List String}
    (h : s.use (x :: rest) (opensCall ts) = .ok found) :
    bareNames false (found.getD [.ofName x] ++ ts) =
      (s.leaves? (x :: rest, opensCall ts)).toList ++ bareNames false ts := by
  have hlone : ∀ y, bareNames false (.ofName y :: ts) =
      (if opensCall ts then none else some y).toList ++ bareNames false ts := by
    intro y
    rw [bareNames_ofName]
    split_ifs <;> rfl
  cases uses_of_use h with
  | single =>
    rw [leaves?_single]
    exact hlone x
  | @helper y hunknown =>
    have hnames : s.namesHelper [s.dialect.helpers, y] = true := by simp [namesHelper, hunknown]
    simpa [leaves?, hnames] using hlone y
  | @var _ _ _ path hnone hstart hwalk hpermits =>
    rw [leaves?_of_enters? hs hnone (enters?_var hstart hwalk)]
    exact bareNames_path path.segments (by simp [VarPath.segments]) ts
  | @method _ _ owner _ name hnone hstart hwalk =>
    rw [leaves?_of_enters? hs hnone (enters?_method hstart hwalk)]
    exact bareNames_path (owner ++ [name]) (by simp) ts

theorem isShorthand_single {x : String} (h : s.use [x] call = .ok found) :
    call = true ∨ s.isShorthand x = false := by
  unfold use at h
  dsimp only at h
  split_ifs at h with hcalled hbare
  all_goals simp_all [isShorthand]

end Chain

variable {out : List Token}

theorem opensCall_rewritten (h : s.Rewritten after ts out) : opensCall out = opensCall ts := by
  cases h with
  | nil => rfl
  | keep => rfl
  | chain hself hfound h =>
    obtain ⟨x, rest, hfirst⟩ := head_of_use hfound
    rw [hfirst]
    rfl

theorem bareNames_tokens (hs : s.Sound A) (h : s.tokens after ts = .ok out) :
    bareNames after out = (chains after ts).filterMap s.leaves? := by
  replace h := rewritten_of_tokens h
  induction h with
  | nil => simp [chains, bareNames]
  | @keep after t ts out hkept h ih =>
    have hbare : bareNames after (t :: out) = bareNames (t.isOp ".") out := by
      rcases hkept with hkind | rfl
      · exact bareNames_of_kind hkind
      · exact bareNames_after_point t out
    rw [chains_keep hkept, hbare]
    exact ih
  | @chain x ts out found hself hfound hout ih =>
    have hcall : opensCall out = opensCall (chainRest ts).2 := opensCall_rewritten hout
    have hused := bareNames_use hs (hcall ▸ hfound)
    rw [chains_name rfl, Token.text_ofName, ← hcall, hused, ih, List.filterMap_cons]
    cases s.leaves? (x :: (chainRest ts).1, opensCall out) <;> rfl

theorem isShorthand_of_tokens (h : s.tokens after ts = .ok out) :
    ∀ c ∈ chains after ts, c.1.length = 1 → ∀ x ∈ s.leaves? c, s.isShorthand x = false := by
  replace h := rewritten_of_tokens h
  induction h with
  | nil => simp [chains]
  | keep hkept h ih =>
    rw [chains_keep hkept]
    exact ih
  | @chain y ts out found hself hfound h ih =>
    rw [chains_name rfl, List.forall_mem_cons]
    refine ⟨fun hlength x hx => ?_, ih⟩
    have hrest : (chainRest ts).1 = [] := by simpa using hlength
    rw [hrest] at hfound
    rw [hrest, leaves?_single, Option.mem_def, Option.ite_none_left_eq_some] at hx
    obtain ⟨hcalled, hx⟩ := hx
    cases hx
    exact (isShorthand_single hfound).resolve_left hcalled

/-- A resolved statement has no bare shorthand exactly if all chains of the statement spare it. -/
theorem isShorthand_bareNames_iff (hs : s.Sound A) (h : s.tokens false ts = .ok out) :
    (∀ x ∈ bareNames false out, s.isShorthand x = false) ↔
      ∀ c ∈ chains false ts, s.spares c = true := by
  have hsingle := isShorthand_of_tokens h
  have hspares : ∀ c ∈ chains false ts,
      (∀ x ∈ s.leaves? c, s.isShorthand x = false) ↔ s.spares c = true := by
    intro c hc
    have hlone := hsingle c hc
    unfold spares
    unfold leaves? at hlone ⊢
    clear hsingle
    split_ifs with hhelper hcalled hlength hcalled
    all_goals simp_all [Option.all_eq_true]
  rw [bareNames_tokens hs h]
  constructor
  · intro hall c hc
    exact (hspares c hc).1 fun x hx => hall x (List.mem_filterMap.2 ⟨c, hc, hx⟩)
  · intro hall x hx
    obtain ⟨c, hc, hx⟩ := List.mem_filterMap.1 hx
    exact (hspares c hc).2 (hall c hc) x hx

end Scope

namespace ResolvedBody

variable {d : Definition} {dialect : Dialect} {source : MethodSource} {resolved : ResolvedBody}

/-- The bare names of a resolved body, line by line: each is a single name of the statement, the
name of a helper, or the `self` before a path. So no line has a shorthand of the scope in force
there among them, unless a helper is named like one or `self` was made one. -/
theorem ofMethod_spares_iff (h : ofMethod d dialect source = .ok resolved) :
    ∃ block scope lines, Script.tokensOf source.source source.line = .ok block ∧
      Scope.ofMethod d dialect source = .ok scope ∧
      (scope.reads (block.lines.drop 1)).map (·.2) =
        (block.lines.drop 1).filter (Scope.isPlain dialect) ∧
      (resolved.lines.filter fun l => !l.containsName dialect.fastMarker) =
        (lines.filter fun l => !l.containsName dialect.fastMarker) ∧
      List.Forall₂ (fun r out => r.1.tokens false r.2.tokens = .ok out.tokens ∧
          Scope.bareNames false out.tokens =
            (Scope.chains false r.2.tokens).filterMap r.1.leaves? ∧
          ((∀ x ∈ Scope.bareNames false out.tokens, r.1.isShorthand x = false) ↔
            ∀ c ∈ Scope.chains false r.2.tokens, r.1.spares c = true))
        (scope.reads (block.lines.drop 1)) lines := by
  obtain ⟨scope, hscope, h⟩ := bind_eq_ok h
  obtain ⟨block, hblock, h⟩ := bind_eq_ok h
  obtain ⟨⟨out, scope'⟩, hlines, h⟩ := bind_eq_ok h
  cases h
  replace hscope := Scope.onLine_eq_ok hscope
  have hany : Scope.Admits (fun _ => True) d := fun _ _ _ _ _ _ => trivial
  obtain ⟨hsound, hd, hdialect⟩ := Scope.ofMethod_eq_ok hany hscope
  obtain ⟨hplain, lines, hresolves, hout⟩ := Scope.reads_lines (hd ▸ hany) hsound hlines
  rw [hdialect] at hplain hout
  refine ⟨block, scope, lines, hblock, hscope, hplain, hout, hresolves.imp fun r out hr => ?_⟩
  exact ⟨hr.tokens, Scope.bareNames_tokens hr.sound hr.tokens,
    Scope.isShorthand_bareNames_iff hr.sound hr.tokens⟩

def weir (outflow : String) : Definition where
  name := "weir"
  sources := [⟨"weir.mdl", "def calc(model, flu):\n    flu.q = " ++ outflow ++ "\n"⟩]
  groups := [{ kind := .fluxes, vars := [{ name := "q" }] }]
  methods := { run := ["calc"] }

/-- No shorthand is left over where the helper is a function. -/
theorem weir_spares :
    ∃ source resolved block scope lines,
      MethodSource.find (weir "modelutils.exp(flu.q)") ({} : Dialect).fastMarker "calc" .run =
        .ok source ∧
      ofMethod (weir "modelutils.exp(flu.q)") {} source = .ok resolved ∧
      Script.tokensOf source.source source.line = .ok block ∧
      Scope.ofMethod (weir "modelutils.exp(flu.q)") {} source = .ok scope ∧
      (scope.reads (block.lines.drop 1)).length = 1 ∧
      (resolved.lines.filter fun l => !l.containsName ({} : Dialect).fastMarker) =
        (lines.filter fun l => !l.containsName ({} : Dialect).fastMarker) ∧
      List.Forall₂ (fun r out => ∀ x ∈ Scope.bareNames false out.tokens, r.1.isShorthand x = false)
        (scope.reads (block.lines.drop 1)) lines := by
  have hrun : ((MethodSource.find (weir "modelutils.exp(flu.q)") ({} : Dialect).fastMarker "calc"
      .run).toOption.any fun source =>
        (ofMethod (weir "modelutils.exp(flu.q)") {} source).toOption.isSome ∧
        ((Script.tokensOf source.source source.line).toOption.all fun block =>
          (Scope.ofMethod (weir "modelutils.exp(flu.q)") {} source).toOption.all fun scope =>
            (scope.reads (block.lines.drop 1)).length = 1 &&
            (scope.reads (block.lines.drop 1)).all fun r =>
              (Scope.chains false r.2.tokens).all r.1.spares) = true) := by
    decide +kernel
  obtain ⟨source, hsource, h⟩ := exists_ok_of_any hrun
  obtain ⟨hsome, hspares⟩ := of_decide_eq_true h
  obtain ⟨resolved, hresolved⟩ := Option.isSome_iff_exists.1 hsome
  replace hresolved := toOption_eq_some hresolved
  obtain ⟨block, scope, lines, hblock, hscope, -, hlines, hall⟩ := ofMethod_spares_iff hresolved
  simp only [hblock, hscope, Except.toOption, Option.all_some, Bool.and_eq_true, decide_eq_true_eq,
    List.all_eq_true] at hspares
  refine ⟨source, resolved, block, scope, lines, hsource, hresolved, hblock,
    hscope, hspares.1, hlines, ?_⟩
  refine List.forall₂_iff_zip.2 ⟨hall.length_eq, fun {r out} hmem => ?_⟩
  exact ((List.forall₂_iff_zip.1 hall).2 hmem).2.2.2 (hspares.2 r (List.of_mem_zip hmem).1)

/-- A helper with the name of a shorthand leaves the shorthand in the body. -/
theorem weir_leaves_shorthand :
    ∃ d source resolved scope, Definition.build (weir "modelutils.flu") = .ok d ∧
      MethodSource.find d ({} : Dialect).fastMarker "calc" .run = .ok source ∧
      ofMethod d {} source = .ok resolved ∧ Scope.ofMethod d {} source = .ok scope ∧
      ∃ l ∈ resolved.lines, l.containsName ({} : Dialect).fastMarker = false ∧
        ∃ x ∈ Scope.bareNames false l.tokens, scope.isShorthand x = true := by
  have hrun : ((Definition.build (weir "modelutils.flu")).toOption.any fun d =>
      (MethodSource.find d ({} : Dialect).fastMarker "calc" .run).toOption.any fun source =>
        (ofMethod d {} source).toOption.any fun resolved =>
          (Scope.ofMethod d {} source).toOption.any fun scope =>
            ∃ l ∈ resolved.lines, l.containsName ({} : Dialect).fastMarker = false ∧
              ∃ x ∈ Scope.bareNames false l.tokens, scope.isShorthand x = true) := by
    decide +kernel
  obtain ⟨d, hd, h⟩ := exists_ok_of_any hrun
  obtain ⟨source, hsource, h⟩ := exists_ok_of_any h
  obtain ⟨resolved, hresolved, h⟩ := exists_ok_of_any h
  obtain ⟨scope, hscope, h⟩ := exists_ok_of_any h
  exact ⟨d, source, resolved, scope, hd, hsource,
    hresolved, hscope, of_decide_eq_true h⟩

end ResolvedBody

end ProcessModel
