import ProcessModel.Proofs.Acceptance

/-! The keys of variables.

A key joins the names on the way to a variable by points. In a tree of definitions that were built
no name has a point, so that the key of a variable gives back its owner. -/

namespace ProcessModel

/-- The key of a variable of the model reached through `o`, seen from above. -/
def qualified (o : List String) (key : String) : String := Text.joinWith "." (o ++ [key])

theorem joinWith_cons (x : String) {names : List String} (h : names ≠ []) :
    Text.joinWith "." (x :: names) = x ++ "." ++ Text.joinWith "." names := by
  cases names with
  | nil => exact absurd rfl h
  | cons y names => exact String.intercalate_cons_cons

theorem qualified_nil (key : String) : qualified [] key = key := by
  simp [qualified, Text.joinWith]

theorem qualified_cons (x : String) (o : List String) (key : String) :
    qualified (x :: o) key = x ++ "." ++ qualified o key :=
  joinWith_cons x (by simp)

theorem qualified_inj {o : List String} {a b : String} : qualified o a = qualified o b ↔ a = b := by
  induction o with
  | nil => rw [qualified_nil, qualified_nil]
  | cons x o ih => rw [qualified_cons, qualified_cons, String.append_right_inj, ih]

theorem VarPath.key_below (p : VarPath) (o : List String) : (p.below o).key = qualified o p.key := by
  induction o with
  | nil => exact (qualified_nil p.key).symm
  | cons x o ih =>
    rw [qualified_cons, ← ih]
    exact joinWith_cons x (by simp)

theorem VarPath.below_below (p : VarPath) (q o : List String) :
    (p.below q).below o = p.below (o ++ q) := by
  simp [VarPath.below]

section Points

def Pointless (name : String) : Prop := '.' ∉ name.toList

theorem pointless_of_isIdentifier {name : String} (h : isIdentifier name = true) :
    Pointless name := by
  unfold isIdentifier at h
  unfold Pointless
  split at h
  · cases h
  · rename_i c cs hname
    rw [Bool.and_eq_true, List.all_eq_true] at h
    rw [hname, List.mem_cons, not_or]
    refine ⟨?_, fun hmem => ?_⟩
    · rintro rfl
      exact absurd h.1 (by decide)
    · exact absurd (h.2 '.' hmem) (by decide)

theorem GroupRef.pointless_name (g : GroupRef) : Pointless g.name := by
  unfold Pointless
  cases g with
  | kind k => cases k <;> decide
  | oldStates => decide

theorem joinWith_inj {a b : List String} (ha : ∀ x ∈ a, Pointless x) (hb : ∀ x ∈ b, Pointless x)
    (hane : a ≠ []) (hbne : b ≠ []) (h : Text.joinWith "." a = Text.joinWith "." b) : a = b := by
  have hsplit : ∀ l : List String, (∀ x ∈ l, Pointless x) → l ≠ [] →
      List.splitOn '.' (Text.joinWith "." l).toList = l.map String.toList := by
    intro l hl hne
    rw [Text.joinWith, String.toList_intercalate]
    exact List.splitOn_intercalate '.' (by simpa [Pointless] using hl) (by simpa using hne)
  have hmap : a.map String.toList = b.map String.toList := by
    rw [← hsplit a ha hane, ← hsplit b hb hbne, h]
  exact List.map_inj_right (fun x y hxy => String.toList_inj.1 hxy) |>.1 hmap

end Points

namespace Definition

/-- A definition that was built, from definitions that were built. -/
inductive Built : Definition → Prop
  | intro {draft d : Definition} (h : build draft = .ok d) (hsub : ∀ e ∈ d.submodels, Built e.2) :
      Built d

variable {d : Definition}

theorem Built.of_canonical (hsorted : d.groups.Pairwise (·.kind.rank ≤ ·.kind.rank))
    (hfault : d.fault? = none) (hplan : d.plan ≠ .adaptive) (hsub : ∀ e ∈ d.submodels, Built e.2) :
    d.Built := by
  have hsort : sortGroups d.groups = d.groups :=
    List.mergeSort_of_pairwise (by simpa using hsorted)
  have hself : { d with groups := sortGroups d.groups } = d := by
    rw [hsort]
    cases d
    rfl
  have hbuild : build d = .ok d := by
    simp only [build, hself, hfault, if_neg hplan]
  exact ⟨hbuild, hsub⟩

variable {draft : Definition}

theorem variables_of_build (h : build draft = .ok d) :
    ∀ g ∈ d.groups, ∀ v ∈ g.vars, isIdentifier v.name = true ∧ v.ndim ≤ maxRank := by
  intro g hg v hv
  obtain ⟨hname, hndim, -⟩ := faultFrom?_eq_none ((accepted_of_build h).groups g hg) v hv
  exact ⟨hname, hndim⟩

theorem submodels_of_build (h : build draft = .ok d) :
    ∀ e ∈ d.submodels, isIdentifier e.1 = true ∧ e.1 ∉ reservedNames :=
  fun e he => submodelFault?_eq_none (accepted_of_build h).submodels e.1 (List.mem_map_of_mem he)

theorem Built.descend? {d' : Definition} {o : List String} (h : d.Built)
    (hd : d.descend? o = some d') : d'.Built ∧ ∀ x ∈ o, Pointless x := by
  induction o generalizing d with
  | nil =>
    cases hd
    exact ⟨h, by simp⟩
  | cons x o ih =>
    obtain ⟨sub, hsub, hd⟩ := Option.bind_eq_some_iff.1 hd
    obtain ⟨hbuild, hbuilt⟩ := h
    have hmem := submodel?_mem hsub
    obtain ⟨hbelow, hnames⟩ := ih (hbuilt _ hmem) hd
    have hx := pointless_of_isIdentifier (submodels_of_build hbuild _ hmem).1
    exact ⟨hbelow, List.forall_mem_cons.2 ⟨hx, hnames⟩⟩

theorem Built.pointless (h : d.Built) {p : VarPath} (hp : (d.declared? p).isSome) :
    ∀ x ∈ p.owner ++ [p.group.name, p.name], Pointless x := by
  obtain ⟨v, hv⟩ := Option.isSome_iff_exists.1 hp
  obtain ⟨d', hd', hv⟩ := Option.bind_eq_some_iff.1 hv
  obtain ⟨⟨hbuild, -⟩, howner⟩ := h.descend? hd'
  obtain ⟨g, hg, -, hmem, hname⟩ := var?_mem hv
  have hvar := pointless_of_isIdentifier (variables_of_build hbuild g hg v hmem).1
  intro x hx
  simp only [List.mem_append, List.mem_cons, List.not_mem_nil, or_false] at hx
  rcases hx with hx | rfl | rfl
  · exact howner x hx
  · exact p.group.pointless_name
  · exact hname ▸ hvar

theorem Built.owner_eq_of_key (h : d.Built) {p q : VarPath} (hp : (d.declared? p).isSome)
    (hq : (d.declared? q).isSome) (hkey : p.key = q.key) : p.owner = q.owner := by
  have hnames := joinWith_inj (h.pointless hp) (h.pointless hq) (by simp) (by simp) hkey
  exact List.append_inj_left' hnames rfl

end Definition

end ProcessModel
