import Mathlib.Data.List.Forall2
import ProcessModel.Proofs.Folders
import ProcessModel.Script.Docstring

/-! The indentation that is taken off documentation.

The indentation that the lines share is a number of bytes, and it is cut off every line that has as
many. What is cut is white space, since no line with other characters is indented less; but white
space may take several bytes, and nothing says that the cut falls between two characters. -/

namespace ProcessModel

section Partial

variable {α β : Type} {f : α → Option β}

theorem forall₂_of_mapM_eq_some {xs : List α} {ys : List β} (h : xs.mapM f = some ys) :
    List.Forall₂ (fun x y => f x = some y) xs ys := by
  induction xs generalizing ys with
  | nil =>
    cases h
    exact .nil
  | cons x xs ih =>
    rw [List.mapM_cons] at h
    obtain ⟨y, hy, h⟩ := Option.bind_eq_some_iff.1 h
    obtain ⟨ys, hys, h⟩ := Option.bind_eq_some_iff.1 h
    cases h
    exact .cons hy (ih hys)

theorem mapM_eq_none_iff {xs : List α} : xs.mapM f = none ↔ ∃ x ∈ xs, f x = none := by
  induction xs with
  | nil => simp
  | cons x xs ih =>
    rw [List.mapM_cons, List.exists_mem_cons_iff, ← ih]
    cases f x <;> cases xs.mapM f <;> simp

end Partial

namespace Text

/-- A cut behind `n` bytes of a line goes through its character `c`, which follows `before`. -/
structure CutThrough (n : Nat) (line before : List Char) (c : Char) : Prop where
  stands : before ++ [c] <+: line
  starts : byteLength before < n
  ends : n < byteLength before + c.utf8Size

theorem dropBytes?_eq_some {n : Nat} {cs rest : List Char} (h : dropBytes? n cs = some rest) :
    ∃ taken, cs = taken ++ rest ∧ byteLength taken = n := by
  fun_induction dropBytes? n cs with
  | case1 cs => exact ⟨[], (Option.some.inj h).symm ▸ rfl, rfl⟩
  | case2 => cases h
  | case3 n c cs hfits ih =>
    obtain ⟨taken, rfl, hlen⟩ := ih h
    refine ⟨c :: taken, rfl, ?_⟩
    rw [byteLength, hlen]
    omega
  | case4 => cases h

theorem dropBytes?_eq_none_iff {n : Nat} {cs : List Char} (hn : n ≤ byteLength cs) :
    dropBytes? n cs = none ↔ ∃ before c, CutThrough n cs before c := by
  fun_induction dropBytes? n cs with
  | case1 cs => simpa using fun before c h => absurd h.starts (Nat.not_lt_zero _)
  | case2 => exact absurd hn (by simp [byteLength])
  | case3 n c cs hfits ih =>
    rw [byteLength] at hn
    rw [ih (by omega)]
    constructor
    · rintro ⟨before, d, ⟨rest, rfl⟩, hstarts, hends⟩
      refine ⟨c :: before, d, ⟨rest, rfl⟩, ?_, ?_⟩ <;> rw [byteLength] <;> omega
    · rintro ⟨before, d, hstands, hstarts, hends⟩
      cases before with
      | nil =>
        obtain rfl : d = c := (List.cons_prefix_cons.1 hstands).1
        exact absurd hends (by simpa [byteLength] using hfits)
      | cons e before =>
        obtain ⟨rfl, hbehind⟩ := List.cons_prefix_cons.1 hstands
        rw [byteLength] at hstarts hends
        exact ⟨before, d, hbehind, by omega, by omega⟩
  | case4 n c cs hfits =>
    refine iff_of_true rfl ⟨[], c, ⟨cs, rfl⟩, Nat.succ_pos n, ?_⟩
    simpa [byteLength] using hfits

theorem byteLength_mono {a b : List Char} (h : a <+: b) : byteLength a ≤ byteLength b := by
  obtain ⟨rest, rfl⟩ := h
  rw [byteLength_append]
  exact Nat.le_add_right _ _

end Text

namespace Script

open Text

section Lines

variable {lines : List (List Char)} {line : List Char}

theorem indentBytes_eq (line : List Char) :
    indentBytes line = byteLength (line.takeWhile isBlank) := by
  have hwhole := congrArg byteLength (List.takeWhile_append_dropWhile (p := isBlank) (l := line))
  rw [byteLength_append] at hwhole
  unfold indentBytes trimStart
  omega

theorem commonIndent_le (hmem : line ∈ lines) (hblank : ¬allBlank line = true) :
    commonIndent lines ≤ indentBytes line := by
  have hindent : indentBytes line ∈ (lines.filter fun l => !allBlank l).map indentBytes :=
    List.mem_map_of_mem (List.mem_filter.2 ⟨hmem, by simpa using hblank⟩)
  unfold commonIndent
  cases hmin : ((lines.filter fun l => !allBlank l).map indentBytes).min? with
  | none => exact Nat.zero_le _
  | some n => exact (List.min?_eq_some_iff.1 hmin).2 _ hindent

theorem blank_of_lt_commonIndent {before : List Char} {c : Char} (hmem : line ∈ lines)
    (hstands : before ++ [c] <+: line)
    (hstarts : byteLength before < commonIndent lines) : allBlank (before ++ [c]) = true := by
  by_cases hblank : allBlank line = true
  · exact List.all_eq_true.2 fun d hd => List.all_eq_true.1 hblank d (hstands.subset hd)
  · have hindent := commonIndent_le hmem hblank
    rw [indentBytes_eq] at hindent
    have hspace : before ++ [c] <+: line.takeWhile isBlank := by
      have hleading := List.takeWhile_prefix isBlank (l := line)
      rcases List.prefix_or_prefix_of_prefix hstands hleading with hle | hge
      · exact hle
      rcases List.prefix_concat_iff.1 hge with heq | hle
      · exact heq ▸ List.prefix_rfl
      · have := byteLength_mono hle
        omega
    exact List.all_eq_true.2 fun d hd => List.mem_takeWhile_imp (hspace.subset hd)

theorem blank_of_byteLength {taken : List Char} (hmem : line ∈ lines) (htaken : taken <+: line)
    (hlen : byteLength taken = commonIndent lines) : allBlank taken = true := by
  rcases taken.eq_nil_or_concat' with rfl | ⟨before, c, rfl⟩
  · rfl
  · refine blank_of_lt_commonIndent hmem htaken ?_
    rw [← hlen, byteLength_append]
    exact Nat.lt_add_of_pos_right (byteLength_pos (List.cons_ne_nil c []))

/-- What is left of a line when `n` bytes of white space are taken off its start, and all at its
end. -/
inductive Dedented (n : Nat) (line : List Char) : List Char → Prop
  | cut {taken rest : List Char} (hline : line = taken ++ rest) (hlen : byteLength taken = n)
      (hblank : allBlank taken = true) : Dedented n line (trimEnd rest)
  /-- A line that is too short has nothing but white space. -/
  | short (hlen : byteLength line < n) (hblank : allBlank line = true) : Dedented n line []

theorem trim_of_allBlank (h : allBlank line = true) : trim line = [] := by
  have hstart : trimStart line = [] := List.dropWhile_eq_nil_iff.2 (List.all_eq_true.1 h)
  rw [trim, hstart]
  rfl

theorem allBlank_of_short (hmem : line ∈ lines) (hshort : byteLength line < commonIndent lines) :
    allBlank line = true := by
  by_contra hblank
  have hindent := commonIndent_le hmem hblank
  rw [indentBytes_eq] at hindent
  have hleading := List.takeWhile_prefix isBlank (l := line)
  have := byteLength_mono hleading
  omega

theorem dedent?_eq_some {out : List Char} (hmem : line ∈ lines)
    (h : dedent? (commonIndent lines) line = some out) :
    Dedented (commonIndent lines) line out := by
  unfold dedent? at h
  split_ifs at h with hlen
  · obtain ⟨rest, hrest, rfl⟩ := Option.map_eq_some_iff.1 h
    obtain ⟨taken, rfl, htaken⟩ := dropBytes?_eq_some hrest
    exact .cut rfl htaken (blank_of_byteLength hmem (List.prefix_append taken rest) htaken)
  · have hshort : byteLength line < commonIndent lines := Nat.lt_of_not_le hlen
    have hblank := allBlank_of_short hmem hshort
    rw [trim_of_allBlank hblank] at h
    cases h
    exact .short hshort hblank

theorem dedent?_eq_none_iff (hmem : line ∈ lines) :
    dedent? (commonIndent lines) line = none ↔
      ∃ before c, CutThrough (commonIndent lines) line before c ∧
        allBlank (before ++ [c]) = true := by
  have hblank : ∀ before c, CutThrough (commonIndent lines) line before c →
      allBlank (before ++ [c]) = true := fun before c hcut =>
    blank_of_lt_commonIndent hmem hcut.stands hcut.starts
  unfold dedent?
  split_ifs with hlen
  · rw [Option.map_eq_none_iff, dropBytes?_eq_none_iff hlen]
    exact ⟨fun ⟨before, c, hcut⟩ => ⟨before, c, hcut, hblank before c hcut⟩,
      fun ⟨before, c, hcut, _⟩ => ⟨before, c, hcut⟩⟩
  · refine iff_of_false (by simp) ?_
    rintro ⟨before, c, hcut, -⟩
    have hwithin := byteLength_mono hcut.stands
    have hends := hcut.ends
    rw [byteLength_append] at hwithin
    simp only [byteLength] at hwithin
    omega

end Lines

/-- Cleaning documentation cuts white space only. It fails exactly if the common indentation of the
lines behind the first one ends inside a white space character of one of them; otherwise each of
these lines loses that many bytes, which are whole characters of white space, or is blank and
shorter. -/
theorem cleanDoc_cuts_blanks (doc : List Char) :
    (cleanDoc? doc = none ↔ ∃ line ∈ (Text.lines doc).tail, ∃ before c,
      CutThrough (commonIndent (Text.lines doc).tail) line before c ∧
        allBlank (before ++ [c]) = true) ∧
    ∀ cleaned, cleanDoc? doc = some cleaned → ∃ outs,
      List.Forall₂ (Dedented (commonIndent (Text.lines doc).tail)) (Text.lines doc).tail outs ∧
        cleaned = trim (unlines (((Text.lines doc).take 1).map trim ++ outs)) := by
  unfold cleanDoc?
  cases Text.lines doc with
  | nil =>
    refine ⟨by simp, fun cleaned h => ⟨[], .nil, ?_⟩⟩
    cases h
    rfl
  | cons first rest =>
    rw [List.tail_cons]
    constructor
    · have hfails : (do
          let rest' ← rest.mapM (dedent? (commonIndent rest))
          some (trim (unlines (trim first :: rest')))) = none ↔
          rest.mapM (dedent? (commonIndent rest)) = none := by
        cases rest.mapM (dedent? (commonIndent rest)) <;> simp
      rw [hfails, mapM_eq_none_iff]
      exact exists_congr fun line => and_congr_right fun hmem => dedent?_eq_none_iff hmem
    · intro cleaned h
      obtain ⟨outs, houts, h⟩ := Option.bind_eq_some_iff.1 h
      cases h
      have hlines := forall₂_of_mapM_eq_some houts
      have hall := (List.forall₂_and_left rest outs).2 ⟨fun _ hmem => hmem, hlines⟩
      exact ⟨outs, hall.imp fun _ _ hline => dedent?_eq_some hline.1 hline.2, rfl⟩

/-- Behind two shared blanks, of which a blank line has one and a tab. -/
theorem gauge_note_cleaned :
    ∃ outs, cleanDoc? "a\n  b \n \t\n    c".toList = some "a\nb\n\n  c".toList ∧
      List.Forall₂ (Dedented 2) ["  b ".toList, " \t".toList, "    c".toList] outs := by
  have hrun : cleanDoc? "a\n  b \n \t\n    c".toList = some "a\nb\n\n  c".toList := by
    decide +kernel
  obtain ⟨outs, houts, -⟩ := (cleanDoc_cuts_blanks _).2 _ hrun
  exact ⟨outs, hrun, houts⟩

/-- An ideographic space is a line of three bytes, which a cut behind two of them goes through. -/
theorem wide_blank_not_cleaned :
    ¬∃ cleaned, cleanDoc? "a\n  b\n\u3000".toList = some cleaned := by
  rintro ⟨cleaned, hcleaned⟩
  have hrun : cleanDoc? "a\n  b\n\u3000".toList = none := by decide +kernel
  cases hrun.symm.trans hcleaned

end Script

end ProcessModel
