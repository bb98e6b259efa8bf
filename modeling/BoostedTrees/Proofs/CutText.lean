import BoostedTrees.Text.Blank
import BoostedTrees.Text.Split
import Mathlib.Data.List.Basic

/-!
# Text that was put together, cut again

Parts with marks between them are the parts again when they are cut at the marks, provided
that no part holds one; each mark beyond that makes one more part. A cut at the first or at
the last mark finds the mark that was put there if there is none before it or after it.

## Main results

* `Text.splitOn_intercalate`, `Text.length_splitOn`: the parts between marks
* `Text.cutFirst_append`, `Text.cutLast_append`: what stands around one mark
* `Text.afterFirst_append`: what follows a word
* `Text.lines_flatMap`: the lines of a text that was put together from lines
-/

namespace BoostedTrees.Text

variable {mark : Char} {before after : List Char}

/-! ## All marks -/

theorem splitOn_eq (mark : Char) (cs : List Char) : splitOn mark cs = cs.splitOn mark := by
  induction cs with
  | nil => rfl
  | cons c cs ih =>
    rw [splitOn, List.splitOn_cons_eq_if_modifyHead, ← ih]
    by_cases hc : c = mark
    · simp [hc]
    · simp only [hc, if_false, beq_iff_eq]
      cases hparts : splitOn mark cs with
      | nil => exact absurd hparts (splitOn_ne_nil mark cs)
      | cons part parts => rfl

/-- Parts without a mark are found again between the marks. -/
theorem splitOn_intercalate {parts : List (List Char)} (h : ∀ p ∈ parts, mark ∉ p)
    (hne : parts ≠ []) : splitOn mark ([mark].intercalate parts) = parts := by
  rw [splitOn_eq]
  exact List.splitOn_intercalate mark h hne

theorem splitOn_of_notMem {cs : List Char} (h : mark ∉ cs) : splitOn mark cs = [cs] := by
  have hparts : splitOn mark ([mark].intercalate [cs]) = [cs] :=
    splitOn_intercalate (List.forall_mem_singleton.mpr h) (List.cons_ne_nil _ _)
  rwa [List.intercalate_singleton] at hparts

/-- There is no mark in a part. -/
theorem notMem_of_mem_splitOn {cs part : List Char} (h : part ∈ splitOn mark cs) : mark ∉ part := by
  induction cs generalizing part with
  | nil =>
    rw [List.mem_singleton.mp h]
    exact List.not_mem_nil
  | cons c cs ih =>
    rw [splitOn] at h
    split at h
    · rcases List.mem_cons.mp h with rfl | h
      · exact List.not_mem_nil
      · exact ih h
    · next hc =>
      cases hparts : splitOn mark cs with
      | nil => exact absurd hparts (splitOn_ne_nil mark cs)
      | cons first parts =>
        rw [hparts] at h ih
        rcases List.mem_cons.mp h with rfl | h
        · exact List.not_mem_cons_of_ne_of_not_mem (Ne.symm hc) (ih List.mem_cons_self)
        · exact ih (List.mem_cons_of_mem _ h)

/-- Marks between parts are marks before all parts but the first. -/
theorem intercalate_cons_eq (mark : Char) (first : List Char) (rest : List (List Char)) :
    [mark].intercalate (first :: rest) = first ++ rest.flatMap (mark :: ·) := by
  induction rest generalizing first with
  | nil => simp [List.intercalate]
  | cons part rest ih =>
    rw [List.flatMap_cons, List.cons_append, ← ih]
    rfl

/-- There is one part more than there are marks. -/
theorem length_splitOn (mark : Char) (cs : List Char) :
    (splitOn mark cs).length = cs.count mark + 1 := by
  induction cs with
  | nil => rfl
  | cons c cs ih =>
    rw [splitOn, List.count_cons]
    split
    · next hc => simp [hc, ih]
    · next hc =>
      cases hparts : splitOn mark cs with
      | nil => exact absurd hparts (splitOn_ne_nil mark cs)
      | cons part parts =>
        rw [hparts] at ih
        simpa [hc] using ih

/-! ## One mark -/

theorem cutFirst_eq_none_iff {cs : List Char} : cutFirst mark cs = none ↔ mark ∉ cs := by
  induction cs with
  | nil => simp [cutFirst]
  | cons c cs ih =>
    by_cases hc : c = mark
    · simp [cutFirst, hc]
    · simp [cutFirst, hc, Ne.symm hc, ih]

/-- The first mark is the one that has none before it. -/
theorem cutFirst_append (h : mark ∉ before) (after : List Char) :
    cutFirst mark (before ++ mark :: after) = some (before, after) := by
  induction before with
  | nil => simp [cutFirst]
  | cons c cs ih =>
    rw [List.cons_append, cutFirst, if_neg (List.ne_of_not_mem_cons h).symm,
      ih (List.not_mem_of_not_mem_cons h)]
    rfl

/-- A text is cut at its first mark. -/
theorem eq_of_cutFirst_eq_some {cs : List Char} (h : cutFirst mark cs = some (before, after)) :
    cs = before ++ mark :: after ∧ mark ∉ before := by
  have hmem : mark ∈ cs := by
    by_contra hno
    rw [cutFirst_eq_none_iff.mpr hno] at h
    cases h
  obtain ⟨start, rest, rfl, hstart⟩ := List.eq_append_cons_of_mem hmem
  rw [cutFirst_append hstart] at h
  cases h
  exact ⟨rfl, hstart⟩

theorem cutLast_eq_none_of_notMem {cs : List Char} (h : mark ∉ cs) : cutLast mark cs = none := by
  induction cs with
  | nil => rfl
  | cons c cs ih =>
    simp only [cutLast, ih (List.not_mem_of_not_mem_cons h),
      if_neg (List.ne_of_not_mem_cons h).symm]

/-- The last mark is the one that has none after it. -/
theorem cutLast_append (before : List Char) (h : mark ∉ after) :
    cutLast mark (before ++ mark :: after) = some (before, after) := by
  induction before with
  | nil => simp only [List.nil_append, cutLast, cutLast_eq_none_of_notMem h, if_true]
  | cons c cs ih => rw [List.cons_append, cutLast, ih]

/-! ## Lines -/

theorem splitOn_append (mark : Char) (before after : List Char) :
    splitOn mark (before ++ mark :: after) = splitOn mark before ++ splitOn mark after := by
  induction before with
  | nil => simp [splitOn]
  | cons c cs ih =>
    rw [List.cons_append, splitOn, ih, splitOn]
    split
    · rfl
    · cases hparts : splitOn mark cs with
      | nil => exact absurd hparts (splitOn_ne_nil mark cs)
      | cons part parts => rfl

/-- A carriage return is dropped from the end of a text, whatever stands before that. -/
theorem dropReturn_append (before : List Char) (h : after ≠ []) :
    dropReturn (before ++ after) = before ++ dropReturn after := by
  rw [dropReturn, dropReturn, List.getLast?_append_of_ne_nil before h,
    List.dropLast_append_of_ne_nil h]
  split <;> rfl

theorem dropReturn_of_notMem {cs : List Char} (h : '\r' ∉ cs) : dropReturn cs = cs := by
  rw [dropReturn, if_neg]
  exact fun hlast => h (List.mem_of_getLast? hlast)

theorem mem_of_mem_dropReturn {c : Char} {cs : List Char} (h : c ∈ dropReturn cs) : c ∈ cs := by
  rw [dropReturn] at h
  split at h
  · exact List.dropLast_subset cs h
  · exact h

theorem notMem_of_mem_lines {text line : List Char} (h : line ∈ lines text) : '\n' ∉ line := by
  rw [lines] at h
  rcases List.mem_append.mp h with h | h
  · obtain ⟨part, hpart, rfl⟩ := List.mem_map.mp h
    exact fun hmem => notMem_of_mem_splitOn (List.dropLast_subset _ hpart) (mem_of_mem_dropReturn hmem)
  · split at h
    · cases h
    · next hlast =>
      rw [List.mem_singleton.mp h]
      cases hparts : (splitOn '\n' text).getLast? with
      | none => exact List.not_mem_nil
      | some last => exact notMem_of_mem_splitOn (List.mem_of_getLast? hparts)

/-- Where every piece of a text ends in a line feed, the lines are those that line feeds cut
the pieces into, without carriage returns at their ends. -/
theorem lines_flatMap (pieces : List (List Char)) :
    lines (pieces.flatMap (· ++ ['\n'])) =
      (pieces.flatMap (splitOn '\n')).map dropReturn := by
  -- After the last line feed nothing follows, which makes one empty part more.
  have hsplit : ∀ pieces : List (List Char), splitOn '\n' (pieces.flatMap (· ++ ['\n'])) =
      pieces.flatMap (splitOn '\n') ++ [[]] := by
    intro pieces
    induction pieces with
    | nil => rfl
    | cons piece pieces ih =>
      rw [List.flatMap_cons, List.append_assoc, List.singleton_append, splitOn_append, ih,
        List.flatMap_cons, List.append_assoc]
  simp [lines, hsplit]

/-! ## Words -/

section Words

variable {word : List Char}

/-- A word without a mark does not go on behind it. -/
theorem prefix_of_prefix_append (hmark : mark ∉ word) (h : word <+: before ++ mark :: after) :
    word <+: before := by
  rcases List.prefix_or_prefix_of_prefix h (List.prefix_append before (mark :: after)) with
    hword | ⟨rest, rfl⟩
  · exact hword
  · rw [List.prefix_append_right_inj] at h
    cases rest with
    | nil => exact (List.append_nil before).symm ▸ List.prefix_refl before
    | cons c rest =>
      obtain ⟨rfl, -⟩ := List.cons_prefix_cons.mp h
      exact absurd (List.mem_append_right _ List.mem_cons_self) hmark

/-- A word without a mark stands before it or after it. -/
theorem infix_or_infix (hmark : mark ∉ word) (h : word <:+: before ++ mark :: after) :
    word <:+: before ∨ word <:+: after := by
  induction before with
  | nil =>
    rcases List.infix_cons_iff.mp h with hword | hword
    · exact .inl (prefix_of_prefix_append hmark hword).isInfix
    · exact .inr hword
  | cons c before ih =>
    rcases List.infix_cons_iff.mp h with hword | hword
    · exact .inl (prefix_of_prefix_append hmark hword).isInfix
    · exact (ih hword).imp_left fun hin => hin.trans (List.infix_cons (List.infix_refl before))

/-- A word that a mark stands before is found there, unless it stands before the mark as well. -/
theorem afterFirst_append (hmark : mark ∉ word) (hbefore : ¬word <:+: before) (rest : List Char) :
    afterFirst word (before ++ mark :: (word ++ rest)) = some rest := by
  have hpass : ∀ {c : Char} {cs : List Char}, ¬word <+: c :: cs →
      afterFirst word (c :: cs) = afterFirst word cs := by
    intro c cs hnot
    rw [afterFirst, if_neg (mt List.isPrefixOf_iff_prefix.mp hnot)]
  induction before with
  | nil =>
    have hmarked : ¬word <+: mark :: (word ++ rest) := by
      intro hword
      have hword : word <+: [] ++ mark :: (word ++ rest) := hword
      exact hbefore (prefix_of_prefix_append hmark hword).isInfix
    rw [List.nil_append, hpass hmarked]
    cases word with
    | nil => exact absurd (List.infix_refl []) hbefore
    | cons c word =>
      rw [List.cons_append, afterFirst, if_pos (List.isPrefixOf_iff_prefix.mpr ?_)]
      · exact congrArg some List.drop_left
      · exact List.prefix_append (c :: word) rest
  | cons c before ih =>
    rw [List.cons_append, hpass]
    · exact ih fun hin => hbefore (hin.trans (List.infix_cons (List.infix_refl before)))
    · intro hword
      rw [← List.cons_append] at hword
      exact hbefore (prefix_of_prefix_append hmark hword).isInfix

end Words

end BoostedTrees.Text
