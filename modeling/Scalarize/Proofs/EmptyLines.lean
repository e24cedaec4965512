import Scalarize.Proofs.PackedLines

/-!
# Scalarize — empty lines between assignments

Before a text that does not fit, the printer ends the line that it is filling, also if there is
nothing on it. This happens at the start and after a text that is too wide, which has a line of its
own. The line end at the start is taken off in the end, the others are not.

* **`lines_packFrom_nil`** — what comes of a text that meets a line with nothing on it.
* **`Spaced`** — the rest of a text after one of its assignments, with what stands before each of
  those that follow.
* **`spaced_lines`** — the lines of the printer are spaced in this way, by induction on the texts.
* **`page_empty_lines`** — where the text of a program has empty lines.
-/

namespace Scalarize

/-! ## Line ends of a text -/

namespace Text

variable {p : Char → Bool} {c : Char} {cs : List Char}

theorem trimBy_cons_of_pos (hc : p c) : trimBy p (c :: cs) = trimBy p cs := by
  rw [trimBy, List.dropWhile_cons_of_pos hc, trimBy]

theorem trimBy_eq_self (hfirst : ∀ c ∈ cs.head?, p c = false)
    (hlast : ∀ c ∈ cs.getLast?, p c = false) : trimBy p cs = cs := by
  have hstart : cs.dropWhile p = cs := List.dropWhile_eq_self_iff.mpr fun h => by
    simp [hfirst cs[0] (by simp [List.head?_eq_getElem?])]
  have hend : cs.rdropWhile p = cs := List.rdropWhile_eq_self_iff.mpr fun h => by
    simp [hlast (cs.getLast h) (List.getLast?_eq_some_getLast h)]
  rw [trimBy, hstart]
  exact hend

theorem lines_break_twice (s t : String) :
    lines (s ++ "\n\n" ++ t) = lines s ++ "" :: lines t := by
  have htext : s ++ "\n\n" ++ t = s ++ "\n" ++ ("" ++ "\n" ++ t) := by
    rw [← String.toList_inj]
    simp
  have hempty : lines "" = [""] := by decide
  rw [htext, lines_break, lines_break, hempty, List.singleton_append]

end Text

namespace Layout

/-! ## Lines from a text on -/

/-- The lines that follow when a text is the first on its line. -/
def linesFrom (f : String) (fs : List String) : List String :=
  if width < f.length then f :: (packFrom [] fs).lines else (packFrom [f] fs).lines

section

variable {pending fs : List String} {f : String}

theorem lines_packFrom_of_lt (h : width < (line pending).length + 1 + f.length) :
    (packFrom pending (f :: fs)).lines = line pending :: linesFrom f fs := by
  rw [packFrom, linesFrom]
  by_cases hwide : width < f.length
  · rw [if_pos hwide, if_pos hwide]
    rfl
  · rw [if_neg hwide, if_pos h, if_neg hwide]
    rfl

theorem packFrom_of_le (h : (line pending).length + 1 + f.length ≤ width) :
    packFrom pending (f :: fs) = packFrom (pending ++ [f]) fs := by
  rw [packFrom, if_neg (by omega), if_neg (by omega)]

/-- A text that meets a line with nothing on it leaves this line empty if it has the width of a line
or more, for the space before it is counted too. -/
theorem lines_packFrom_nil (f : String) (fs : List String) :
    (packFrom [] (f :: fs)).lines
      = if width ≤ f.length then "" :: linesFrom f fs else linesFrom f fs := by
  have hnothing : (line []).length = 0 := rfl
  split
  · exact lines_packFrom_of_lt (by omega)
  · next h =>
    rw [packFrom_of_le (by omega), linesFrom, if_neg (by omega)]
    rfl

theorem lines_packFrom_ne_nil (h : pending ≠ []) : (packFrom pending fs).lines ≠ [] := by
  fun_induction packFrom pending fs with
  | case1 pending => simp [h]
  | case2 pending f fs hwide ih => simp
  | case3 pending f fs hnarrow hbreak ih => simp
  | case4 pending f fs hnarrow hfits ih => exact ih (by simp)

theorem linesFrom_ne_nil (f : String) (fs : List String) : linesFrom f fs ≠ [] := by
  rw [linesFrom]
  split
  · exact List.cons_ne_nil _ _
  · exact lines_packFrom_ne_nil (List.cons_ne_nil _ _)

end

/-! ## What stands between texts -/

/-- Is an empty line left between the texts? The first one has a line of its own, and the second
does not fit behind a space. -/
def LeavesGap (f g : String) : Prop :=
  width < f.length ∧ width ≤ g.length

instance (f g : String) : Decidable (LeavesGap f g) :=
  inferInstanceAs (Decidable (_ ∧ _))

/-- What stands between two texts, one after the other: a space, the end of a line, or an empty line
where one is left. -/
structure Separates (gap f g : String) : Prop where
  among : gap = " " ∨ gap = "\n" ∨ gap = "\n\n"
  empty_iff : gap = "\n\n" ↔ LeavesGap f g

/-- The rest of a text after one of its assignments, with what stands before each that follows. -/
inductive Spaced : String → List String → String → Prop where
  | last (f : String) : Spaced f [] ""
  | next {f g gap s : String} {gs : List String} (hgap : Separates gap f g) (hs : Spaced g gs s) :
      Spaced f (g :: gs) (gap ++ g ++ s)

theorem separates_space {f g : String} (h : ¬ LeavesGap f g) : Separates " " f g :=
  ⟨.inl rfl, iff_of_false (by decide) h⟩

theorem separates_lineEnd {f g : String} (h : ¬ LeavesGap f g) : Separates "\n" f g :=
  ⟨.inr (.inl rfl), iff_of_false (by decide) h⟩

theorem separates_emptyLine {f g : String} (h : LeavesGap f g) : Separates "\n\n" f g :=
  ⟨.inr (.inr rfl), iff_of_true rfl h⟩

/-- However a new line is begun, the lines from there on are the first text and what is spaced after
it. -/
def SpacedFromNew (fs : List String) : Prop :=
  ∀ f, ∃ s, Spaced f fs s ∧ String.intercalate "\n" (linesFrom f fs) = f ++ s

/-- However a line is being filled, if it is not too wide, the lines from there on are what is on it
and what is spaced after the last text. -/
def SpacedFromFilled (fs : List String) : Prop :=
  ∀ ps p, (line (ps ++ [p])).length ≤ width → ∃ s, Spaced p fs s ∧
    String.intercalate "\n" (packFrom (ps ++ [p]) fs).lines = line (ps ++ [p]) ++ s

section

variable {g s : String} {gs : List String}

theorem intercalate_linesFrom (hs : String.intercalate "\n" (linesFrom g gs) = g ++ s)
    (l : String) : String.intercalate "\n" (l :: linesFrom g gs) = l ++ ("\n" ++ g ++ s) := by
  rw [String.intercalate_cons_of_ne_nil (linesFrom_ne_nil g gs), hs]
  simp only [String.append_assoc]

theorem SpacedFromFilled.cons (hnew : SpacedFromNew gs) (hfilled : SpacedFromFilled gs) :
    SpacedFromFilled (g :: gs) := by
  intro ps p hwidth
  -- the last text on a line that is being filled is not too wide, so no empty line follows it
  have hp : p.length ≤ (line (ps ++ [p])).length := length_le_length_line (by simp)
  have hgap : ¬ LeavesGap p g := by
    rintro ⟨hwide, -⟩
    omega
  by_cases hbreak : width < (line (ps ++ [p])).length + 1 + g.length
  · obtain ⟨s, hs, htext⟩ := hnew g
    refine ⟨_, .next (separates_lineEnd hgap) hs, ?_⟩
    rw [lines_packFrom_of_lt hbreak, intercalate_linesFrom htext]
  · have hfits := Nat.le_of_not_lt hbreak
    obtain ⟨s, hs, htext⟩ := hfilled (ps ++ [p]) g (length_line_concat_le hfits)
    refine ⟨_, .next (separates_space hgap) hs, ?_⟩
    rw [packFrom_of_le hfits, htext, line_append (by simp) (List.cons_ne_nil g []), line_singleton]
    simp only [String.append_assoc]

theorem SpacedFromNew.cons (hnew : SpacedFromNew gs) (hfilled : SpacedFromFilled (g :: gs)) :
    SpacedFromNew (g :: gs) := by
  intro f
  by_cases hwide : width < f.length
  · obtain ⟨s, hs, htext⟩ := hnew g
    rw [linesFrom, if_pos hwide, lines_packFrom_nil]
    split
    · next hg =>
      refine ⟨_, .next (separates_emptyLine ⟨hwide, hg⟩) hs, ?_⟩
      have htwice : "\n\n" = "\n" ++ "\n" := rfl
      rw [String.intercalate_cons_cons, intercalate_linesFrom htext, String.empty_append, htwice]
      simp only [String.append_assoc]
    · next hg =>
      have hgap : ¬ LeavesGap f g := fun h => hg h.2
      exact ⟨_, .next (separates_lineEnd hgap) hs, intercalate_linesFrom htext f⟩
  · have hwidth : (line ([] ++ [f])).length ≤ width := by
      rw [List.nil_append, line_singleton]
      omega
    have hline := hfilled [] f hwidth
    rw [List.nil_append, line_singleton] at hline
    rwa [linesFrom, if_neg hwide]

end

/-- The lines of the printer are spaced, whether a line is begun or is being filled. -/
theorem spaced_lines (fs : List String) : SpacedFromNew fs ∧ SpacedFromFilled fs := by
  induction fs with
  | nil =>
    refine ⟨fun f => ⟨"", .last f, ?_⟩, fun ps p _ => ⟨"", .last p, ?_⟩⟩
    · rw [linesFrom]
      split <;> simp [packFrom]
    · simp [packFrom]
  | cons g gs ih =>
    have hfilled : SpacedFromFilled (g :: gs) := ih.2.cons ih.1
    exact ⟨ih.1.cons hfilled, hfilled⟩

/-! ## Empty lines of a page -/

section

variable {f s : String} {fs : List String}

/-- A spaced text ends with one of its assignments. -/
theorem Spaced.exists_end (h : Spaced f fs s) : ∃ a, ∃ g ∈ f :: fs, f ++ s = a ++ g := by
  induction h with
  | last f => exact ⟨"", f, List.mem_singleton_self f, by simp⟩
  | @next f g gap s gs _ _ ih =>
    obtain ⟨a, g', hg', htext⟩ := ih
    refine ⟨f ++ gap ++ a, g', List.mem_cons_of_mem f hg', ?_⟩
    calc f ++ (gap ++ g ++ s)
        = f ++ gap ++ (g ++ s) := by simp only [String.append_assoc]
      _ = f ++ gap ++ (a ++ g') := by rw [htext]
      _ = f ++ gap ++ a ++ g' := String.append_assoc.symm

/-- Before a spaced text there may be one line end, and nothing else is taken off. -/
theorem Spaced.joinLines_eq {ls : List String} (h : Spaced f fs s)
    (hne : ∀ g ∈ f :: fs, g ≠ "") (hsingle : ∀ g ∈ f :: fs, '\n' ∉ g.toList)
    (hls : String.intercalate "\n" ls = f ++ s ∨ String.intercalate "\n" ls = "\n" ++ (f ++ s)) :
    joinLines ls = f ++ s := by
  have hnot : ∀ g ∈ f :: fs, ∀ c ∈ g.toList, (c == '\n') = false := by
    intro g hg c hc
    refine beq_eq_false_iff_ne.mpr ?_
    rintro rfl
    exact hsingle g hg hc
  have hsolid : ∀ g ∈ f :: fs, g.toList ≠ [] := fun g hg => by simpa using hne g hg
  -- the text starts and ends with assignments, and there is no line end in these
  have htrim : Text.trimBy (· == '\n') (f ++ s).toList = (f ++ s).toList := by
    refine Text.trimBy_eq_self (fun c hc => ?_) fun c hc => ?_
    · rw [String.toList_append, List.head?_append_of_ne_nil _ (hsolid f List.mem_cons_self)] at hc
      exact hnot f List.mem_cons_self c (List.mem_of_mem_head? hc)
    · obtain ⟨a, g, hg, htext⟩ := h.exists_end
      rw [htext, String.toList_append, List.getLast?_append_of_ne_nil _ (hsolid g hg)] at hc
      exact hnot g hg c (List.mem_of_getLast? hc)
  rw [joinLines]
  rcases hls with hls | hls
  · rw [hls, htrim, String.ofList_toList]
  · have hstart : ("\n" ++ (f ++ s)).toList = '\n' :: (f ++ s).toList := by simp
    rw [hls, hstart, Text.trimBy_cons_of_pos rfl, htrim, String.ofList_toList]

/-- The empty lines of a spaced text are those that are left between two texts. The line on which
the text starts may hold other texts before the first one. -/
theorem Spaced.count_empty {l : String} (h : Spaced f fs s) (hl : l ≠ "")
    (hl' : '\n' ∉ l.toList) (hne : ∀ g ∈ fs, g ≠ "") (hsingle : ∀ g ∈ fs, '\n' ∉ g.toList) :
    (Text.lines (l ++ s)).count "" = ((f :: fs).zip fs).countP fun q => LeavesGap q.1 q.2 := by
  have hfirst : ∀ {l : String}, l ≠ "" → '\n' ∉ l.toList → (Text.lines l).count "" = 0 := by
    intro l hl hl'
    rw [Text.lines_eq_singleton hl', List.count_singleton, if_neg (by simpa using hl)]
  induction h generalizing l with
  | last f =>
    rw [String.append_empty, hfirst hl hl']
    rfl
  | @next f g gap s gs hgap hs ih =>
    obtain ⟨hg, hne'⟩ := List.forall_mem_cons.mp hne
    obtain ⟨hg', hsingle'⟩ := List.forall_mem_cons.mp hsingle
    have hrest := ih hg hg' hne' hsingle'
    rw [List.zip_cons_cons]
    rcases hgap.among with rfl | rfl | rfl
    · -- the line goes on, with the next text on it
      have hnone : ¬ LeavesGap f g := fun h => absurd (hgap.empty_iff.mpr h) (by decide)
      have htext : l ++ (" " ++ g ++ s) = l ++ " " ++ g ++ s := by simp only [String.append_assoc]
      rw [List.countP_cons_of_neg (by simpa using hnone), htext]
      exact ih (by simp [hl]) (by simp [hl', hg']) hne' hsingle'
    · have hnone : ¬ LeavesGap f g := fun h => absurd (hgap.empty_iff.mpr h) (by decide)
      have htext : l ++ ("\n" ++ g ++ s) = l ++ "\n" ++ (g ++ s) := by
        simp only [String.append_assoc]
      rw [List.countP_cons_of_neg (by simpa using hnone), htext, Text.lines_break,
        List.count_append, hfirst hl hl', hrest, Nat.zero_add]
    · have hleft : LeavesGap f g := hgap.empty_iff.mp rfl
      have htext : l ++ ("\n\n" ++ g ++ s) = l ++ "\n\n" ++ (g ++ s) := by
        simp only [String.append_assoc]
      rw [List.countP_cons_of_pos (by simpa using hleft), htext, Text.lines_break_twice,
        List.count_append, hfirst hl hl', List.count_cons_self, hrest, Nat.zero_add]

end

/-- A page is its first text and what is spaced after it. -/
theorem Printed.exists_spaced {program : Tree} {f : String} {fs : List String}
    (h : Printed program (f :: fs)) :
    ∃ s, Spaced f fs s ∧ joinLines (pack (f :: fs)).lines = f ++ s := by
  obtain ⟨s, hs, htext⟩ := (spaced_lines fs).1 f
  refine ⟨s, hs, hs.joinLines_eq h.ne_empty h.single ?_⟩
  rw [pack, lines_packFrom_nil]
  split
  · right
    rw [intercalate_linesFrom htext, String.empty_append, String.append_assoc]
  · exact .inl htext

/-- The text of a program with an assignment is the first assignment and what is spaced after it:
before each other assignment there is a space or the end of a line, or two ends of a line where an
empty line is left. There are as many empty lines as pairs of assignments, one after the other, of
which the first is longer than seventy characters and the second has at least seventy. -/
theorem page_empty_lines {program : Tree} {f : String} {fs : List String}
    (h : Printed program (f :: fs)) :
    ∃ p s, page program = .ok p ∧ p.text = f ++ s ∧ Spaced f fs s ∧
      (Text.lines p.text).count ""
        = ((f :: fs).zip fs).countP fun q => 70 < q.1.length ∧ 70 ≤ q.2.length := by
  obtain ⟨s, hs, htext⟩ := h.exists_spaced
  refine ⟨_, s, page_eq h.kind_eq h.texts, htext, hs, ?_⟩
  rw [htext]
  obtain ⟨hf, hfs⟩ := List.forall_mem_cons.mp h.ne_empty
  obtain ⟨hf', hfs'⟩ := List.forall_mem_cons.mp h.single
  exact hs.count_empty hf hf' hfs hfs'

theorem page_empty_lines_unitProgram :
    Printed (unitProgram [69, 68, 1, 69, 67]) ([69, 68, 1, 69, 67].map unitText) ∧
    ∃ p s, page (unitProgram [69, 68, 1, 69, 67]) = .ok p ∧ p.text = unitText 69 ++ s ∧
      Spaced (unitText 69) ([68, 1, 69, 67].map unitText) s ∧
      (Text.lines p.text).count "" = 1 := by
  have hprinted := printed_unitProgram [69, 68, 1, 69, 67]
  obtain ⟨p, s, hp, htext, hs, hcount⟩ := page_empty_lines hprinted
  refine ⟨hprinted, p, s, hp, htext, hs, hcount.trans ?_⟩
  simp

/-- There is an empty line between an assignment of seventy-one characters and one of seventy. -/
theorem page_has_empty_line :
    Printed (unitProgram [69, 68]) ([69, 68].map unitText) ∧
    ∃ p, page (unitProgram [69, 68]) = .ok p ∧
      p.text = unitText 69 ++ "\n\n" ++ unitText 68 ∧
      "" ∈ Text.lines p.text := by
  have hprinted := printed_unitProgram [69, 68]
  have hleft : LeavesGap (unitText 69) (unitText 68) := by
    simp [LeavesGap, width]
  obtain ⟨s, hs, htext⟩ := hprinted.exists_spaced
  cases hs with
  | @next _ _ gap s _ hgap hs =>
    cases hs with
    | last =>
      obtain rfl := hgap.empty_iff.mpr hleft
      rw [String.append_empty, ← String.append_assoc] at htext
      have hmem : "" ∈ Text.lines (unitText 69 ++ "\n\n" ++ unitText 68) := by
        rw [Text.lines_break_twice]
        exact List.mem_append_right _ List.mem_cons_self
      rw [← htext] at hmem
      exact ⟨hprinted, _, page_eq hprinted.kind_eq hprinted.texts, htext, hmem⟩

end Layout

end Scalarize
