import Scalarize.Proofs.ChipSemantics
import Scalarize.Proofs.PrintedTokens
import Scalarize.Proofs.SourceMacros

/-!
# Scalarize — assignments on lines

The printer fills a line with assignments until the next one does not fit. Beside the lines it fills
there may be empty ones, which come from ending a line with nothing on it.

* **`Text.filledLines_joinLines`** — line ends that are taken off a text belong to empty lines.
* **`groupsFrom`** — the groups of assignments that go on one line, without regard to lines that
  stay empty: a group is extended as long as it fits.
* **`filter_packFrom`** — the lines that are not empty are those of the groups.
* **`page_packs_assignments`** — the text of a program, line by line.
-/

namespace Scalarize

/-! ## The lines of a text -/

namespace Text

/-- The lines of a text: what stands between its line ends. -/
def lines (s : String) : List String :=
  (s.toList.splitOn '\n').map String.ofList

/-- The lines of a text that are not empty. -/
def filledLines (s : String) : List String :=
  (lines s).filter (· ≠ "")

theorem lines_break (s t : String) : lines (s ++ "\n" ++ t) = lines s ++ lines t := by
  have htext : (s ++ "\n" ++ t).toList = s.toList ++ '\n' :: t.toList := by simp
  rw [lines, htext, List.splitOn_append_cons_self, List.map_append]
  rfl

theorem lines_eq_singleton {s : String} (h : '\n' ∉ s.toList) : lines s = [s] := by
  rw [lines, List.splitOn_eq_singleton h, List.map_singleton, String.ofList_toList]

theorem lines_intercalate {ls : List String} (hls : ls ≠ []) (h : ∀ l ∈ ls, '\n' ∉ l.toList) :
    lines (String.intercalate "\n" ls) = ls := by
  rw [lines, String.toList_intercalate]
  have hchars : ∀ cs ∈ ls.map String.toList, '\n' ∉ cs := List.forall_mem_map.mpr h
  rw [show "\n".toList = ['\n'] from rfl, List.splitOn_intercalate '\n' hchars (by simpa using hls)]
  simp

theorem filledLines_break (s t : String) :
    filledLines (s ++ "\n" ++ t) = filledLines s ++ filledLines t := by
  rw [filledLines, lines_break, List.filter_append, filledLines, filledLines]

theorem filledLines_empty : filledLines "" = [] := by
  decide

theorem filledLines_dropWhile (cs : List Char) :
    filledLines (String.ofList (cs.dropWhile (· == '\n'))) = filledLines (String.ofList cs) := by
  induction cs with
  | nil => rfl
  | cons c cs ih =>
    by_cases hc : c = '\n'
    · have htext : String.ofList ('\n' :: cs) = "" ++ "\n" ++ String.ofList cs := by
        rw [← String.toList_inj]
        simp
      rw [hc, List.dropWhile_cons_of_pos (by rfl), ih, htext, filledLines_break, filledLines_empty,
        List.nil_append]
    · rw [List.dropWhile_cons_of_neg (by simpa using hc)]

theorem filledLines_trimBy (cs : List Char) :
    filledLines (String.ofList (trimBy (· == '\n') cs)) = filledLines (String.ofList cs) := by
  rw [trimBy, ← filledLines_dropWhile cs]
  generalize cs.dropWhile (· == '\n') = ds
  induction ds using List.reverseRecOn with
  | nil => rfl
  | append_singleton ds d ih =>
    rw [List.reverse_append, List.reverse_singleton, List.singleton_append]
    by_cases hd : d = '\n'
    · have htext : String.ofList (ds ++ ['\n']) = String.ofList ds ++ "\n" ++ "" := by
        rw [← String.toList_inj]
        simp
      rw [hd, List.dropWhile_cons_of_pos (by rfl), ih, htext, filledLines_break, filledLines_empty,
        List.append_nil]
    · rw [List.dropWhile_cons_of_neg (by simpa using hd), List.reverse_cons, List.reverse_reverse]

/-- Line ends that are taken off a text belong to empty lines. -/
theorem filledLines_joinLines {ls : List String} (h : ∀ l ∈ ls, '\n' ∉ l.toList) :
    filledLines (Layout.joinLines ls) = ls.filter (· ≠ "") := by
  rw [Layout.joinLines, filledLines_trimBy, String.ofList_toList]
  by_cases hls : ls = []
  · rw [hls]
    exact filledLines_empty
  · rw [filledLines, lines_intercalate hls h]

end Text

namespace Layout

/-! ## Groups of texts on one line -/

section

variable {f : String} {g h : List String}

theorem line_append (hg : g ≠ []) (hh : h ≠ []) : line (g ++ h) = line g ++ " " ++ line h :=
  String.intercalate_append_of_ne_nil hg hh

@[simp]
theorem line_singleton (f : String) : line [f] = f :=
  String.intercalate_singleton

theorem length_line_append (hg : g ≠ []) (hh : h ≠ []) :
    (line (g ++ h)).length = (line g).length + 1 + (line h).length := by
  rw [line_append hg hh, String.length_append, String.length_append]
  rfl

theorem length_line_concat (hg : g ≠ []) :
    (line (g ++ [f])).length = (line g).length + 1 + f.length := by
  rw [length_line_append hg (List.cons_ne_nil f []), line_singleton]

theorem length_line_le_append_left (g h : List String) :
    (line g).length ≤ (line (g ++ h)).length := by
  by_cases hg : g = []
  · rw [hg]
    exact Nat.zero_le _
  by_cases hh : h = []
  · rw [hh, List.append_nil]
  rw [length_line_append hg hh]
  omega

theorem length_line_le_append_right (g h : List String) :
    (line h).length ≤ (line (g ++ h)).length := by
  by_cases hh : h = []
  · rw [hh]
    exact Nat.zero_le _
  by_cases hg : g = []
  · rw [hg, List.nil_append]
  rw [length_line_append hg hh]
  omega

theorem length_line_mono (hgh : g <:+: h) : (line g).length ≤ (line h).length := by
  obtain ⟨a, b, rfl⟩ := hgh
  exact (length_line_le_append_right a g).trans (length_line_le_append_left (a ++ g) b)

theorem length_le_length_line (hf : f ∈ g) : f.length ≤ (line g).length := by
  obtain ⟨a, b, rfl⟩ := List.append_of_mem hf
  have hpart : [f] <:+: a ++ f :: b := ⟨a, b, by simp⟩
  simpa using length_line_mono hpart

theorem line_ne_empty (hg : g ≠ []) (hne : ∀ f ∈ g, f ≠ "") : line g ≠ "" := by
  obtain ⟨f, hf⟩ := List.exists_mem_of_ne_nil g hg
  have hpos : f.length ≠ 0 := by simpa using hne f hf
  have hle := length_le_length_line hf
  intro hempty
  rw [hempty] at hle
  exact hpos (Nat.le_zero.mp hle)

theorem newline_notMem_line (hg : ∀ f ∈ g, '\n' ∉ f.toList) : '\n' ∉ (line g).toList := by
  induction g with
  | nil => simp [line]
  | cons f g ih =>
    by_cases hne : g = []
    · rw [hne, line_singleton]
      exact hg f List.mem_cons_self
    · have hrest := ih fun f' hf' => hg f' (List.mem_cons_of_mem f hf')
      have hfirst := hg f List.mem_cons_self
      rw [← List.singleton_append, line_append (List.cons_ne_nil f []) hne, line_singleton]
      simp [hfirst, hrest]

end

/-- May the texts stand on one line? They are not too wide for it, or there is nothing to divide. -/
def FitsLine (g : List String) : Prop :=
  g.length ≤ 1 ∨ (line g).length ≤ width

instance : DecidablePred FitsLine := fun g =>
  inferInstanceAs (Decidable (g.length ≤ 1 ∨ (line g).length ≤ width))

theorem fitsLine_singleton (f : String) : FitsLine [f] :=
  .inl le_rfl

theorem FitsLine.mono {g h : List String} (hh : FitsLine h) (hgh : g <:+: h) : FitsLine g :=
  hh.imp hgh.length_le.trans (length_line_mono hgh).trans

theorem FitsLine.le_width_or {g : List String} (h : FitsLine g) (hg : g ≠ []) :
    (line g).length ≤ width ∨ ∃ f, g = [f] ∧ width < f.length := by
  refine or_iff_not_imp_left.mpr fun hwide => ?_
  have hlen : g.length = 1 := le_antisymm (h.resolve_right hwide) (List.length_pos_iff.mpr hg)
  obtain ⟨f, rfl⟩ := List.length_eq_one_iff.mp hlen
  rw [line_singleton] at hwide
  exact ⟨f, rfl, Nat.lt_of_not_le hwide⟩

theorem fitsLine_concat_iff {g : List String} {f : String} (hg : g ≠ []) :
    FitsLine (g ++ [f]) ↔ (line g).length + 1 + f.length ≤ width := by
  have hlen : ¬ (g ++ [f]).length ≤ 1 := by
    have hpos := List.length_pos_iff.mpr hg
    rw [List.length_append, List.length_singleton]
    omega
  rw [FitsLine, length_line_concat hg]
  exact or_iff_right hlen

/-- The group that ends with a line, if there is anything on the line. -/
def ended (pending : List String) : List (List String) :=
  if pending = [] then [] else [pending]

/-- The groups of texts on one line, after those of the line that is being filled. -/
def groupsFrom (pending : List String) : List String → List (List String)
  | [] => ended pending
  | f :: fs =>
    if FitsLine (pending ++ [f]) then groupsFrom (pending ++ [f]) fs
    else ended pending ++ groupsFrom [f] fs

/-- Groups of texts in order, none of them empty. -/
structure IsDivision (fs : List String) (gs : List (List String)) : Prop where
  flatten_eq : gs.flatten = fs
  ne_nil : ∀ g ∈ gs, g ≠ []

theorem isDivision_ended (pending : List String) : IsDivision pending (ended pending) := by
  unfold ended
  split
  · next h => exact ⟨h.symm, by simp⟩
  · next h => exact ⟨by simp, by simpa using h⟩

theorem IsDivision.append {fs fs' : List String} {gs gs' : List (List String)}
    (h : IsDivision fs gs) (h' : IsDivision fs' gs') : IsDivision (fs ++ fs') (gs ++ gs') where
  flatten_eq := by rw [List.flatten_append, h.flatten_eq, h'.flatten_eq]
  ne_nil := List.forall_mem_append.mpr ⟨h.ne_nil, h'.ne_nil⟩

theorem isDivision_groupsFrom (pending fs : List String) :
    IsDivision (pending ++ fs) (groupsFrom pending fs) := by
  induction fs generalizing pending with
  | nil =>
    rw [List.append_nil]
    exact isDivision_ended pending
  | cons f fs ih =>
    rw [groupsFrom]
    split
    · rw [← List.singleton_append, ← List.append_assoc]
      exact ih (pending ++ [f])
    · exact (isDivision_ended pending).append (ih [f])

theorem fitsLine_of_mem_ended {pending g : List String} (h : FitsLine pending)
    (hg : g ∈ ended pending) : FitsLine g := by
  unfold ended at hg
  split at hg
  · cases hg
  · rwa [List.mem_singleton.mp hg]

theorem fitsLine_of_mem_groupsFrom {pending fs g : List String} (h : FitsLine pending)
    (hg : g ∈ groupsFrom pending fs) : FitsLine g := by
  induction fs generalizing pending with
  | nil => exact fitsLine_of_mem_ended h hg
  | cons f fs ih =>
    rw [groupsFrom] at hg
    split at hg
    · next hfits => exact ih hfits hg
    · rcases List.mem_append.mp hg with hg | hg
      · exact fitsLine_of_mem_ended h hg
      · exact ih (fitsLine_singleton f) hg

/-! ## Lines of groups -/

@[simp]
theorem Sheet.lines_after (ls : List String) (n : Nat) (rest : Sheet) :
    (Sheet.after ls n rest).lines = ls ++ rest.lines :=
  rfl

@[simp]
theorem Sheet.warnings_after (ls : List String) (n : Nat) (rest : Sheet) :
    (Sheet.after ls n rest).warnings = n + rest.warnings :=
  rfl

/-- Where a text does not fit, a line ends, whether or not there is anything on it. -/
theorem groupsFrom_of_lt {pending fs : List String} {f : String}
    (h : width < (line pending).length + 1 + f.length) :
    groupsFrom pending (f :: fs) = ended pending ++ groupsFrom [f] fs := by
  rw [groupsFrom]
  by_cases hp : pending = []
  · rw [hp, List.nil_append, if_pos (fitsLine_singleton f)]
    rfl
  · rw [if_neg fun hfits => ?_]
    exact absurd ((fitsLine_concat_iff hp).mp hfits) (by omega)

/-- Nothing fits behind a text that is too wide. -/
theorem groupsFrom_wide {f : String} (h : width < f.length) (fs : List String) :
    groupsFrom [f] fs = [f] :: groupsFrom [] fs := by
  cases fs with
  | nil => rfl
  | cons f' fs =>
    have hbreak : width < (line [f]).length + 1 + f'.length := by
      rw [line_singleton]
      omega
    rw [groupsFrom_of_lt hbreak, groupsFrom, List.nil_append, if_pos (fitsLine_singleton f')]
    rfl

theorem filter_line {pending : List String} (h : ∀ f ∈ pending, f ≠ "") :
    [line pending].filter (· ≠ "") = (ended pending).map line := by
  unfold ended
  split
  · next hp => rw [hp]; rfl
  · next hp => simp [line_ne_empty hp h]

theorem length_line_concat_le {g : List String} {f : String}
    (h : (line g).length + 1 + f.length ≤ width) : (line (g ++ [f])).length ≤ width := by
  by_cases hg : g = []
  · rw [hg, List.nil_append, line_singleton]
    omega
  · rwa [length_line_concat hg]

/-- The lines that are not empty are those of the groups. A line that is being filled is never too
wide, so only the next text decides whether it ends. -/
theorem filter_packFrom {pending fs : List String} (hwidth : (line pending).length ≤ width)
    (hpending : ∀ f ∈ pending, f ≠ "") (hfs : ∀ f ∈ fs, f ≠ "") :
    (packFrom pending fs).lines.filter (· ≠ "") = (groupsFrom pending fs).map line := by
  fun_induction packFrom pending fs with
  | case1 pending =>
    rw [groupsFrom, ← filter_line hpending]
    by_cases hp : pending = []
    · rw [hp]
      rfl
    · simp [hp]
  | case2 pending f fs hwide ih =>
    obtain ⟨hf, hrest⟩ := List.forall_mem_cons.mp hfs
    have hline : [f].filter (· ≠ "") = [f] := by simp [hf]
    -- the groups do not know of wide texts, but nothing fits behind one
    rw [groupsFrom_of_lt (by omega), groupsFrom_wide hwide, Sheet.lines_after,
      ← List.singleton_append, List.append_assoc, List.filter_append, List.filter_append,
      filter_line hpending, hline, ih (Nat.zero_le _) (by simp) hrest, List.map_append,
      List.map_cons, line_singleton, List.singleton_append]
  | case3 pending f fs hnarrow hbreak ih =>
    obtain ⟨hf, hrest⟩ := List.forall_mem_cons.mp hfs
    have hnext : (line [f]).length ≤ width := by
      rw [line_singleton]
      omega
    rw [groupsFrom_of_lt hbreak, Sheet.lines_after, List.filter_append, filter_line hpending,
      ih hnext (by simpa using hf) hrest, List.map_append]
  | case4 pending f fs hnarrow hfits ih =>
    obtain ⟨hf, hrest⟩ := List.forall_mem_cons.mp hfs
    -- the printer counts a space also where nothing is on the line, so its test is the stricter one
    have hnext := length_line_concat_le (Nat.le_of_not_lt hfits)
    rw [groupsFrom, if_pos (.inr hnext)]
    exact ih hnext (List.forall_mem_append.mpr ⟨hpending, by simpa using hf⟩) hrest

theorem warnings_packFrom (pending fs : List String) :
    (packFrom pending fs).warnings = fs.countP (width < ·.length) := by
  fun_induction packFrom pending fs with
  | case1 pending => rfl
  | case2 pending f fs hwide ih =>
    rw [Sheet.warnings_after, ih, List.countP_cons_of_pos (by simpa using hwide), Nat.add_comm]
  | case3 pending f fs hnarrow hbreak ih =>
    rw [Sheet.warnings_after, ih, List.countP_cons_of_neg (by simpa using hnarrow), Nat.zero_add]
  | case4 pending f fs hnarrow hfits ih =>
    rw [ih, List.countP_cons_of_neg (by simpa using hnarrow)]

theorem newline_notMem_packFrom {pending fs : List String}
    (hpending : ∀ f ∈ pending, '\n' ∉ f.toList) (hfs : ∀ f ∈ fs, '\n' ∉ f.toList) :
    ∀ l ∈ (packFrom pending fs).lines, '\n' ∉ l.toList := by
  have hline := newline_notMem_line hpending
  fun_induction packFrom pending fs with
  | case1 pending =>
    intro l hl
    by_cases hp : pending = []
    · simp [hp] at hl
    · simp only [List.isEmpty_iff, hp, if_false, List.mem_singleton] at hl
      rwa [hl]
  | case2 pending f fs hwide ih =>
    obtain ⟨hf, hrest⟩ := List.forall_mem_cons.mp hfs
    have hbelow := ih (by simp) hrest (by simp [line])
    simpa [hline, hf] using hbelow
  | case3 pending f fs hnarrow hbreak ih =>
    obtain ⟨hf, hrest⟩ := List.forall_mem_cons.mp hfs
    have hbelow := ih (by simpa using hf) hrest (by simpa using hf)
    simpa [hline] using hbelow
  | case4 pending f fs hnarrow hfits ih =>
    obtain ⟨hf, hrest⟩ := List.forall_mem_cons.mp hfs
    have hnext : ∀ f' ∈ pending ++ [f], '\n' ∉ f'.toList :=
      List.forall_mem_append.mpr ⟨hpending, by simpa using hf⟩
    exact ih hnext hrest (newline_notMem_line hnext)

/-! ## The text of a program -/

/-- The program has these texts of assignments, and each of them is a single line. -/
structure Printed (program : Tree) (fs : List String) : Prop where
  kind_eq : program.kind = "program"
  texts : assignments program = .ok fs
  single : ∀ f ∈ fs, '\n' ∉ f.toList

theorem page_eq {program : Tree} {fs : List String} (hkind : program.kind = "program")
    (hfs : assignments program = .ok fs) :
    page program = .ok ⟨joinLines (pack fs).lines, (pack fs).warnings⟩ := by
  rw [page, hkind, hfs]
  rfl

theorem assignment_eq {t x e : Tree} {s : String} (hchildren : t.children = [x, e])
    (hs : expression 0 e = .ok s) :
    assignment t = .ok (x.name ++ "=" ++ String.ofList (squeeze s.toList)) := by
  rw [assignment, hchildren]
  show (expression 0 e).bind _ = _
  rw [hs]
  rfl

theorem assignment_ne_empty {t : Tree} {f : String} (h : assignment t = .ok f) : f ≠ "" := by
  rw [assignment] at h
  split at h
  · next x e _ _ =>
    cases hs : expression 0 e with
    | error e => rw [hs] at h; cases h
    | ok s =>
      rw [hs] at h
      obtain rfl := Except.ok.inj h
      intro hempty
      have hlength := congrArg String.length hempty
      simp [String.length_append] at hlength
  · cases h

theorem Printed.ne_empty {program : Tree} {fs : List String} (h : Printed program fs) :
    ∀ f ∈ fs, f ≠ "" := by
  have htexts := filterMap_of_mapM (g := fun t => (assignment t).toOption)
    (fun t f hf => by rw [hf]; rfl) h.texts
  intro f hf
  rw [htexts] at hf
  obtain ⟨t, -, ht⟩ := List.mem_filterMap.mp hf
  cases hassignment : assignment t with
  | error e => rw [hassignment] at ht; cases ht
  | ok f' =>
    rw [hassignment] at ht
    obtain rfl := Option.some.inj ht
    exact assignment_ne_empty hassignment

theorem Printed.filledLines_eq {program : Tree} {fs : List String} (h : Printed program fs) :
    Text.filledLines (joinLines (pack fs).lines) = (groupsFrom [] fs).map line := by
  rw [pack, Text.filledLines_joinLines (newline_notMem_packFrom (by simp) h.single),
    filter_packFrom (Nat.zero_le _) (by simp) h.ne_empty]

/-- The assignments of a chip program have texts if every operator has its operands. -/
theorem exists_texts {program : Tree} (h : program.IsChip)
    (hsides : ∀ t ∈ program.statements, HasOperands t.rightSide) :
    ∃ fs, assignments program = .ok fs := by
  have htext : ∀ t ∈ program.assignments, ∃ f, assignment t = .ok f ∧ f ≠ "" := by
    intro t ht
    rw [h.assignments_eq] at ht
    obtain ⟨v, e, hchildren, -⟩ := (h.of_mem_statements ht).parts
    have hright : t.rightSide = e := by rw [Tree.rightSide, hchildren]
    obtain ⟨s, hs, -⟩ := (hsides t ht).expression_eq 0
    rw [hright] at hs
    have hf := assignment_eq hchildren hs
    exact ⟨_, hf, assignment_ne_empty hf⟩
  obtain ⟨fs, hfs, -⟩ := exists_mapM_eq_ok htext
  exact ⟨fs, hfs⟩

/-- A chip program in which every operator has its operands has a text for each assignment. If these
texts are single lines, there is a page for them. Its lines that are not empty are the groups of a
division of the texts, each joined by single spaces. A line has at most seventy characters unless it
is one text that is wider, and there are as many warnings as wider texts. -/
theorem page_packs_assignments (program : Tree) :
    (program.IsChip → (∀ t ∈ program.statements, HasOperands t.rightSide) →
      ∃ fs, assignments program = .ok fs) ∧
    ∀ fs, Printed program fs → ∃ p gs, page program = .ok p ∧ IsDivision fs gs ∧
      Text.filledLines p.text = gs.map line ∧
      (∀ l ∈ Text.lines p.text, l.length ≤ 70 ∨ ∃ f, [f] ∈ gs ∧ l = f ∧ 70 < f.length) ∧
      p.warnings = fs.countP (70 < ·.length) := by
  refine ⟨exists_texts, fun fs h => ?_⟩
  have hdivision := isDivision_groupsFrom [] fs
  refine ⟨_, groupsFrom [] fs, page_eq h.kind_eq h.texts, hdivision, h.filledLines_eq,
    fun l hl => ?_, warnings_packFrom [] fs⟩
  -- an empty line is not too wide, and every other line is that of a group
  by_cases hempty : l = ""
  · exact .inl (by simp [hempty])
  have hmem : l ∈ Text.filledLines (joinLines (pack fs).lines) :=
    List.mem_filter.mpr ⟨hl, by simpa using hempty⟩
  rw [h.filledLines_eq] at hmem
  obtain ⟨g, hg, rfl⟩ := List.mem_map.mp hmem
  have hfits : FitsLine g := fitsLine_of_mem_groupsFrom (.inl (Nat.zero_le _)) hg
  refine (hfits.le_width_or (hdivision.ne_nil g hg)).imp_right ?_
  rintro ⟨f, rfl, hwide⟩
  exact ⟨f, hg, line_singleton f, hwide⟩

/-- A name of so many letters. -/
def longName (n : Nat) : String :=
  String.ofList (List.replicate n 'x')

/-- An assignment of one to a name of so many letters. -/
def unitAssignment (n : Nat) : Tree :=
  .node "assignment" [.variableNamed (longName n), .text "number" "1"]

/-- A program that assigns one to names of the given lengths. -/
def unitProgram (ns : List Nat) : Tree :=
  .node "program" [.node "line" (ns.map unitAssignment)]

/-- The text of an assignment of one. -/
def unitText (n : Nat) : String :=
  longName n ++ "=1"

@[simp]
theorem length_unitText (n : Nat) : (unitText n).length = n + 2 := by
  rw [unitText, String.length_append, longName, String.length_ofList, List.length_replicate]
  rfl

theorem isChip_unitProgram (ns : List Nat) : (unitProgram ns).IsChip where
  kind_eq := rfl
  lines := by
    intro l hl
    obtain rfl := List.mem_singleton.mp hl
    refine ⟨rfl, rfl, fun a ha => ?_⟩
    obtain ⟨n, -, rfl⟩ := List.mem_map.mp ha
    exact ⟨rfl, _, _, rfl, rfl⟩

theorem statements_unitProgram (ns : List Nat) :
    (unitProgram ns).statements = ns.map unitAssignment :=
  List.flatMap_singleton ..

theorem printed_unitProgram (ns : List Nat) : Printed (unitProgram ns) (ns.map unitText) where
  kind_eq := rfl
  texts := by
    have hfound : (unitProgram ns).assignments = ns.map unitAssignment :=
      (isChip_unitProgram ns).assignments_eq.trans (statements_unitProgram ns)
    have htext : ∀ n, assignment (unitAssignment n) = .ok (unitText n) := by
      intro n
      rw [assignment_eq (s := "1") rfl rfl, String.append_assoc]
      rfl
    rw [assignments, hfound, List.mapM_map]
    simp only [Function.comp_def, htext]
    exact List.mapM_pure
  single := by
    intro f hf
    obtain ⟨n, -, rfl⟩ := List.mem_map.mp hf
    simp [unitText, longName]

theorem page_packs_unitProgram :
    (∃ fs, assignments (unitProgram [69, 1, 68]) = .ok fs) ∧
    Printed (unitProgram [69, 1, 68]) ([69, 1, 68].map unitText) ∧
    ∃ p gs, page (unitProgram [69, 1, 68]) = .ok p ∧ IsDivision ([69, 1, 68].map unitText) gs ∧
      Text.filledLines p.text = gs.map line ∧
      (∀ l ∈ Text.lines p.text, l.length ≤ 70 ∨ ∃ f, [f] ∈ gs ∧ l = f ∧ 70 < f.length) ∧
      p.warnings = 1 := by
  obtain ⟨htexts, hpage⟩ := page_packs_assignments (unitProgram [69, 1, 68])
  have hsides : ∀ t ∈ (unitProgram [69, 1, 68]).statements, HasOperands t.rightSide := by
    intro t ht
    rw [statements_unitProgram] at ht
    obtain ⟨n, -, rfl⟩ := List.mem_map.mp ht
    exact .leaf _ _
  have hprinted := printed_unitProgram [69, 1, 68]
  obtain ⟨p, gs, hp, hdivision, hfilled, hwidth, hwarnings⟩ := hpage _ hprinted
  refine ⟨htexts (isChip_unitProgram _) hsides, hprinted, p, gs, hp, hdivision, hfilled, hwidth, ?_⟩
  simp [hwarnings]

end Layout

end Scalarize
