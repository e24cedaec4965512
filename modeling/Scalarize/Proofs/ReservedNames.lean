import Scalarize.Output.Layout
import Scalarize.Proofs.NameOrder
import Scalarize.Proofs.Naming

/-!
# Scalarize — operators that are words

Some operators are written as words of lowercase letters, and so are all short names. The pool
leaves out the names that are taken and knows nothing of operators. So a variable is named like an
operator as soon as there are enough variables to get that far. The first word that is reached is
`or`, with number 407.

* **`Operator.words`** — the operators that are words.
* **`shortenNames_gives_words`** — which of them become names of variables, and how many variables
  are safe.
-/

namespace Scalarize

/-- The symbols of operators that are words. -/
def Operator.words : List String :=
  ((table.map Prod.snd).filter isWord).map symbol

example : Operator.words = ["not", "abs", "sqrt", "sin", "cos", "tan", "arcsin", "arccos", "arctan",
    "or", "and"] := by decide +kernel

theorem Operator.isLowercaseName_words {w : String} (hw : w ∈ words) : IsLowercaseName w := by
  have hall : ∀ w ∈ words, w ≠ "" ∧ w.toList.all Char.isLower = true := by decide +kernel
  exact ⟨(hall w hw).1, List.all_eq_true.mp (hall w hw).2⟩

/-- No word comes before `or`. -/
theorem Operator.le_nameNumber_words : ∀ w ∈ words, 407 ≤ nameNumber w := by
  decide +kernel

/-- Whether a name that is not shared is replaced by a given word. -/
theorem exists_newName_eq_word_iff (taken xs : List String) {w : String}
    (hw : w ∈ Operator.words) :
    (∃ x ∈ xs, x ∉ taken ∧ ((NamePool.fresh taken).replaceAll xs).newName x = w) ↔
      w ∉ taken ∧ freeBefore taken (nameNumber w) < (privateNames taken xs).card := by
  have hname := shortName_nameNumber (Operator.isLowercaseName_words hw)
  have hiff := NamePool.exists_newName_eq_iff taken xs (nameNumber w)
  rwa [hname] at hiff

/-- In every program, a word is given to a variable that is not shared if and only if the word is
not shared either and there are more such variables than free short names before the word. No word
is given as long as these variables and the shared names are 407 or fewer together. -/
theorem shortenNames_gives_words (program : Tree) (hkind : program.kind = "program")
    (imported exported : List String) :
    ∃ rename : String → String,
      program.shortenNames imported exported = .ok (program.renameVariables rename) ∧
      (∀ w ∈ Operator.words,
        (∃ x ∈ program.variableNames, x ∉ imported ++ exported ∧ rename x = w) ↔
          w ∉ imported ++ exported ∧ freeBefore (imported ++ exported) (nameNumber w)
            < (privateNames (imported ++ exported) program.variableNames).card) ∧
      ((privateNames (imported ++ exported) program.variableNames).card
          + (imported ++ exported).length ≤ 407 →
        ∀ x ∈ program.variableNames, x ∉ imported ++ exported → rename x ∉ Operator.words) := by
  have hprogram : (program.kind != "program") = false := by simp [hkind]
  set taken := imported ++ exported
  set pool := (NamePool.fresh taken).replaceAll program.variableNames
  refine ⟨pool.newName, by rw [Tree.shortenNames, hprogram]; rfl,
    fun w hw => exists_newName_eq_word_iff _ _ hw, fun hfew x hx hshared hword => ?_⟩
  obtain ⟨-, hlt⟩ := (exists_newName_eq_word_iff taken _ hword).mp ⟨x, hx, hshared, rfl⟩
  have hfar := Operator.le_nameNumber_words _ hword
  have hfree := le_freeBefore_add taken (nameNumber (pool.newName x))
  omega

/-! ## Programs with many variables -/

/-- A program that assigns zero to each of the given variables. -/
def zeroProgram (names : List String) : Tree :=
  .node "program" [.node "line" (names.map fun x => (Num.ofInt 0).assignTo x)]

theorem variableNames_zeroProgram (names : List String) :
    (zeroProgram names).variableNames = names := by
  have hassignment : ∀ x, ((Num.ofInt 0).assignTo x).variableNames = [x] := fun _ => rfl
  rw [zeroProgram, Tree.node, Tree.variableNames_branch, List.flatMap_singleton, Tree.node,
    Tree.variableNames_branch, List.flatMap_map]
  simp [hassignment]

theorem renameVariables_zeroProgram (rename : String → String) (names : List String) :
    (zeroProgram names).renameVariables rename = zeroProgram (names.map rename) := by
  rw [zeroProgram, Tree.node, Tree.renameVariables_branch, List.map_singleton, Tree.node,
    Tree.renameVariables_branch, List.map_map, zeroProgram, List.map_map]
  rfl

theorem layout_zeroProgram (names : List String) :
    Layout.assignments (zeroProgram names) = .ok (names.map (· ++ "=0")) := by
  have hassignments : (zeroProgram names).assignments
      = names.map fun x => (Num.ofInt 0).assignTo x := by
    have hself : ∀ x, ((Num.ofInt 0).assignTo x).find Tree.isAssignment
        = [(Num.ofInt 0).assignTo x] := fun _ => rfl
    rw [Tree.assignments, zeroProgram, Tree.node, Tree.find_branch, List.flatMap_singleton,
      Tree.node, Tree.find_branch, List.flatMap_map]
    simp only [hself]
    exact List.map_eq_flatMap.symm
  have htext : ∀ x, Layout.assignment ((Num.ofInt 0).assignTo x) = .ok (x ++ "=0") := by
    intro x
    have hzero : Layout.expression 0 (Num.ofInt 0).toTree = .ok "0" := rfl
    show (do
      let s ← Layout.expression 0 (Num.ofInt 0).toTree
      return x ++ "=" ++ String.ofList (Layout.squeeze s.toList)) = _
    rw [hzero]
    show Except.ok (x ++ "=" ++ "0") = _
    rw [String.append_assoc]
    rfl
  rw [Layout.assignments, hassignments]
  clear hassignments
  induction names with
  | nil => rfl
  | cons x names ih =>
    rw [List.map_cons, List.mapM_cons, htext x, ih]
    rfl

theorem shortenNames_gives_words_sample :
    ∃ rename : String → String,
      (zeroProgram ["x", "y"]).shortenNames [] ["y"] = .ok (zeroProgram [rename "x", rename "y"]) ∧
      rename "x" ∉ Operator.words := by
  obtain ⟨rename, hrename, -, hfew⟩ :=
    shortenNames_gives_words (zeroProgram ["x", "y"]) rfl [] ["y"]
  rw [variableNames_zeroProgram] at hfew
  refine ⟨rename, ?_, hfew (by decide) "x" (by simp) (by simp)⟩
  rw [hrename, renameVariables_zeroProgram]
  rfl

/-- With 408 variables one is named `or`, and the program text assigns to it. -/
theorem shortenNames_gives_or :
    ∃ renamed texts,
      (zeroProgram ((List.range 408).map numName)).shortenNames [] [] = .ok renamed ∧
      Layout.assignments renamed = .ok texts ∧ "or=0" ∈ texts := by
  set names := (List.range 408).map numName with hnames
  have hnodup : names.Nodup := by
    refine List.nodup_range.map fun i j hij => ?_
    exact Component.number.inj (Component.name_injective hij)
  have hcard : (privateNames [] names).card = 408 := by
    rw [privateNames, List.filter_eq_self.mpr (by simp), List.toFinset_card_of_nodup hnodup,
      hnames, List.length_map, List.length_range]
  have hword : "or" ∈ Operator.words := by decide +kernel
  have hbefore : freeBefore [] (nameNumber "or") ≤ nameNumber "or" := Nat.count_le _
  have hnumber : nameNumber "or" = 407 := by decide +kernel
  obtain ⟨x, hx, -, hor⟩ := (exists_newName_eq_word_iff [] names hword).mpr
    ⟨List.not_mem_nil, by omega⟩
  refine ⟨zeroProgram (names.map ((NamePool.fresh []).replaceAll names).newName), _, ?_,
    layout_zeroProgram _, ?_⟩
  · rw [← renameVariables_zeroProgram]
    show Except.ok _ = _
    rw [variableNames_zeroProgram]
    rfl
  · rw [List.map_map]
    refine List.mem_map.mpr ⟨x, hx, ?_⟩
    show _ ++ "=0" = _
    rw [hor]
    rfl

end Scalarize
