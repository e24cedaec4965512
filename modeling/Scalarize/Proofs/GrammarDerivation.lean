import Mathlib
import Scalarize.Grammar.Parse

/-!
# Scalarize — derivations of the grammar

What the grammar says a text is, apart from any parser. A derivation of a rule takes a beginning of
the text and leaves a rest; between two terminals a gap may stand, and each terminal takes the gap
after it along.

* **`Parses`** — the derivations of a rule, with the trees they give.
* **`IsSource`** — a text has a derivation as a program, and this is its parse tree.
* **`isSource_of_leftmost`** — a derivation can be written down as the alternatives it chooses.
* **`take?_append`** — a terminal takes a beginning of the text.
* **`toTrees_append`**, **`toTree_branch`** — how the trees of the parts become those of a node.
-/

namespace Scalarize.Grammar

mutual

/-- The text up to the rest has a derivation of the rule that gives these trees. -/
inductive Parses : Rule → List Char → List Char → List ParseTree → Prop where
  | production {p cs rest forest} (hp : p ∈ productions) (h : ParsesParts p.body cs rest forest) :
      Parses p.head cs rest (p.label.apply forest)

/-- The text up to the rest has a derivation of the parts, one after the other. -/
inductive ParsesParts : List Part → List Char → List Char → List ParseTree → Prop where
  | nil {cs} : ParsesParts [] cs cs []
  | terminal {t cs text mid parts rest forest} (h : Terminal.take? t cs = some (text, mid))
      (hparts : ParsesParts parts (skipGap mid) rest forest) :
      ParsesParts (.terminal t :: parts) cs rest
        ((if t.isKept then [.token (String.ofList text)] else []) ++ forest)
  | rule {r cs trees mid parts rest forest} (h : Parses r cs mid trees)
      (hparts : ParsesParts parts mid rest forest) :
      ParsesParts (.rule r :: parts) cs rest (trees ++ forest)

end

/-- A source text is a program with the parse tree. -/
def IsSource (cs : List Char) (p : ParseTree) : Prop :=
  Parses .program (skipGap cs) [] [p]

/-- Parts after parts. -/
theorem ParsesParts.append {xs ys : List Part} {cs mid rest : List Char} {f g : List ParseTree}
    (h : ParsesParts xs cs mid f) (h' : ParsesParts ys mid rest g) :
    ParsesParts (xs ++ ys) cs rest (f ++ g) := by
  induction xs generalizing cs f with
  | nil => cases h; exact h'
  | cons x xs ih =>
    cases h with
    | terminal ht hparts =>
      rw [List.append_assoc]
      exact .terminal ht (ih hparts)
    | rule hr hparts =>
      rw [List.append_assoc]
      exact .rule hr (ih hparts)

/-! ## Leftmost derivations -/

/-- Follow a derivation from left to right, with the number of the alternative for each rule that it
comes to: the trees, the numbers that are left, and the rest of the text. The first argument limits
the number of steps. -/
def leftmost : Nat → List Part → List Nat → List Char →
    Option (List ParseTree × List Nat × List Char)
  | 0, _, _, _ => none
  | _ + 1, [], choices, cs => some ([], choices, cs)
  | n + 1, .terminal t :: parts, choices, cs => do
    let (text, mid) ← t.take? cs
    let (forest, choices, rest) ← leftmost n parts choices (skipGap mid)
    some ((if t.isKept then [.token (String.ofList text)] else []) ++ forest, choices, rest)
  | _ + 1, .rule _ :: _, [], _ => none
  | n + 1, .rule r :: parts, choice :: choices, cs => do
    let p ← (productions.filter (·.head == r))[choice]?
    let (trees, choices, mid) ← leftmost n p.body choices cs
    let (forest, choices, rest) ← leftmost n parts choices mid
    some (p.label.apply trees ++ forest, choices, rest)

theorem parsesParts_of_leftmost {n : Nat} {parts : List Part} {choices choices' : List Nat}
    {cs rest : List Char} {forest : List ParseTree}
    (h : leftmost n parts choices cs = some (forest, choices', rest)) :
    ParsesParts parts cs rest forest := by
  induction n generalizing parts choices choices' cs rest forest with
  | zero => cases h
  | succ n ih =>
    cases parts with
    | nil =>
      cases h
      exact .nil
    | cons part parts =>
      cases part with
      | terminal t =>
        obtain ⟨⟨text, mid⟩, htake, h⟩ := Option.bind_eq_some_iff.mp h
        obtain ⟨⟨forest', choices₁, rest'⟩, hparts, h⟩ := Option.bind_eq_some_iff.mp h
        cases h
        exact .terminal htake (ih hparts)
      | rule r =>
        cases choices with
        | nil => cases h
        | cons choice choices =>
          obtain ⟨p, hp, h⟩ := Option.bind_eq_some_iff.mp h
          obtain ⟨⟨trees, choices₁, mid⟩, htrees, h⟩ := Option.bind_eq_some_iff.mp h
          obtain ⟨⟨forest', choices₂, rest'⟩, hparts, h⟩ := Option.bind_eq_some_iff.mp h
          cases h
          obtain ⟨hmem, hhead⟩ := List.mem_filter.mp (List.mem_of_getElem? hp)
          rw [← beq_iff_eq.mp hhead]
          exact .rule (.production hmem (ih htrees)) (ih hparts)

/-- A derivation that takes the whole text and uses up its choices. -/
theorem isSource_of_leftmost {n : Nat} {choices : List Nat} {cs : List Char} {p : ParseTree}
    (h : leftmost n [.rule .program] choices (skipGap cs) = some ([p], [], [])) :
    IsSource cs p := by
  have hparts := parsesParts_of_leftmost h
  generalize hforest : [p] = forest at hparts
  cases hparts with
  | rule hprogram hnil =>
    cases hnil
    rw [List.append_nil] at hforest
    rw [← hforest] at hprogram
    exact hprogram

/-! ## Terminals -/

theorem takeSome_append {p : Char → Bool} {cs text rest : List Char}
    (h : takeSome p cs = some (text, rest)) : cs = text ++ rest := by
  unfold takeSome at h
  split at h
  · cases h
  · cases h
    exact (List.takeWhile_append_dropWhile ..).symm

theorem takePlaces_append {cs text rest : List Char} (h : takePlaces cs = some (text, rest)) :
    cs = text ++ rest := by
  unfold takePlaces at h
  split at h
  · cases h
  · cases h
    exact List.prefix_append_drop ((List.takeWhile_prefix _).trans (List.take_prefix ..))

theorem takeUnsigned_append {cs text rest : List Char} (h : takeUnsigned cs = some (text, rest)) :
    cs = text ++ rest := by
  unfold takeUnsigned at h
  split at h
  · cases h
  · next ds rest' hds =>
    rw [takeSome_append hds]
    split at h
    · next places rest'' hplaces =>
      cases h
      rw [takePlaces_append hplaces, List.append_assoc]
      rfl
    · cases h
      rfl
  · next ds rest' _ hds =>
    cases h
    exact takeSome_append hds

theorem takeLiteral_append {cs text rest : List Char} (h : takeLiteral cs = some (text, rest)) :
    cs = text ++ rest := by
  unfold takeLiteral at h
  split at h
  · obtain ⟨⟨ds, rest'⟩, hds, heq⟩ := Option.map_eq_some_iff.mp h
    cases heq
    rw [takeUnsigned_append hds]
    rfl
  · exact takeUnsigned_append h

theorem takeComment_append {cs text rest : List Char} (h : takeComment cs = some (text, rest)) :
    cs = text ++ rest := by
  unfold takeComment at h
  split at h
  · cases h
    simp only [List.cons_append, List.takeWhile_append_dropWhile]
  · cases h

theorem takeExternal_append {cs text rest : List Char} (h : takeExternal cs = some (text, rest)) :
    cs = text ++ rest := by
  unfold takeExternal at h
  split at h
  · split at h
    · cases h
      simp only [List.cons_append, List.takeWhile_append_dropWhile]
    · cases h
  · cases h

theorem takeWord_append {w cs text rest : List Char} (h : takeWord w cs = some (text, rest)) :
    cs = text ++ rest := by
  unfold takeWord at h
  split at h
  · next hw =>
    cases h
    exact List.prefix_append_drop (List.isPrefixOf_iff_prefix.mp hw)
  · cases h

/-- A terminal takes a beginning of the text. -/
theorem take?_append {t : Terminal} {cs text rest : List Char}
    (h : t.take? cs = some (text, rest)) :
    cs = text ++ rest := by
  cases t with
  | word w => exact takeWord_append h
  | comment => exact takeComment_append h
  | literal => exact takeLiteral_append h
  | variableName => exact takeSome_append h
  | macroName => exact takeSome_append h
  | libraryName => exact takeSome_append h
  | externalName => exact takeExternal_append h

/-! ## Trees -/

namespace ParseTree

theorem toTrees_append {f g : List ParseTree} {ts us : List Tree} (hf : toTrees f = .ok ts)
    (hg : toTrees g = .ok us) : toTrees (f ++ g) = .ok (ts ++ us) := by
  induction f generalizing ts with
  | nil =>
    cases hf
    exact hg
  | cons x f ih =>
    rw [List.cons_append, toTrees]
    rw [toTrees] at hf
    cases hx : x.toTree with
    | error e => rw [hx] at hf; cases hf
    | ok t =>
      rw [hx] at hf
      cases hts : toTrees f with
      | error e => rw [hts] at hf; cases hf
      | ok ts' =>
        rw [hts] at hf
        cases hf
        rw [ih hts]
        rfl

/-- A node over parts that are trees. -/
theorem toTree_branch {k : String} {f : List ParseTree} {ts : List Tree} (h : toTrees f = .ok ts) :
    (branch k f).toTree = .ok (.node k ts) := by
  unfold toTree
  split
  · next heq => cases heq
  · next heq =>
    cases heq
    cases h
  · next heq =>
    cases heq
    rw [h]
    rfl

theorem toTrees_singleton {x : ParseTree} {t : Tree} (h : x.toTree = .ok t) :
    toTrees [x] = .ok [t] := by
  rw [toTrees, h]
  rfl

theorem toTree_of_toTrees {x : ParseTree} {t : Tree} (h : toTrees [x] = .ok [t]) :
    x.toTree = .ok t := by
  rw [toTrees] at h
  cases hx : x.toTree with
  | error e => rw [hx] at h; cases h
  | ok t' =>
    rw [hx] at h
    cases h
    rfl

end ParseTree

end Scalarize.Grammar
