import Scalarize.Program.NamePool
import Scalarize.Proofs.AliasResolution
import Scalarize.Proofs.Elimination

/-!
# Scalarize — short names are an alpha-renaming

Short names are numbered, and different numbers give different names. The pool hands out numbers in
increasing order and leaves out those of taken names, so no two names get the same replacement,
however many names a program has and whichever names are taken. A renaming that keeps the names of a
program apart commutes with running it.

* **`shortName_injective`** — a short name tells its number.
* **`shortName_nextFree_not_mem`** — the search for a name that is not taken finds one.
* **`NamePool.Sound`**, **`NamePool.Sound.replaceAll`** — the invariant of the pool, over all names
  of a program.
* **`run_renameVariables`** — running a renamed program.
-/

namespace Scalarize

universe u

/-! ## Numbered names -/

theorem lettersOf_of_lt (first : Char) {n : Nat} (h : n < 26) :
    lettersOf first n = [Char.ofNat (first.toNat + n)] := by
  rw [lettersOf, if_pos h]

theorem lettersOf_of_le (first : Char) {n : Nat} (h : 26 ≤ n) :
    lettersOf first n
      = lettersOf first (n / 26 - 1) ++ [Char.ofNat (first.toNat + n % 26)] := by
  rw [lettersOf, if_neg (by omega)]

theorem lettersOf_ne_nil (first : Char) (n : Nat) : lettersOf first n ≠ [] := by
  rcases Nat.lt_or_ge n 26 with h | h
  · simp [lettersOf_of_lt first h]
  · simp [lettersOf_of_le first h]

theorem letter_isLower (i : Fin 26) : (Char.ofNat ('a'.toNat + i)).isLower = true := by
  revert i
  decide

theorem letter_injective (i j : Fin 26)
    (h : Char.ofNat ('a'.toNat + i) = Char.ofNat ('a'.toNat + j)) : i = j := by
  revert i j
  decide

theorem isLower_of_mem_lettersOf {n : Nat} {c : Char} (h : c ∈ lettersOf 'a' n) :
    c.isLower = true := by
  induction n using Nat.strong_induction_on with
  | _ n ih =>
    rcases Nat.lt_or_ge n 26 with hn | hn
    · rw [lettersOf_of_lt 'a' hn, List.mem_singleton] at h
      rw [h]
      exact letter_isLower ⟨n, hn⟩
    · rw [lettersOf_of_le 'a' hn, List.mem_append, List.mem_singleton] at h
      rcases h with h | h
      · exact ih _ (by omega) h
      · rw [h]
        exact letter_isLower ⟨n % 26, by omega⟩

theorem lettersOf_injective {m n : Nat} (h : lettersOf 'a' m = lettersOf 'a' n) : m = n := by
  induction m using Nat.strong_induction_on generalizing n with
  | _ m ih =>
    rcases Nat.lt_or_ge m 26 with hm | hm <;> rcases Nat.lt_or_ge n 26 with hn | hn
    · rw [lettersOf_of_lt 'a' hm, lettersOf_of_lt 'a' hn, List.singleton_inj] at h
      exact Fin.val_eq_of_eq (letter_injective ⟨m, hm⟩ ⟨n, hn⟩ h)
    · -- one letter against two or more
      rw [lettersOf_of_lt 'a' hm, lettersOf_of_le 'a' hn] at h
      have hlen := congrArg List.length h
      have hpos := List.length_pos_of_ne_nil (lettersOf_ne_nil 'a' (n / 26 - 1))
      simp only [List.length_append, List.length_singleton] at hlen
      omega
    · rw [lettersOf_of_le 'a' hm, lettersOf_of_lt 'a' hn] at h
      have hlen := congrArg List.length h
      have hpos := List.length_pos_of_ne_nil (lettersOf_ne_nil 'a' (m / 26 - 1))
      simp only [List.length_append, List.length_singleton] at hlen
      omega
    · rw [lettersOf_of_le 'a' hm, lettersOf_of_le 'a' hn] at h
      obtain ⟨hinit, hlast⟩ := List.append_inj' h rfl
      have hdiv : m / 26 - 1 = n / 26 - 1 := ih _ (by omega) hinit
      have hmod : m % 26 = n % 26 := by
        have := letter_injective ⟨m % 26, by omega⟩ ⟨n % 26, by omega⟩ (List.singleton_inj.mp hlast)
        exact Fin.val_eq_of_eq this
      omega

theorem shortName_injective : Function.Injective shortName := by
  intro m n h
  exact lettersOf_injective (String.ofList_injective h)

/-- A text of one or more lowercase letters. -/
def IsLowercaseName (s : String) : Prop :=
  s ≠ "" ∧ ∀ c ∈ s.toList, c.isLower = true

theorem isLowercaseName_shortName (n : Nat) : IsLowercaseName (shortName n) := by
  refine ⟨fun h => lettersOf_ne_nil 'a' n ?_, fun c hc => ?_⟩
  · have := congrArg String.toList h
    simpa [shortName] using this
  · rw [shortName, String.toList_ofList] at hc
    exact isLower_of_mem_lettersOf hc

/-! ## The pool -/

namespace NamePool

theorem le_nextFree (taken : List String) (tries n : Nat) : n ≤ nextFree taken tries n := by
  induction tries generalizing n with
  | zero => exact Nat.le_refl n
  | succ tries ih =>
    rw [nextFree]
    split
    · have := ih (n + 1)
      omega
    · exact Nat.le_refl n

/-- If the search ends at a taken name, all names that it has looked at are taken. -/
theorem mem_of_nextFree_mem {taken : List String} {tries n : Nat}
    (h : shortName (nextFree taken tries n) ∈ taken) {i : Nat} (hi : i ≤ tries) :
    shortName (n + i) ∈ taken := by
  induction tries generalizing n i with
  | zero =>
    rw [Nat.le_zero.mp hi]
    exact h
  | succ tries ih =>
    rw [nextFree] at h
    by_cases htaken : taken.contains (shortName n) = true
    · rw [if_pos htaken] at h
      cases i with
      | zero => exact List.contains_iff_mem.mp htaken
      | succ i =>
        have := ih h (i := i) (by omega)
        rwa [show n + 1 + i = n + (i + 1) by omega] at this
    · rw [if_neg htaken, ← List.contains_iff_mem] at h
      exact absurd h htaken

/-- Of one name more than there are taken ones, not all are taken. -/
theorem shortName_nextFree_not_mem (taken : List String) (n : Nat) :
    shortName (nextFree taken taken.length n) ∉ taken := by
  intro h
  have hnodup : ((List.range (taken.length + 1)).map fun i => shortName (n + i)).Nodup := by
    refine List.nodup_range.map fun i j hij => ?_
    have := shortName_injective hij
    omega
  have hsubset : ((List.range (taken.length + 1)).map fun i => shortName (n + i)) ⊆ taken := by
    intro s hs
    obtain ⟨i, hi, rfl⟩ := List.mem_map.mp hs
    have hi' : i ≤ taken.length := Nat.lt_succ_iff.mp (List.mem_range.mp hi)
    exact mem_of_nextFree_mem h hi'
  have hlen := (hnodup.subperm hsubset).length_le
  simp only [List.length_map, List.length_range] at hlen
  omega

/-- Everything that replacing a name can do. -/
theorem replace_cases (p : NamePool) (x : String) :
    (x ∈ p.taken ∧ p.replace x = (x, p)) ∨
    (x ∉ p.taken ∧ ∃ y, p.replaced.lookup x = some y ∧ p.replace x = (y, p)) ∨
    (x ∉ p.taken ∧ p.replaced.lookup x = none ∧ ∃ n, p.next ≤ n ∧ shortName n ∉ p.taken ∧
      p.replace x = (shortName n,
        { p with replaced := (x, shortName n) :: p.replaced, next := n + 1 })) := by
  by_cases hx : p.taken.contains x = true
  · exact .inl ⟨List.contains_iff_mem.mp hx, by rw [replace, if_pos hx]⟩
  · have hx' : x ∉ p.taken := fun h => hx (List.contains_iff_mem.mpr h)
    right
    cases hl : p.replaced.lookup x with
    | some y => exact .inl ⟨hx', y, rfl, by rw [replace, if_neg hx, hl]⟩
    | none =>
      exact .inr ⟨hx', rfl, _, le_nextFree _ _ _, shortName_nextFree_not_mem _ _,
        by rw [replace, if_neg hx, hl]⟩

/-- The replacements are short names with numbers that are used up, none of them is taken, and no
two names have the same one. -/
structure Sound (p : NamePool) : Prop where
  numbered : ∀ x y, p.replaced.lookup x = some y → ∃ n < p.next, y = shortName n
  free : ∀ x y, p.replaced.lookup x = some y → y ∉ p.taken
  apart : ∀ x x' y, p.replaced.lookup x = some y → p.replaced.lookup x' = some y → x = x'

theorem sound_fresh (taken : List String) : (fresh taken).Sound := by
  constructor <;> simp [fresh]

theorem Sound.replace {p : NamePool} (h : p.Sound) (x : String) : (p.replace x).2.Sound := by
  obtain ⟨-, heq⟩ | ⟨-, y, -, heq⟩ | ⟨hx, hnone, n, hn, hfree, heq⟩ := p.replace_cases x
  · rw [heq]
    exact h
  · rw [heq]
    exact h
  rw [heq]
  -- an old entry has a number below `n`
  have hold : ∀ z, p.replaced.lookup z ≠ some (shortName n) := by
    intro z hz
    obtain ⟨m, hm, hname⟩ := h.numbered z _ hz
    have := shortName_injective hname
    omega
  have hcases : ∀ z y, ((x, shortName n) :: p.replaced).lookup z = some y →
      (z = x ∧ y = shortName n) ∨ p.replaced.lookup z = some y := by
    intro z y hz
    rw [List.lookup_cons] at hz
    by_cases hzx : (z == x) = true
    · rw [hzx] at hz
      exact .inl ⟨beq_iff_eq.mp hzx, (Option.some.inj hz).symm⟩
    · rw [Bool.eq_false_iff.mpr hzx] at hz
      exact .inr hz
  refine ⟨fun z y hz => ?_, fun z y hz => ?_, fun z z' y hz hz' => ?_⟩
  · rcases hcases z y hz with ⟨-, rfl⟩ | hz
    · exact ⟨n, Nat.lt_succ_self n, rfl⟩
    · obtain ⟨m, hm, rfl⟩ := h.numbered z y hz
      exact ⟨m, by show m < n + 1; omega, rfl⟩
  · rcases hcases z y hz with ⟨-, rfl⟩ | hz
    · exact hfree
    · exact h.free z y hz
  · rcases hcases z y hz with ⟨rfl, rfl⟩ | hbefore <;>
      rcases hcases z' _ hz' with ⟨rfl, hy⟩ | hbefore'
    · rfl
    · exact absurd hbefore' (hold z')
    · exact absurd (hy ▸ hbefore) (hold z)
    · exact h.apart z z' y hbefore hbefore'

theorem taken_replace (p : NamePool) (x : String) : (p.replace x).2.taken = p.taken := by
  obtain ⟨-, h⟩ | ⟨-, y, -, h⟩ | ⟨-, -, n, -, -, h⟩ := p.replace_cases x <;> rw [h]

/-- A replacement that has been made stays. -/
theorem lookup_replace {p : NamePool} {z y : String} (h : p.replaced.lookup z = some y)
    (x : String) : (p.replace x).2.replaced.lookup z = some y := by
  obtain ⟨-, heq⟩ | ⟨-, y, -, heq⟩ | ⟨-, hnone, n, -, -, heq⟩ := p.replace_cases x
  · rw [heq]
    exact h
  · rw [heq]
    exact h
  · have hne : (z == x) = false := by
      rw [beq_eq_false_iff_ne]
      rintro rfl
      rw [hnone] at h
      cases h
    rw [heq]
    show ((x, shortName n) :: p.replaced).lookup z = some y
    rw [List.lookup_cons, hne]
    exact h

theorem lookup_replace_self {p : NamePool} {x : String} (hx : x ∉ p.taken) :
    ((p.replace x).2.replaced.lookup x).isSome = true := by
  obtain ⟨h, -⟩ | ⟨-, y, hy, heq⟩ | ⟨-, -, n, -, -, heq⟩ := p.replace_cases x
  · exact absurd h hx
  · rw [heq, hy]
    rfl
  · rw [heq]
    simp

/-! ## All names of a program -/

theorem taken_replaceAll (p : NamePool) (xs : List String) :
    (p.replaceAll xs).taken = p.taken := by
  induction xs generalizing p with
  | nil => rfl
  | cons x xs ih => exact (ih _).trans (p.taken_replace x)

theorem Sound.replaceAll {p : NamePool} (h : p.Sound) (xs : List String) :
    (p.replaceAll xs).Sound := by
  induction xs generalizing p with
  | nil => exact h
  | cons x xs ih => exact ih (h.replace x)

theorem lookup_replaceAll {p : NamePool} {z y : String} (h : p.replaced.lookup z = some y)
    (xs : List String) : (p.replaceAll xs).replaced.lookup z = some y := by
  induction xs generalizing p with
  | nil => exact h
  | cons x xs ih => exact ih (lookup_replace h x)

/-- Every name that was asked for and is not taken has a replacement. -/
theorem lookup_replaceAll_self {p : NamePool} {xs : List String} {x : String} (hx : x ∈ xs)
    (htaken : x ∉ p.taken) : ((p.replaceAll xs).replaced.lookup x).isSome = true := by
  induction xs generalizing p with
  | nil => cases hx
  | cons z xs ih =>
    rcases List.mem_cons.mp hx with rfl | hx
    · obtain ⟨y, hy⟩ := Option.isSome_iff_exists.mp (lookup_replace_self htaken)
      have := lookup_replaceAll hy xs
      exact Option.isSome_iff_exists.mpr ⟨y, this⟩
    · exact ih hx (by rwa [taken_replace])

/-- The name that a pool gives, whether or not it has been asked for the name before. -/
def giveName (p : NamePool) (x : String) : String :=
  (p.replace x).1

theorem giveName_of_mem {p : NamePool} {x : String} (hx : x ∈ p.taken) : p.giveName x = x := by
  rw [giveName, replace, if_pos (List.contains_iff_mem.mpr hx)]

theorem giveName_of_lookup {p : NamePool} {x y : String} (hx : x ∉ p.taken)
    (hy : p.replaced.lookup x = some y) : p.giveName x = y := by
  rw [giveName, replace, if_neg (fun h => hx (List.contains_iff_mem.mp h)), hy]

theorem giveName_free {p : NamePool} (h : p.Sound) {x : String} (hx : x ∉ p.taken) :
    IsLowercaseName (p.giveName x) ∧ p.giveName x ∉ p.taken := by
  obtain ⟨hmem, -⟩ | ⟨-, y, hy, heq⟩ | ⟨-, -, n, -, hfree, heq⟩ := p.replace_cases x
  · exact absurd hmem hx
  · obtain ⟨n, -, rfl⟩ := h.numbered x y hy
    rw [giveName, heq]
    exact ⟨isLowercaseName_shortName n, h.free x _ hy⟩
  · rw [giveName, heq]
    exact ⟨isLowercaseName_shortName n, hfree⟩

/-- On names that a pool has been asked for, its new names are those it gives. -/
theorem newName_eq_giveName {p : NamePool} {xs : List String} {x : String} (hx : x ∈ xs) :
    (p.replaceAll xs).newName x = (p.replaceAll xs).giveName x := by
  by_cases htaken : x ∈ p.taken
  · have hmem : x ∈ (p.replaceAll xs).taken := by rwa [taken_replaceAll]
    rw [giveName_of_mem hmem, newName, if_pos (List.contains_iff_mem.mpr hmem)]
  · have hmem : x ∉ (p.replaceAll xs).taken := by rwa [taken_replaceAll]
    obtain ⟨y, hy⟩ := Option.isSome_iff_exists.mp (lookup_replaceAll_self hx htaken)
    rw [giveName_of_lookup hmem hy, newName, hy,
      if_neg (fun h => hmem (List.contains_iff_mem.mp h)), Option.getD_some]

theorem giveName_injOn {p : NamePool} (h : p.Sound) {xs : List String} {x y : String}
    (hx : x ∈ xs) (hy : y ∈ xs)
    (heq : (p.replaceAll xs).giveName x = (p.replaceAll xs).giveName y) : x = y := by
  have hsound := h.replaceAll xs
  by_cases hxt : x ∈ (p.replaceAll xs).taken <;> by_cases hyt : y ∈ (p.replaceAll xs).taken
  · rwa [giveName_of_mem hxt, giveName_of_mem hyt] at heq
  · -- a given name is not taken
    rw [giveName_of_mem hxt] at heq
    exact absurd (heq ▸ hxt) (giveName_free hsound hyt).2
  · rw [giveName_of_mem hyt] at heq
    exact absurd (heq ▸ hyt) (giveName_free hsound hxt).2
  · obtain ⟨x', hx'⟩ := Option.isSome_iff_exists.mp
      (lookup_replaceAll_self hx (by rwa [taken_replaceAll] at hxt))
    obtain ⟨y', hy'⟩ := Option.isSome_iff_exists.mp
      (lookup_replaceAll_self hy (by rwa [taken_replaceAll] at hyt))
    rw [giveName_of_lookup hxt hx', giveName_of_lookup hyt hy'] at heq
    exact hsound.apart x y y' (heq ▸ hx') hy'

end NamePool

/-! ## Running a renamed program -/

namespace Tree

/-- The value of a node after renaming. -/
def renamedValue (r : String → String) (k : String) (v : Option Scalar) : Option Scalar :=
  if k == "variable" then
    match v with
    | some (.text s) => some (.text (r s))
    | v => v
  else v

theorem renameVariables_leaf (r : String → String) (k : String) (v : Option Scalar) :
    (leaf k v).renameVariables r = leaf k (renamedValue r k v) :=
  rfl

theorem renameVariables_branch (r : String → String) (k : String) (v : Option Scalar)
    (cs : List Tree) : (branch k v cs).renameVariables r
      = branch k (renamedValue r k v) (cs.map (renameVariables r)) := by
  rw [renameVariables, mapVariables, mapVariablesAll_eq_map]
  rfl

theorem renamedValue_congr {r s : String → String} {k : String} {v : Option Scalar}
    (h : (k == "variable") = true → r (valueText v) = s (valueText v)) :
    renamedValue r k v = renamedValue s k v := by
  unfold renamedValue
  by_cases hk : (k == "variable") = true
  · rw [if_pos hk, if_pos hk]
    rcases v with _ | x | _
    · rfl
    · exact congrArg (fun y => some (Scalar.text y)) (h hk)
    · rfl
  · rw [if_neg hk, if_neg hk]

/-- Renaming depends on what happens to the names of the tree only. -/
theorem renameVariables_congr {r s : String → String} (t : Tree)
    (h : ∀ x ∈ t.variableNames, r x = s x) : t.renameVariables r = t.renameVariables s := by
  induction t with
  | leaf k v =>
    rw [variableNames_leaf] at h
    rw [renameVariables_leaf, renameVariables_leaf, renamedValue_congr]
    intro hk
    exact h _ (by simp [hk])
  | branch k v cs ih =>
    have hroot : renamedValue r k v = renamedValue s k v := by
      refine renamedValue_congr fun hk => h _ ?_
      simp [variableNames_branch, hk]
    have hbelow : cs.map (renameVariables r) = cs.map (renameVariables s) :=
      List.map_congr_left fun c hc => ih c hc fun x hx => h x (mem_variableNames_of_child hc hx)
    rw [renameVariables_branch, renameVariables_branch, hroot, hbelow]

theorem children_renameVariables (r : String → String) (t : Tree) :
    (t.renameVariables r).children = t.children.map (renameVariables r) := by
  cases t with
  | leaf k v => rfl
  | branch k v cs =>
    rw [renameVariables_branch]
    rfl

theorem statements_renameVariables (r : String → String) (program : Tree) :
    (program.renameVariables r).statements = program.statements.map (renameVariables r) := by
  rw [statements, statements, children_renameVariables, List.flatMap_map, List.map_flatMap]
  exact List.flatMap_congr fun l _ => children_renameVariables r l

theorem HasNames.child {t c : Tree} (h : t.HasNames) (hc : c ∈ t.children) : c.HasNames := by
  cases t with
  | leaf k v => cases hc
  | branch k v cs =>
    intro u hu
    refine h u ?_
    rw [find_branch]
    exact List.mem_append_right _ (List.mem_flatMap.mpr ⟨c, hc, hu⟩)

theorem HasNames.value_eq {v : Option Scalar} (h : (leaf "variable" v).HasNames) :
    ∃ s, v = some (.text s) :=
  h (leaf "variable" v) (by simp [find_leaf, isLeaf, isVariable, kind])

variable {V : Type u}

/-- Two stores hold the same values, the second under the new names. -/
def Renamed (r : String → String) (names : List String) (σ τ : Store V) : Prop :=
  ∀ x ∈ names, τ (r x) = σ x

theorem valueIn_renameVariables (I : Interpretation V) {r : String → String} {σ τ : Store V}
    {t : Tree} (hnames : t.HasNames) (h : Renamed r t.readNames σ τ) :
    (t.renameVariables r).valueIn I τ = t.valueIn I σ := by
  induction t with
  | leaf k v =>
    by_cases hk : (k == "variable") = true
    · obtain rfl := beq_iff_eq.mp hk
      obtain ⟨s, rfl⟩ := hnames.value_eq
      exact h s (by simp [readNames_leaf, valueText, Scalar.render])
    · have hkeep : renamedValue r k v = v := if_neg hk
      rw [renameVariables_leaf, hkeep, valueIn, valueIn, if_neg hk, if_neg hk]
  | branch k v cs ih =>
    rw [renameVariables_branch, valueIn_branch, valueIn_branch, List.map_map]
    congr 1
    refine List.map_congr_left fun c hc => ?_
    refine ih c hc (hnames.child hc) fun x hx => h x ?_
    rw [readNames_branch]
    exact List.mem_flatMap.mpr ⟨c, hc, hx⟩

/-- A renamed assignment assigns to the new name, the value of the renamed expression. -/
theorem IsChipAssignment.renameVariables_parts {a : Tree} (h : a.IsChipAssignment)
    (hnames : a.HasNames) (r : String → String) :
    (a.renameVariables r).targetName = r a.targetName ∧
      (a.renameVariables r).rightSide = a.rightSide.renameVariables r := by
  obtain ⟨v, e, hchildren, -⟩ := h.parts
  have hv : (leaf "variable" v).HasNames := hnames.child (by simp [hchildren])
  obtain ⟨s, rfl⟩ := hv.value_eq
  rw [targetName, targetName, rightSide, rightSide, children_renameVariables, hchildren]
  exact ⟨rfl, rfl⟩

/-- One assignment keeps a store and its renamed copy in step, as long as the renaming does not make
one name of two. -/
theorem Renamed.execute {r : String → String} {names : List String} {σ τ : Store V}
    (h : Renamed r names σ τ) (I : Interpretation V)
    (hinj : ∀ x ∈ names, ∀ y ∈ names, r x = r y → x = y) {a : Tree} (ha : a.IsChipAssignment)
    (hnames : a.HasNames) (htarget : a.targetName ∈ names) (hreads : a.reads ⊆ names) :
    Renamed r names (a.execute I σ) ((a.renameVariables r).execute I τ) := by
  obtain ⟨htarget', hright⟩ := ha.renameVariables_parts hnames r
  have hrightNames : a.rightSide.HasNames := by
    obtain ⟨v, e, hchildren, -⟩ := ha.parts
    refine hnames.child ?_
    simp [rightSide, hchildren]
  intro x hx
  rw [Tree.execute, Tree.execute, htarget', hright]
  by_cases hxa : x = a.targetName
  · rw [hxa, Function.update_self, Function.update_self]
    exact valueIn_renameVariables I hrightNames fun y hy => h y (hreads hy)
  · have hne : r x ≠ r a.targetName := fun heq => hxa (hinj x hx _ htarget heq)
    rw [Function.update_of_ne hne, Function.update_of_ne hxa]
    exact h x hx

theorem Renamed.foldl_execute {r : String → String} {names : List String} (I : Interpretation V)
    (hinj : ∀ x ∈ names, ∀ y ∈ names, r x = r y → x = y) {ts : List Tree}
    (hts : ∀ a ∈ ts, a.IsChipAssignment ∧ a.HasNames ∧ a.targetName ∈ names ∧ a.reads ⊆ names)
    {σ τ : Store V} (h : Renamed r names σ τ) :
    Renamed r names (ts.foldl (fun σ t => t.execute I σ) σ)
      ((ts.map (renameVariables r)).foldl (fun σ t => t.execute I σ) τ) := by
  induction ts generalizing σ τ with
  | nil => exact h
  | cons a ts ih =>
    obtain ⟨ha, hnames, htarget, hreads⟩ := hts a List.mem_cons_self
    rw [List.foldl_cons, List.map_cons, List.foldl_cons]
    refine ih (fun b hb => hts b (List.mem_cons_of_mem a hb)) ?_
    exact h.execute I hinj ha hnames htarget hreads

/-- The statements of a chip program use names of the program only. -/
theorem IsChip.statement_names {program a : Tree} (h : program.IsChip) (hnames : program.HasNames)
    (ha : a ∈ program.statements) : a.IsChipAssignment ∧ a.HasNames ∧
      a.targetName ∈ program.variableNames ∧ a.reads ⊆ program.variableNames := by
  obtain ⟨l, hl, hal⟩ := List.mem_flatMap.mp ha
  have hchip := (h.lines l hl).assignments a hal
  have hup : a.variableNames ⊆ program.variableNames := fun x hx =>
    mem_variableNames_of_child hl (mem_variableNames_of_child hal hx)
  obtain ⟨v, e, hchildren, -⟩ := hchip.parts
  refine ⟨hchip, (hnames.child hl).child hal, hup ?_, fun x hx => hup ?_⟩
  · refine mem_variableNames_of_child (c := leaf "variable" v) (by simp [hchildren]) ?_
    simp [variableNames_leaf, targetName, hchildren, name, value]
  · have hright : a.rightSide = e := by rw [rightSide, hchildren]
    rw [reads, hright] at hx
    exact mem_variableNames_of_child (by simp [hchildren]) (readNames_subset_variableNames e hx)

/-- Running a renamed program from a renamed store leaves the renamed store, and nothing happens to
any other name. -/
theorem run_renameVariables {program : Tree} (hchip : program.IsChip) (hnames : program.HasNames)
    {r : String → String}
    (hinj : ∀ x ∈ program.variableNames, ∀ y ∈ program.variableNames, r x = r y → x = y)
    (I : Interpretation V) {σ τ : Store V} (h : Renamed r program.variableNames σ τ) :
    Renamed r program.variableNames (program.run I σ) ((program.renameVariables r).run I τ) ∧
      ∀ y, y ∉ program.variableNames.map r → (program.renameVariables r).run I τ y = τ y := by
  rw [run, run, statements_renameVariables]
  refine ⟨h.foldl_execute I hinj fun a ha => hchip.statement_names hnames ha, fun y hy => ?_⟩
  refine foldl_execute_of_not_mem I _ τ fun hmem => hy ?_
  rw [List.map_map] at hmem
  obtain ⟨a, ha, rfl⟩ := List.mem_map.mp hmem
  obtain ⟨hassign, hnames', htarget, -⟩ := hchip.statement_names hnames ha
  rw [Function.comp_apply, (hassign.renameVariables_parts hnames' r).1]
  exact List.mem_map_of_mem htarget

/-- Giving short names renames each variable of a program by one function. It keeps the names of the
program apart, it leaves the names that are shared with the surroundings as they are, and it gives
all others lowercase names that the surroundings do not use. So the program with short names does
what the program did, under the new names: for every reading of the literals and operators, and from
every store. -/
theorem shortenNames_alphaRenaming {program : Tree} (hkind : program.kind = "program")
    (imported exported : List String) :
    ∃ r : String → String,
      program.shortenNames imported exported = .ok (program.renameVariables r) ∧
      (∀ x ∈ program.variableNames, ∀ y ∈ program.variableNames, r x = r y → x = y) ∧
      (∀ x, x ∈ imported ∨ x ∈ exported → r x = x) ∧
      (∀ x, x ∉ imported → x ∉ exported →
        IsLowercaseName (r x) ∧ r x ∉ imported ∧ r x ∉ exported) ∧
      (program.IsChip → program.HasNames →
        ∀ (V : Type u) (I : Interpretation V) (σ τ : Store V),
          Renamed r program.variableNames σ τ →
          Renamed r program.variableNames (program.run I σ)
              ((program.renameVariables r).run I τ) ∧
            ∀ y, y ∉ program.variableNames.map r →
              (program.renameVariables r).run I τ y = τ y) := by
  have hfresh := NamePool.sound_fresh (imported ++ exported)
  set pool := (NamePool.fresh (imported ++ exported)).replaceAll program.variableNames with hpool
  have htaken : pool.taken = imported ++ exported := NamePool.taken_replaceAll _ _
  have hinj : ∀ x ∈ program.variableNames, ∀ y ∈ program.variableNames,
      pool.giveName x = pool.giveName y → x = y :=
    fun x hx y hy => NamePool.giveName_injOn hfresh hx hy
  refine ⟨pool.giveName, ?_, hinj, fun x hx => ?_, fun x hx hx' => ?_, ?_⟩
  · have hguard : (program.kind != "program") = false := by rw [hkind]; rfl
    rw [shortenNames, hguard, ← hpool]
    refine congrArg Except.ok (renameVariables_congr program fun x hx => ?_)
    exact NamePool.newName_eq_giveName hx
  · refine NamePool.giveName_of_mem ?_
    rw [htaken]
    exact List.mem_append.mpr hx
  · have hx : x ∉ pool.taken := by simp [htaken, hx, hx']
    have hfree := NamePool.giveName_free (hfresh.replaceAll program.variableNames) hx
    rw [← hpool, htaken, List.mem_append, not_or] at hfree
    exact hfree
  · intro hchip hnames V I σ τ h
    exact run_renameVariables hchip hnames hinj I h

theorem shortenNames_sample :
    sampleChip.IsChip ∧ sampleChip.HasNames ∧ ∃ r : String → String,
      sampleChip.shortenNames ["x"] ["b"] = .ok (sampleChip.renameVariables r) ∧
      r "x" = "x" ∧ r "b" = "b" ∧ r "a" ≠ r "c" ∧
      ∀ (V : Type) (I : Interpretation V) (σ τ : Store V),
        Renamed r sampleChip.variableNames σ τ →
        Renamed r sampleChip.variableNames (sampleChip.run I σ)
          ((sampleChip.renameVariables r).run I τ) := by
  have hnames : sampleChip.HasNames := by
    intro u hu
    have hvariables : sampleChip.find (fun u => u.isLeaf && u.isVariable)
        = ["a", "b", "a", "x", "c", "a"].map variableNamed := rfl
    rw [hvariables] at hu
    obtain ⟨x, -, rfl⟩ := List.mem_map.mp hu
    exact ⟨x, rfl⟩
  have hkind : sampleChip.kind = "program" := rfl
  obtain ⟨r, hr, hinj, hfix, -, hrun⟩ := shortenNames_alphaRenaming hkind ["x"] ["b"]
  refine ⟨sampleChip_isChip, hnames, r, hr, hfix "x" (by simp), hfix "b" (by simp), ?_, ?_⟩
  · intro heq
    have := hinj "a" (by decide) "c" (by decide) heq
    exact absurd this (by decide)
  · intro V I σ τ h
    exact (hrun sampleChip_isChip hnames V I σ τ h).1

end Tree

end Scalarize
