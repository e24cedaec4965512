import Scalarize.Alias
import Scalarize.Proofs.Naming

/-!
# Scalarize — names that begin with a stem

An export renames all names that begin with the stem of its variable. The stem ends in the index of
the variable, and nothing tells where an index ends: `_yovec_num1` begins `_yovec_num10` as well. So
an export takes the components of every variable of its sort whose index begins with its own index,
and leaves of their names what follows the shorter index.

* **`Component.exportedAs?`** — the name that an export gives to a component.
* **`Component.exportedName?_name`** — this is what the search for the stem comes to.
* **`Component.stemless_of_exportedAs?`** — a name that an export has given is taken by no other.
-/

namespace Scalarize

/-! ## Replacing the beginning of a text -/

namespace Text

variable {old new cs rest : List Char}

theorem replaceFrom_eq_drop (n : Nat) :
    replaceFrom old new n cs = replaceFrom old new 0 (cs.drop n) := by
  induction n generalizing cs with
  | zero => rfl
  | succ n ih =>
    cases cs with
    | nil => rfl
    | cons c cs => exact ih

/-- A text that lacks a character of the old part does not have the old part in it. -/
theorem replaceAll_of_notMem {c : Char} (hold : c ∈ old) (hcs : c ∉ cs) :
    replaceAll old new cs = cs := by
  induction cs with
  | nil => rfl
  | cons d cs ih =>
    have hnot : ¬ old.isPrefixOf (d :: cs) = true := fun h =>
      hcs ((List.isPrefixOf_iff_prefix.mp h).subset hold)
    rw [replaceAll, replaceFrom, if_neg hnot]
    exact congrArg (d :: ·) (ih fun h => hcs (List.mem_cons_of_mem d h))

theorem replaceAll_append {c : Char} (hold : c ∈ old) (hrest : c ∉ rest) :
    replaceAll old new (old ++ rest) = new ++ rest := by
  cases old with
  | nil => cases hold
  | cons d ds =>
    have hbegins : (d :: ds).isPrefixOf (d :: (ds ++ rest)) = true :=
      List.isPrefixOf_iff_prefix.mpr (List.prefix_append (d :: ds) rest)
    rw [List.cons_append, replaceAll, replaceFrom, if_pos hbegins, replaceFrom_eq_drop,
      List.length_cons, Nat.add_sub_cancel, List.drop_left]
    exact congrArg (new ++ ·) (replaceAll_of_notMem hold hrest)

theorem startsWith_iff {start s : String} :
    startsWith start s = true ↔ start.toList <+: s.toList :=
  List.isPrefixOf_iff_prefix

end Text

/-! ## Stems -/

/-- The name begins as all generated names do. -/
def Reserved (x : String) : Prop :=
  Text.startsWith "_yovec_" x = true

instance : DecidablePred Reserved := fun x =>
  inferInstanceAs (Decidable (Text.startsWith "_yovec_" x = true))

/-- No stem begins the name. -/
def Stemless (x : String) : Prop :=
  ∀ s index, Text.startsWith (stem s index) x = false

namespace Component

theorem toList_stem (s : ValueSort) (index : Nat) :
    (stem s index).toList = "_yovec_".toList ++ (letters s ++ digits index) := by
  cases s <;> exact String.toList_append

/-- The part of a name that tells the place of the component in its variable. -/
def position : Component → String
  | number _ => ""
  | element _ i => "_e" ++ toString i
  | cell _ i j => "_r" ++ toString i ++ "c" ++ toString j

theorem name_eq (c : Component) : c.name = stem c.sort c.index ++ c.position := by
  cases c with
  | number index => exact String.append_empty.symm
  | element index i => exact String.append_assoc
  | cell index i j =>
    show stem .matrix index ++ "_r" ++ toString i ++ "c" ++ toString j = _
    rw [String.append_assoc, String.append_assoc, String.append_assoc]
    show stem .matrix index ++ _ = stem .matrix index ++ ("_r" ++ toString i ++ "c" ++ toString j)
    rw [String.append_assoc, String.append_assoc]

/-- What follows the index starts with an underscore, if there is anything. -/
theorem position_cases (c : Component) :
    c.position.toList = [] ∨ ∃ cs, c.position.toList = '_' :: cs := by
  cases c with
  | number index => exact .inl rfl
  | element index i => exact .inr ⟨'e' :: digits i, String.toList_append⟩
  | cell index i j =>
    refine .inr ⟨'r' :: (digits i ++ 'c' :: digits j), ?_⟩
    show ("_r" ++ toString i ++ "c" ++ toString j).toList = _
    simp only [String.toList_append, List.append_assoc]
    rfl

theorem notMem_position {d : Char} (hdigit : d.isDigit = false) (hd : d ∉ ['_', 'e', 'r', 'c'])
    (c : Component) : d ∉ c.position.toList := by
  have hdigits := not_mem_digits hdigit
  simp only [List.mem_cons, List.not_mem_nil, or_false, not_or] at hd
  cases c with
  | number index => exact List.not_mem_nil
  | element index i =>
    rw [position, String.toList_append]
    show d ∉ '_' :: 'e' :: digits i
    simpa only [List.mem_cons, not_or] using ⟨hd.1, hd.2.1, hdigits i⟩
  | cell index i j =>
    rw [position, String.toList_append, String.toList_append, String.toList_append]
    show d ∉ '_' :: 'r' :: (digits i ++ ['c'] ++ digits j)
    simpa only [List.mem_cons, List.mem_append, List.not_mem_nil, or_false, not_or] using
      ⟨hd.1, hd.2.2.1, ⟨hdigits i, hd.2.2.2⟩, hdigits j⟩

/-- The digits of one index begin a name at the index if they begin the index. -/
theorem digits_initial_iff {c : Component} {index : Nat} :
    digits index <+: digits c.index ++ c.position.toList ↔ digits index <+: digits c.index := by
  refine ⟨fun h => ?_, fun h => h.trans (List.prefix_append _ _)⟩
  obtain ⟨rest, h⟩ := h
  rcases List.append_eq_append_iff.mp h with ⟨left, hleft, -⟩ | ⟨more, hmore, hposition⟩
  · exact ⟨left, hleft.symm⟩
  · -- a longer index would reach over the underscore
    cases more with
    | nil => rw [hmore, List.append_nil]
    | cons d more =>
      have hd : d = '_' := by
        rcases c.position_cases with hc | ⟨cs, hc⟩ <;> rw [hc] at hposition <;> cases hposition
        rfl
      refine absurd ?_ (not_mem_digits (c := '_') rfl index)
      rw [hmore, hd]
      simp

theorem startsWith_name_iff {c : Component} {s : ValueSort} {index : Nat} :
    Text.startsWith (stem s index) c.name = true ↔
      s = c.sort ∧ digits index <+: digits c.index := by
  rw [Text.startsWith_iff, name_eq, String.toList_append, toList_stem, toList_stem,
    List.append_assoc, List.prefix_append_right_inj, List.append_assoc]
  constructor
  · rintro ⟨rest, h⟩
    -- all sorts have three letters, so the letters and the digits can be compared apart
    rw [List.append_assoc] at h
    obtain ⟨hletters, hdigits⟩ :=
      List.append_inj h ((letters_length _).trans (letters_length _).symm)
    exact ⟨letters_injective hletters, digits_initial_iff.mp ⟨rest, hdigits⟩⟩
  · rintro ⟨rfl, h⟩
    exact (List.prefix_append_right_inj _).mpr (digits_initial_iff.mpr h)

/-! ## What an export makes of a component -/

/-- The name that the export of the variable of an index gives to a component, if the component is
of the sort of the variable and its index begins with that index. -/
def exportedAs? (c : Component) (s : ValueSort) (index : Nat) (target : String) : Option String :=
  if s = c.sort then
    ((digits index).isPrefixOf? (digits c.index)).map fun rest =>
      target ++ String.ofList rest ++ c.position
  else none

theorem exportedAs?_eq_some {c : Component} {s : ValueSort} {index : Nat} {target y : String} :
    c.exportedAs? s index target = some y ↔ s = c.sort ∧ ∃ rest,
      digits index ++ rest = digits c.index ∧ target ++ String.ofList rest ++ c.position = y := by
  unfold exportedAs?
  split
  · next hs => simp [hs, List.isPrefixOf?_eq_some_iff_append_eq]
  · next hs => simp [hs]

/-- An export looks for its stem in the name of a component and finds it at most once. -/
theorem exportedName?_name (c : Component) (s : ValueSort) (index : Nat) (target : String) :
    Resolution.exportedName? (stem s index) target c.name = c.exportedAs? s index target := by
  by_cases hstart : Text.startsWith (stem s index) c.name = true
  · obtain ⟨rfl, rest, hrest⟩ := startsWith_name_iff.mp hstart
    rw [Resolution.exportedName?, if_pos hstart, eq_comm, exportedAs?_eq_some]
    refine ⟨rfl, rest, hrest, String.toList_inj.mp ?_⟩
    have hname : c.name.toList = (stem c.sort index).toList ++ (rest ++ c.position.toList) := by
      rw [name_eq, String.toList_append, toList_stem, toList_stem, ← hrest]
      simp only [List.append_assoc]
    -- there is a `y` in the stem and none behind it
    have hrest_digits : 'y' ∉ rest := fun h =>
      not_mem_digits (c := 'y') rfl c.index (hrest ▸ List.mem_append_right _ h)
    have hbehind : 'y' ∉ rest ++ c.position.toList := fun h =>
      (List.mem_append.mp h).elim hrest_digits (notMem_position rfl (by decide) c)
    have hstem : 'y' ∈ (stem c.sort index).toList := by
      rw [toList_stem]
      exact List.mem_append_left _ (by decide)
    rw [Text.replaceString, String.toList_ofList, hname, Text.replaceAll_append hstem hbehind]
    simp only [String.toList_append, String.toList_ofList, List.append_assoc]
  · have hnone : c.exportedAs? s index target = none := by
      rw [Option.eq_none_iff_forall_ne_some]
      intro y hy
      obtain ⟨hs, rest, hrest, -⟩ := exportedAs?_eq_some.mp hy
      exact hstart (startsWith_name_iff.mpr ⟨hs, rest, hrest⟩)
    rw [hnone, Resolution.exportedName?, if_neg hstart]

theorem not_stemless_name (c : Component) : ¬ Stemless c.name := fun h =>
  Bool.false_ne_true ((h c.sort c.index).symm.trans
    (startsWith_name_iff.mpr ⟨rfl, List.prefix_rfl⟩))

end Component

theorem stemless_of_not_reserved {x : String} (h : ¬ Reserved x) : Stemless x := by
  intro s index
  refine Bool.eq_false_iff.mpr fun hstart => h (Text.startsWith_iff.mpr ?_)
  rw [Text.startsWith_iff, Component.toList_stem] at hstart
  exact (List.prefix_append _ _).trans hstart

theorem Stemless.exportedName? {x : String} (h : Stemless x) (s : ValueSort) (index : Nat)
    (target : String) : Resolution.exportedName? (stem s index) target x = none := by
  rw [Resolution.exportedName?, h s index]
  rfl

/-- If the target is not like a generated name, then the new name is not either: what is left of the
old name has none of the letters that tell a sort. -/
theorem Component.stemless_of_exportedAs? {c : Component} {s : ValueSort} {index : Nat}
    {target y : String} (htarget : ¬ Reserved target)
    (h : c.exportedAs? s index target = some y) : Stemless y := by
  obtain ⟨-, rest, hrest, rfl⟩ := exportedAs?_eq_some.mp h
  intro s' index'
  refine Bool.eq_false_iff.mpr fun hstart => ?_
  obtain ⟨z, hz⟩ := Text.startsWith_iff.mp hstart
  simp only [toList_stem, String.toList_append, String.toList_ofList, List.append_assoc] at hz
  -- either the target reaches over the common beginning of the stems or the letters come after it
  rcases List.append_eq_append_iff.mp hz with ⟨more, htarget', -⟩ | ⟨more, -, hleft⟩
  · exact htarget (Text.startsWith_iff.mpr ⟨more, htarget'.symm⟩)
  · have hletter : ∃ l ∈ letters s', l.isDigit = false ∧ l ∉ ['_', 'e', 'r', 'c'] := by
      cases s' with
      | number => exact ⟨'n', by simp [letters], rfl, by decide⟩
      | vector => exact ⟨'v', by simp [letters], rfl, by decide⟩
      | matrix => exact ⟨'m', by simp [letters], rfl, by decide⟩
    obtain ⟨l, hl, hdigit, hother⟩ := hletter
    have hmem : l ∈ rest ++ c.position.toList := by
      rw [hleft]
      exact List.mem_append_right _ (List.mem_append_left _ hl)
    rcases List.mem_append.mp hmem with hmem | hmem
    · exact not_mem_digits hdigit c.index (hrest ▸ List.mem_append_right _ hmem)
    · exact notMem_position hdigit hother c hmem

end Scalarize
