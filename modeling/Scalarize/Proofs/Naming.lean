import Mathlib
import Scalarize.Value.Basic

/-!
# Scalarize — generated names

A component of a variable is told by the sort of the variable, its index among those of its sort,
and the position of the component. The name that is generated for it tells it as well: the numbers
in a name are written in decimal digits and stand between letters and underscores.

* **`Component.name_injective`** — two components never get the same name.
* **`Value.assign_fst`**, **`Value.parts_assign`** — to assign a value is to assign its parts, one
  after the other, to the names of its components, and what is kept in the environment is these
  names.
-/

namespace Scalarize

/-- A component of a variable. -/
inductive Component where
  | number (index : Nat)
  | element (index i : Nat)
  | cell (index i j : Nat)
deriving DecidableEq

namespace Component

/-- The name generated for a component. -/
def name : Component → String
  | number index => numName index
  | element index i => vecName index i
  | cell index i j => matName index i j

/-- The sort of the variable. -/
def sort : Component → ValueSort
  | number _ => .number
  | element _ _ => .vector
  | cell _ _ _ => .matrix

/-- The index of the variable. -/
def index : Component → Nat
  | number index => index
  | element index _ => index
  | cell index _ _ => index

/-! ## Names as lists of characters -/

/-- The digits of a number. -/
def digits (n : Nat) : List Char :=
  (toString n).toList

theorem digits_injective : Function.Injective digits := fun _ _ h =>
  Nat.repr_injective (String.toList_inj.mp h)

theorem not_mem_digits {c : Char} (hc : c.isDigit = false) (n : Nat) : c ∉ digits n := by
  intro h
  rw [digits, show toString n = n.repr from rfl, Nat.toList_repr] at h
  rw [Nat.isDigit_of_mem_toDigits (by decide) (by decide) h] at hc
  cases hc

/-- What follows the letters that tell the sort. -/
def tail : Component → List Char
  | number index => digits index
  | element index i => digits index ++ '_' :: 'e' :: digits i
  | cell index i j => digits index ++ '_' :: 'r' :: (digits i ++ 'c' :: digits j)

/-- The letters that tell the sort. -/
def letters : ValueSort → List Char
  | .number => ['n', 'u', 'm']
  | .vector => ['v', 'e', 'c']
  | .matrix => ['m', 'a', 't']

theorem toList_name (c : Component) :
    c.name.toList = "_yovec_".toList ++ (letters c.sort ++ c.tail) := by
  cases c with
  | number index =>
    show (numName index).toList = _
    rw [numName, stem, String.toList_append]
    rfl
  | element index i =>
    show (vecName index i).toList = _
    rw [vecName, stem, String.toList_append, String.toList_append, String.toList_append,
      List.append_assoc, List.append_assoc]
    rfl
  | cell index i j =>
    show (matName index i j).toList = _
    rw [matName, stem, String.toList_append, String.toList_append, String.toList_append,
      String.toList_append, String.toList_append, List.append_assoc, List.append_assoc,
      List.append_assoc, List.append_assoc]
    rfl

theorem letters_length (s : ValueSort) : (letters s).length = 3 := by
  cases s <;> rfl

theorem letters_injective : Function.Injective letters := by
  intro s s' h
  cases s <;> cases s' <;> first | rfl | cases h

/-- Among the components of one sort, what follows the letters tells the component. -/
theorem eq_of_tail_eq {c d : Component} (hsort : c.sort = d.sort) (h : c.tail = d.tail) :
    c = d := by
  cases c with
  | number index =>
    cases d <;> cases hsort
    rw [digits_injective h]
  | element index i =>
    cases d <;> cases hsort
    next index' i' =>
    -- the underscore is the first character that is no digit
    have hsplit := (List.append_cons_inj_of_notMem (not_mem_digits rfl index)
      (by simpa using not_mem_digits rfl i)).mp h
    rw [digits_injective hsplit.1, digits_injective (List.cons.inj hsplit.2.2).2]
  | cell index i j =>
    cases d <;> cases hsort
    next index' i' j' =>
    have hsplit := (List.append_cons_inj_of_notMem (not_mem_digits rfl index)
      (by simpa using ⟨not_mem_digits rfl i, not_mem_digits rfl j⟩)).mp h
    -- and so is the `c` in what follows the `r`
    have hposition := (List.append_cons_inj_of_notMem (not_mem_digits rfl i)
      (not_mem_digits rfl j)).mp (List.cons.inj hsplit.2.2).2
    rw [digits_injective hsplit.1, digits_injective hposition.1, digits_injective hposition.2.2]

/-- Two components never get the same name. -/
theorem name_injective : Function.Injective name := by
  intro c d h
  have htoList := congrArg String.toList h
  rw [toList_name, toList_name] at htoList
  obtain ⟨hletters, htail⟩ := List.append_inj (List.append_cancel_left htoList)
    ((letters_length _).trans (letters_length _).symm)
  exact eq_of_tail_eq (letters_injective hletters) htail

end Component

/-! ## The components of a value -/

namespace Mat

theorem length_of_mem_rows {m : Mat} {v : Vec} (hv : v ∈ m.rows) : v.length = m.colCount :=
  m.rectangular v hv m.first (List.head_mem m.nonempty)

theorem rows_ofCells (r c : Nat) (hr : 0 < r) (hc : 0 < c) (f : Nat → Nat → Num) :
    (ofCells r c hr hc f).rows.map Vec.elems
      = (List.range r).map fun i => (List.range c).map (f i) := by
  rw [ofCells, List.map_map]
  rfl

end Mat

namespace Value

/-- The components of a value that is given to the variable of an index. -/
def components (index : Nat) : Value → List Component
  | number _ => [.number index]
  | vector v => (List.range v.length).map (.element index)
  | matrix m => (List.range m.rowCount).flatMap fun i =>
      (List.range m.colCount).map (.cell index i)

/-- The numbers that a value consists of, those of a matrix row by row. -/
def parts : Value → List Num
  | number x => [x]
  | vector v => v.elems
  | matrix m => m.rows.flatMap Vec.elems

/-- How many numbers a value consists of. -/
def componentCount : Value → Nat
  | number _ => 1
  | vector v => v.length
  | matrix m => m.rowCount * m.colCount

theorem length_components (index : Nat) (v : Value) :
    (v.components index).length = v.componentCount := by
  cases v with
  | number x => rfl
  | vector v => rw [components, List.length_map, List.length_range, componentCount]
  | matrix m =>
    simp only [components, componentCount, List.length_flatMap, List.length_map, List.length_range,
      List.map_const', List.sum_replicate, smul_eq_mul]

theorem of_mem_components {index : Nat} {v : Value} {c : Component}
    (h : c ∈ v.components index) : c.sort = v.sort ∧ c.index = index := by
  cases v with
  | number x =>
    rw [List.mem_singleton.mp h]
    exact ⟨rfl, rfl⟩
  | vector v =>
    obtain ⟨i, -, rfl⟩ := List.mem_map.mp h
    exact ⟨rfl, rfl⟩
  | matrix m =>
    obtain ⟨i, -, hi⟩ := List.mem_flatMap.mp h
    obtain ⟨j, -, rfl⟩ := List.mem_map.mp hi
    exact ⟨rfl, rfl⟩

theorem nodup_components (index : Nat) (v : Value) : (v.components index).Nodup := by
  cases v with
  | number x => exact List.nodup_singleton _
  | vector v => exact List.nodup_range.map fun i j h => (Component.element.inj h).2
  | matrix m =>
    refine List.nodup_flatMap.mpr ⟨fun i _ => ?_, ?_⟩
    · exact List.nodup_range.map fun j k h => (Component.cell.inj h).2.2
    · refine List.nodup_range.imp fun {i j} hij c hi hj => hij ?_
      obtain ⟨k, -, rfl⟩ := List.mem_map.mp hi
      obtain ⟨l, -, hl⟩ := List.mem_map.mp hj
      exact (Component.cell.inj hl).2.1.symm

/-! ## Assigning a value -/

theorem mapIdx_eq_zipWith {α β γ : Type*} (f : β → α → γ) (g : Nat → β) (xs : List α) :
    xs.mapIdx (fun i x => f (g i) x) = List.zipWith f ((List.range xs.length).map g) xs := by
  refine List.ext_getElem (by simp) fun i h₁ h₂ => ?_
  simp

/-- Rows of one length, taken one after the other. -/
theorem flatten_mapIdx_eq_zipWith {ρ α β γ : Type*} (f : β → α → γ) (g : Nat → Nat → β)
    (e : ρ → List α) {n : Nat} (rows : List ρ) (h : ∀ r ∈ rows, (e r).length = n) :
    (rows.mapIdx fun i r => (e r).mapIdx fun j x => f (g i j) x).flatten =
      List.zipWith f ((List.range rows.length).flatMap fun i => (List.range n).map (g i))
        (rows.flatMap e) := by
  induction rows generalizing g with
  | nil => rfl
  | cons r rows ih =>
    have hr := h r List.mem_cons_self
    -- the first row has the first indices, and the others have theirs moved by one
    rw [List.mapIdx_cons, List.flatten_cons, List.flatMap_cons, List.length_cons,
      List.range_succ_eq_map, List.flatMap_cons, List.flatMap_map,
      ih (fun i => g (i + 1)) fun r hr => h r (List.mem_cons_of_mem _ hr), mapIdx_eq_zipWith, hr,
      List.zipWith_append (by rw [List.length_map, List.length_range, hr])]

theorem length_parts (v : Value) : v.parts.length = v.componentCount := by
  cases v with
  | number x => rfl
  | vector v => rfl
  | matrix m =>
    have hrows : m.rows.map (fun v => v.elems.length) = m.rows.map fun _ => m.colCount :=
      List.map_congr_left fun v hv => Mat.length_of_mem_rows hv
    rw [parts, List.length_flatMap, hrows]
    simp only [List.map_const', List.sum_replicate, smul_eq_mul, componentCount, Mat.rowCount]

/-- The statements that assign a value assign its parts to the names of its components. -/
theorem assign_fst (index : Nat) (v : Value) :
    (v.assign index).1
      = List.zipWith (fun c x => x.assignTo c.name) (v.components index) v.parts := by
  cases v with
  | number x => rfl
  | vector v =>
    exact mapIdx_eq_zipWith (fun (c : Component) x => x.assignTo c.name) (.element index) v.elems
  | matrix m =>
    exact flatten_mapIdx_eq_zipWith (fun (c : Component) x => Num.assignTo x c.name) (.cell index)
      Vec.elems m.rows fun v hv => Mat.length_of_mem_rows hv

/-- What is kept of a value that has been assigned is the names of its components. -/
theorem parts_assign (index : Nat) (v : Value) :
    (v.assign index).2.parts = (v.components index).map fun c => .name c.name := by
  cases v with
  | number x => rfl
  | vector v =>
    refine List.ext_getElem ?_ fun i h₁ h₂ => ?_
    · simp [assign, parts, components, Vec.assign, Vec.length]
    · simp [assign, parts, components, Vec.assign, Component.name]
  | matrix m =>
    show List.flatMap Vec.elems (Mat.ofCells ..).rows = _
    rw [List.flatMap_def, Mat.rows_ofCells, ← List.flatMap_def, components, List.map_flatMap]
    refine List.flatMap_congr fun i _ => ?_
    rw [List.map_map]
    rfl

theorem sort_assign (index : Nat) (v : Value) : (v.assign index).2.sort = v.sort := by
  cases v <;> rfl

theorem componentCount_assign (index : Nat) (v : Value) :
    (v.assign index).2.componentCount = v.componentCount := by
  rw [← length_parts, parts_assign, List.length_map, length_components]

end Value

end Scalarize
