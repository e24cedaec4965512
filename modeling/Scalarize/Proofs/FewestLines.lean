import Scalarize.Proofs.PackedLines

/-!
# Scalarize — the fewest lines

A text that still fits is always put on the line that is being filled. This never costs a line: a
line that is ended earlier leaves more texts for the lines after it.

* **`IsPacking.drop`** — texts that are left out at the front do not ask for more lines.
* **`length_groupsFrom_le`** — the groups of the printer are at most as many as those of any other
  packing, by induction on the texts, where the packing may start with the texts on the line that is
  being filled.
* **`page_has_fewest_lines`** — the text of a program has the fewest lines that can hold it.
-/

namespace Scalarize.Layout

/-- A division into groups of which each may stand on one line. -/
structure IsPacking (fs : List String) (gs : List (List String)) : Prop extends
    IsDivision fs gs where
  fits : ∀ g ∈ gs, FitsLine g

section

variable {fs r : List String} {f : String} {g : List String} {gs : List (List String)}

theorem IsPacking.tail (h : IsPacking fs (g :: gs)) : IsPacking gs.flatten gs where
  flatten_eq := rfl
  ne_nil := fun g' hg' => h.ne_nil g' (List.mem_cons_of_mem g hg')
  fits := fun g' hg' => h.fits g' (List.mem_cons_of_mem g hg')

theorem IsPacking.cons (hg : g ≠ []) (hfits : FitsLine g) (h : IsPacking fs gs) :
    IsPacking (g ++ fs) (g :: gs) where
  flatten_eq := by rw [List.flatten_cons, h.flatten_eq]
  ne_nil := List.forall_mem_cons.mpr ⟨hg, h.ne_nil⟩
  fits := List.forall_mem_cons.mpr ⟨hfits, h.fits⟩

/-- Texts that are left out at the front do not ask for more lines. -/
theorem IsPacking.drop (h : IsPacking (r ++ fs) gs) :
    ∃ gs', IsPacking fs gs' ∧ gs'.length ≤ gs.length := by
  induction gs generalizing r with
  | nil =>
    obtain ⟨-, rfl⟩ := List.append_eq_nil_iff.mp h.flatten_eq.symm
    exact ⟨[], ⟨⟨rfl, by simp⟩, by simp⟩, le_rfl⟩
  | cons g gs ih =>
    have hsplit : g ++ gs.flatten = r ++ fs := h.flatten_eq
    rcases List.append_eq_append_iff.mp hsplit with ⟨r', rfl, hrest⟩ | ⟨c, rfl, rfl⟩
    · -- the first group is left out as a whole
      have htail := h.tail
      rw [hrest] at htail
      obtain ⟨gs', hgs', hle⟩ := ih htail
      exact ⟨gs', hgs', hle.trans (Nat.le_succ _)⟩
    · by_cases hc : c = []
      · subst hc
        exact ⟨gs, h.tail, Nat.le_succ _⟩
      · -- the end of the first group stays
        have hfits : FitsLine c := (h.fits _ List.mem_cons_self).mono ⟨r, [], by simp⟩
        exact ⟨c :: gs, h.tail.cons hc hfits, le_rfl⟩

/-- Where the next text does not fit, the first group of a packing ends with the line that is being
filled or before. -/
theorem IsPacking.first_le (h : IsPacking (r ++ f :: fs) (g :: gs))
    (hbreak : ¬ FitsLine (r ++ [f])) : ∃ r', IsPacking (r' ++ f :: fs) gs := by
  have hsplit : g ++ gs.flatten = r ++ f :: fs := h.flatten_eq
  rcases List.append_eq_append_iff.mp hsplit with ⟨r', -, hrest⟩ | ⟨c, rfl, hrest⟩
  · exact ⟨r', hrest ▸ h.tail⟩
  · cases c with
    | nil => exact ⟨[], hrest ▸ h.tail⟩
    | cons f' c =>
      obtain ⟨rfl, -⟩ := List.cons.inj hrest
      have hfits := h.fits _ List.mem_cons_self
      exact absurd (hfits.mono ⟨[], c, by simp⟩) hbreak

end

theorem length_ended_le (pending : List String) : (ended pending).length ≤ 1 := by
  unfold ended
  split <;> simp

/-- The groups of the printer are at most as many as those of a packing. -/
theorem length_groupsFrom_le {pending fs : List String} {gs : List (List String)}
    (h : IsPacking (pending ++ fs) gs) : (groupsFrom pending fs).length ≤ gs.length := by
  induction fs generalizing pending gs with
  | nil =>
    rw [groupsFrom, ended]
    split
    · exact Nat.zero_le _
    · next hp =>
      have hne : gs ≠ [] := by
        rintro rfl
        exact hp (List.append_eq_nil_iff.mp h.flatten_eq.symm).1
      exact List.length_pos_iff.mpr hne
  | cons f fs ih =>
    rw [groupsFrom]
    split
    · refine ih ?_
      rwa [List.append_assoc, List.singleton_append]
    · next hbreak =>
      cases gs with
      | nil => simpa using h.flatten_eq
      | cons g gs =>
        -- after its first group the packing still has all the texts from `f` on, and some before
        obtain ⟨r, hr⟩ := h.first_le hbreak
        obtain ⟨gs', hgs', hle⟩ := hr.drop
        have hrest : (groupsFrom [f] fs).length ≤ gs'.length := ih hgs'
        have hended := length_ended_le pending
        rw [List.length_append, List.length_cons]
        omega

theorem isPacking_groupsFrom (fs : List String) : IsPacking fs (groupsFrom [] fs) where
  toIsDivision := isDivision_groupsFrom [] fs
  fits := fun _ hg => fitsLine_of_mem_groupsFrom (.inl (Nat.zero_le _)) hg

theorem fitsLine_iff {g : List String} (hg : g ≠ []) :
    FitsLine g ↔ (line g).length ≤ width ∨ g.length = 1 := by
  have hpos := List.length_pos_iff.mpr hg
  have hone : g.length ≤ 1 ↔ g.length = 1 := by omega
  rw [FitsLine, hone, or_comm]

/-- The lines of the text of a program that are not empty are as few as possible: their number is
the least for which the texts of the assignments can be divided into groups in order that have at
most seventy characters, with spaces between, or are single texts. -/
theorem page_has_fewest_lines {program : Tree} {fs : List String} (h : Printed program fs) :
    ∃ p, page program = .ok p ∧
      IsLeast {n | ∃ gs, IsDivision fs gs ∧
        (∀ g ∈ gs, (line g).length ≤ 70 ∨ g.length = 1) ∧ gs.length = n}
        (Text.filledLines p.text).length := by
  refine ⟨_, page_eq h.kind_eq h.texts, ?_⟩
  rw [h.filledLines_eq, List.length_map]
  have hpacking := isPacking_groupsFrom fs
  constructor
  · exact ⟨groupsFrom [] fs, hpacking.toIsDivision,
      fun g hg => (fitsLine_iff (hpacking.ne_nil g hg)).mp (hpacking.fits g hg), rfl⟩
  · rintro _ ⟨gs, hgs, hfit, rfl⟩
    exact length_groupsFrom_le
      ⟨hgs, fun g hg => (fitsLine_iff (hgs.ne_nil g hg)).mpr (hfit g hg)⟩

theorem page_has_fewest_lines_unitProgram :
    Printed (unitProgram [32, 33, 69, 68, 1]) ([32, 33, 69, 68, 1].map unitText) ∧
    ∃ p, page (unitProgram [32, 33, 69, 68, 1]) = .ok p ∧
      IsLeast {n | ∃ gs, IsDivision ([32, 33, 69, 68, 1].map unitText) gs ∧
        (∀ g ∈ gs, (line g).length ≤ 70 ∨ g.length = 1) ∧ gs.length = n}
        (Text.filledLines p.text).length :=
  ⟨printed_unitProgram _, page_has_fewest_lines (printed_unitProgram _)⟩

end Scalarize.Layout
