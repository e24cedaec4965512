import Scalarize.Proofs.ShortNames

/-!
# Scalarize — the order in which short names are given out

Every text of lowercase letters is a short name, and its number can be read off its letters. The
pool goes through the numbers in order and passes over taken names only, so the names that it has
given out are the first ones that are not taken, as many as there are different names to replace.

* **`shortName_nameNumber`** — the number of a text of lowercase letters.
* **`NamePool.InTurn`**, **`NamePool.InTurn.replaceAll`** — the invariant of the pool.
* **`NamePool.exists_newName_eq_iff`** — whether a short name is given out at all.
-/

namespace Scalarize

/-! ## The number of a name -/

/-- The number of a lowercase letter. -/
def letterNumber (c : Char) : Nat :=
  c.toNat - 'a'.toNat

/-- The letters of a name as the digits of a number, from 1 to 26. -/
def nameValue (cs : List Char) : Nat :=
  cs.foldl (fun n c => 26 * n + (letterNumber c + 1)) 0

/-- The number of a name among all short names. -/
def nameNumber (name : String) : Nat :=
  nameValue name.toList - 1

theorem nameValue_append (cs : List Char) (c : Char) :
    nameValue (cs ++ [c]) = 26 * nameValue cs + (letterNumber c + 1) := by
  rw [nameValue, List.foldl_append]
  rfl

theorem nameValue_pos {cs : List Char} (h : cs ≠ []) : 0 < nameValue cs := by
  obtain ⟨cs, c, rfl⟩ := (List.eq_nil_or_concat' cs).resolve_left h
  rw [nameValue_append]
  omega

theorem letterNumber_lt {c : Char} (h : c.isLower = true) : letterNumber c < 26 := by
  have hc : 97 ≤ c.toNat ∧ c.toNat ≤ 122 := by
    simpa [Char.isLower, Char.le_def, UInt32.le_iff_toNat_le] using h
  show c.toNat - 97 < 26
  omega

theorem ofNat_letterNumber {c : Char} (h : c.isLower = true) :
    Char.ofNat ('a'.toNat + letterNumber c) = c := by
  have hc : 97 ≤ c.toNat ∧ c.toNat ≤ 122 := by
    simpa [Char.isLower, Char.le_def, UInt32.le_iff_toNat_le] using h
  have hsum : 'a'.toNat + letterNumber c = c.toNat := by
    show 97 + (c.toNat - 97) = c.toNat
    omega
  rw [hsum, Char.ofNat_toNat]

theorem lettersOf_nameValue {cs : List Char} (hne : cs ≠ [])
    (h : ∀ c ∈ cs, c.isLower = true) : lettersOf 'a' (nameValue cs - 1) = cs := by
  induction cs using List.reverseRecOn with
  | nil => exact absurd rfl hne
  | append_singleton cs c ih =>
    have hc : c.isLower = true := h c (by simp)
    have hlt := letterNumber_lt hc
    rw [nameValue_append]
    by_cases hcs : cs = []
    · subst hcs
      have hvalue : 26 * nameValue [] + (letterNumber c + 1) - 1 = letterNumber c := by
        show 26 * 0 + (letterNumber c + 1) - 1 = letterNumber c
        omega
      rw [hvalue, lettersOf_of_lt 'a' hlt, ofNat_letterNumber hc, List.nil_append]
    · have hpos := nameValue_pos hcs
      have hvalue : 26 * nameValue cs + (letterNumber c + 1) - 1
          = 26 * nameValue cs + letterNumber c := by omega
      have hdiv : (26 * nameValue cs + letterNumber c) / 26 = nameValue cs := by omega
      have hmod : (26 * nameValue cs + letterNumber c) % 26 = letterNumber c := by omega
      rw [hvalue, lettersOf_of_le 'a' (by omega), hdiv, hmod, ofNat_letterNumber hc,
        ih hcs fun c hc => h c (List.mem_append_left _ hc)]

/-- A text of lowercase letters is the short name with its number. -/
theorem shortName_nameNumber {name : String} (h : IsLowercaseName name) :
    shortName (nameNumber name) = name := by
  have hne : name.toList ≠ [] := fun hnil => h.1 (String.toList_eq_nil_iff.mp hnil)
  rw [shortName, nameNumber, lettersOf_nameValue hne h.2, String.ofList_toList]

/-! ## The pool goes through the numbers in order -/

/-- How many of the short names before the given number are not taken. -/
def freeBefore (taken : List String) (n : Nat) : Nat :=
  Nat.count (fun i => shortName i ∉ taken) n

/-- There are as many taken short names as taken names, at most. -/
theorem le_freeBefore_add (taken : List String) (n : Nat) :
    n ≤ freeBefore taken n + taken.length := by
  have htaken : {i ∈ Finset.range n | ¬ shortName i ∉ taken}.card ≤ taken.length := by
    refine le_trans ?_ taken.toFinset_card_le
    refine Finset.card_le_card_of_injOn shortName (fun i hi => ?_) shortName_injective.injOn
    have hmem := (Finset.mem_filter.mp hi).2
    exact List.mem_toFinset.mpr (not_not.mp hmem)
  have hall := Finset.card_filter_add_card_filter_not (s := Finset.range n)
    (fun i => shortName i ∉ taken)
  rw [Finset.card_range, ← Nat.count_eq_card_filter_range] at hall
  show n ≤ Nat.count (fun i => shortName i ∉ taken) n + taken.length
  omega

/-- Passing over taken names passes over no free one. -/
theorem freeBefore_eq {taken : List String} {m n : Nat} (hle : m ≤ n)
    (htaken : ∀ i, m ≤ i → i < n → shortName i ∈ taken) :
    freeBefore taken n = freeBefore taken m := by
  obtain ⟨d, rfl⟩ := Nat.exists_eq_add_of_le hle
  rw [freeBefore, Nat.count_add, freeBefore, Nat.add_eq_left, Nat.count_iff_forall_not]
  intro i hi hfree
  exact hfree (htaken (m + i) (by omega) (by omega))

/-- The different names that are not taken. -/
def privateNames (taken names : List String) : Finset String :=
  (names.filter (· ∉ taken)).toFinset

namespace NamePool

/-- The search passes over taken names only. -/
theorem mem_of_lt_nextFree {taken : List String} {tries n i : Nat} (hi : n ≤ i)
    (hlt : i < nextFree taken tries n) : shortName i ∈ taken := by
  induction tries generalizing n with
  | zero => exact absurd hlt (by rw [nextFree]; omega)
  | succ tries ih =>
    rw [nextFree] at hlt
    by_cases htaken : taken.contains (shortName n) = true
    · rw [if_pos htaken] at hlt
      by_cases hin : n = i
      · exact hin ▸ List.contains_iff_mem.mp htaken
      · exact ih (by omega) hlt
    · rw [if_neg htaken] at hlt
      omega

/-- A new name gets the first short name from the next number on that is not taken. -/
theorem replace_new {p : NamePool} {x : String} (hx : x ∉ p.taken)
    (hnone : p.replaced.lookup x = none) :
    ∃ n, p.next ≤ n ∧ shortName n ∉ p.taken ∧
      (∀ i, p.next ≤ i → i < n → shortName i ∈ p.taken) ∧
      p.replace x = (shortName n,
        { p with replaced := (x, shortName n) :: p.replaced, next := n + 1 }) := by
  refine ⟨_, le_nextFree _ _ _, shortName_nextFree_not_mem _ _, fun i => mem_of_lt_nextFree, ?_⟩
  rw [replace, if_neg fun h => hx (List.contains_iff_mem.mp h), hnone]

/-- The names that have been replaced. -/
def keys (p : NamePool) : List String :=
  p.replaced.map Prod.fst

theorem lookup_eq_none_iff {p : NamePool} {x : String} :
    p.replaced.lookup x = none ↔ x ∉ p.keys := by
  rw [List.lookup_eq_none_iff, keys]
  simp only [List.mem_map, not_exists, not_and, bne_iff_ne, ne_eq]
  exact ⟨fun h q hq heq => h q hq heq.symm, fun h q hq heq => h q hq heq.symm⟩

theorem keys_replace (p : NamePool) (x : String) :
    (p.replace x).2.keys = if x ∈ p.taken ∨ x ∈ p.keys then p.keys else x :: p.keys := by
  obtain ⟨hx, heq⟩ | ⟨-, y, hy, heq⟩ | ⟨hx, hnone, n, -, -, heq⟩ := p.replace_cases x
  · rw [heq, if_pos (.inl hx)]
  · have hkey : x ∈ p.keys := by
      by_contra h
      rw [lookup_eq_none_iff.mpr h] at hy
      cases hy
    rw [heq, if_pos (.inr hkey)]
  · rw [heq, if_neg (not_or.mpr ⟨hx, lookup_eq_none_iff.mp hnone⟩)]
    rfl

/-- The names given out so far are the first that are not taken. -/
structure InTurn (p : NamePool) : Prop where
  nodup : p.keys.Nodup
  given : ∀ n < p.next, shortName n ∉ p.taken →
    ∃ x ∈ p.keys, p.replaced.lookup x = some (shortName n)
  count : p.keys.length = freeBefore p.taken p.next

theorem inTurn_fresh (taken : List String) : (fresh taken).InTurn where
  nodup := List.nodup_nil
  given n hn := absurd hn (Nat.not_lt_zero n)
  count := (Nat.count_zero _).symm

theorem InTurn.replace {p : NamePool} (h : p.InTurn) (x : String) : (p.replace x).2.InTurn := by
  obtain ⟨-, heq⟩ | ⟨-, y, -, heq⟩ | ⟨hx, hnone, -⟩ := p.replace_cases x
  · rw [heq]
    exact h
  · rw [heq]
    exact h
  obtain ⟨n, hnext, hfree, hbetween, heq⟩ := replace_new hx hnone
  have hkey : x ∉ p.keys := lookup_eq_none_iff.mp hnone
  have hcount := freeBefore_eq hnext hbetween
  rw [heq]
  constructor
  · exact List.nodup_cons.mpr ⟨hkey, h.nodup⟩
  · intro i hi hi'
    show ∃ z ∈ x :: p.keys, ((x, shortName n) :: p.replaced).lookup z = some (shortName i)
    by_cases hin : i = n
    · exact ⟨x, List.mem_cons_self, by rw [List.lookup_cons_self, hin]⟩
    · have hi'' : i < p.next := by
        by_contra hge
        have hlt : i < n + 1 := hi
        exact hi' (hbetween i (by omega) (by omega))
      obtain ⟨z, hz, hlookup⟩ := h.given i hi'' hi'
      refine ⟨z, List.mem_cons_of_mem x hz, ?_⟩
      have hzx : (z == x) = false := beq_eq_false_iff_ne.mpr fun heq => hkey (heq ▸ hz)
      rw [List.lookup_cons, hzx]
      exact hlookup
  · show (x :: p.keys).length = freeBefore p.taken (n + 1)
    rw [List.length_cons, h.count, ← hcount]
    exact (Nat.count_succ_eq_succ_count_iff.mpr hfree).symm

theorem InTurn.replaceAll {p : NamePool} (h : p.InTurn) (xs : List String) :
    (p.replaceAll xs).InTurn := by
  induction xs generalizing p with
  | nil => exact h
  | cons x xs ih => exact ih (h.replace x)

theorem mem_keys_replaceAll {p : NamePool} {xs : List String} {x : String} :
    x ∈ (p.replaceAll xs).keys ↔ x ∈ p.keys ∨ x ∈ xs ∧ x ∉ p.taken := by
  induction xs generalizing p with
  | nil => simp [replaceAll]
  | cons z xs ih =>
    show x ∈ ((p.replace z).2.replaceAll xs).keys ↔ _
    rw [ih, taken_replace, keys_replace]
    grind

theorem mem_keys_fresh {taken xs : List String} {x : String} :
    x ∈ ((fresh taken).replaceAll xs).keys ↔ x ∈ xs ∧ x ∉ taken := by
  rw [mem_keys_replaceAll]
  simp [fresh, keys]

/-- There are as many different names to replace as short names have been passed that are free. -/
theorem card_privateNames (taken xs : List String) :
    (privateNames taken xs).card = freeBefore taken ((fresh taken).replaceAll xs).next := by
  have hturn : ((fresh taken).replaceAll xs).InTurn := (inTurn_fresh taken).replaceAll xs
  have hset : privateNames taken xs = ((fresh taken).replaceAll xs).keys.toFinset := by
    ext x
    simp [privateNames, mem_keys_fresh]
  rw [hset, List.toFinset_card_of_nodup hturn.nodup, hturn.count, taken_replaceAll]
  rfl

/-- A short name is given out if it is not taken and there are more names to replace than free short
names before it. -/
theorem exists_newName_eq_iff (taken xs : List String) (n : Nat) :
    (∃ x ∈ xs, x ∉ taken ∧ ((fresh taken).replaceAll xs).newName x = shortName n)
      ↔ shortName n ∉ taken ∧ freeBefore taken n < (privateNames taken xs).card := by
  set p := (fresh taken).replaceAll xs with hp
  have htaken : p.taken = taken := taken_replaceAll _ _
  have hturn : p.InTurn := (inTurn_fresh taken).replaceAll xs
  have hsound : p.Sound := (sound_fresh taken).replaceAll xs
  have hnew : ∀ x y, x ∉ taken → p.replaced.lookup x = some y → p.newName x = y := by
    intro x y hx hy
    rw [newName, htaken, if_neg fun h => hx (List.contains_iff_mem.mp h), hy, Option.getD_some]
  rw [card_privateNames]
  constructor
  · rintro ⟨x, hxs, hx, hname⟩
    obtain ⟨y, hy⟩ := Option.isSome_iff_exists.mp (lookup_replaceAll_self (p := fresh taken) hxs hx)
    rw [hnew x y hx hy] at hname
    subst hname
    obtain ⟨m, hm, heq⟩ := hsound.numbered x _ hy
    have hfree : shortName n ∉ taken := htaken ▸ hsound.free x _ hy
    rw [← shortName_injective heq] at hm
    exact ⟨hfree, Nat.count_strict_mono hfree hm⟩
  · rintro ⟨hfree, hlt⟩
    obtain ⟨x, hx, hlookup⟩ := hturn.given n (Nat.lt_of_count_lt_count hlt) (htaken.symm ▸ hfree)
    obtain ⟨hxs, hx'⟩ := mem_keys_fresh.mp hx
    exact ⟨x, hxs, hx', hnew x _ hx' hlookup⟩

end NamePool

end Scalarize
