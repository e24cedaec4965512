import Scalarize.Proofs.NameOrder

/-!
# Scalarize — the sequence of short names

A pool is asked for names one after the other. It answers with the free short names in their order:
the shorter ones first, and those of one length alphabetically. The numbers of short names follow
this order, so the free name with the next number is the next one in order; that the bounded search
for it never stops too early is known from `shortName_nextFree_not_mem`.

* **`shortlex_shortName`** — a larger number comes later in the order.
* **`freeName`**, **`freeName_listsInOrder`** — the free names, listed.
* **`NamePool.replace_of_new`** — a new name gets the free name whose place is the number of names
  that came before.
* **`NamePool.answers_in_order`** — all answers of a pool.
-/

namespace Scalarize

/-! ## Length first, then the alphabet -/

/-- A shorter text comes before a longer one, and texts of one length come in alphabetical order. -/
def ComesBefore (s t : String) : Prop :=
  List.Shortlex (· < ·) s.toList t.toList

/-- Words in order stay in order when each gets one letter more. -/
theorem shortlex_append_singleton {cs ds : List Char} (h : List.Shortlex (· < ·) cs ds)
    (c d : Char) : List.Shortlex (· < ·) (cs ++ [c]) (ds ++ [d]) := by
  rcases List.shortlex_def.mp h with hlen | ⟨hlen, hlex⟩
  · refine .of_length_lt ?_
    simp only [List.length_append, List.length_singleton]
    omega
  · refine .of_lex (by simp [hlen]) ?_
    -- words of one length differ at a place that both have
    induction hlex with
    | nil => simp at hlen
    | rel hr => exact .rel hr
    | cons hrest ih =>
      have hlen' := Nat.succ.inj hlen
      exact .cons (ih (.of_lex hlen' hrest) hlen')

theorem letter_lt {i j : Nat} (hij : i < j) (hj : j < 26) :
    Char.ofNat ('a'.toNat + i) < Char.ofNat ('a'.toNat + j) := by
  have hletters : ∀ j : Fin 26, ∀ i : Fin j,
      Char.ofNat ('a'.toNat + i) < Char.ofNat ('a'.toNat + j) := by decide
  exact hletters ⟨j, hj⟩ ⟨i, hij⟩

theorem shortlex_lettersOf {m n : Nat} (h : m < n) :
    List.Shortlex (· < ·) (lettersOf 'a' m) (lettersOf 'a' n) := by
  induction n using Nat.strong_induction_on generalizing m with
  | _ n ih =>
    rcases Nat.lt_or_ge n 26 with hn | hn
    · rw [lettersOf_of_lt 'a' hn, lettersOf_of_lt 'a' (by omega), List.shortlex_singleton_iff]
      exact letter_lt h hn
    rcases Nat.lt_or_ge m 26 with hm | hm
    · -- one letter against two or more
      have hpos := List.length_pos_of_ne_nil (lettersOf_ne_nil 'a' (n / 26 - 1))
      refine .of_length_lt ?_
      rw [lettersOf_of_lt 'a' hm, lettersOf_of_le 'a' hn, List.length_append]
      simp only [List.length_singleton]
      omega
    rw [lettersOf_of_le 'a' hm, lettersOf_of_le 'a' hn]
    by_cases hdiv : m / 26 = n / 26
    · -- the names differ in the last letter only
      rw [hdiv]
      refine .append_left ?_ _
      rw [List.shortlex_singleton_iff]
      exact letter_lt (by omega) (by omega)
    · exact shortlex_append_singleton (ih (n / 26 - 1) (by omega) (by omega)) _ _

theorem shortlex_shortName {m n : Nat} (h : m < n) : ComesBefore (shortName m) (shortName n) := by
  rw [ComesBefore, shortName, shortName, String.toList_ofList, String.toList_ofList]
  exact shortlex_lettersOf h

/-! ## The free names -/

/-- The sequence goes through the texts with a property, from the first one on, and leaves out
none. -/
structure ListsInOrder (f : Nat → String) (p : String → Prop) : Prop where
  ordered : ∀ i j, i < j → ComesBefore (f i) (f j)
  listed : ∀ s, p s ↔ ∃ i, f i = s

/-- The free short name with a given place among the free ones. -/
noncomputable def freeName (taken : List String) (k : Nat) : String :=
  shortName (Nat.nth (fun i => shortName i ∉ taken) k)

/-- Finitely many names are taken. -/
theorem infinite_free (taken : List String) :
    (Set.ofPred fun i => shortName i ∉ taken).Infinite := by
  have htaken : (Set.preimage shortName {s | s ∈ taken}).Finite :=
    taken.finite_toSet.preimage shortName_injective.injOn
  exact htaken.infinite_compl

theorem freeName_listsInOrder (taken : List String) :
    ListsInOrder (freeName taken) fun s => IsLowercaseName s ∧ s ∉ taken := by
  refine ⟨fun i j hij => shortlex_shortName (Nat.nth_strictMono (infinite_free taken) hij),
    fun s => ⟨?_, ?_⟩⟩
  · -- a lowercase text is a short name, and its place is the number of free ones before it
    rintro ⟨hlower, hfree⟩
    have hname := shortName_nameNumber hlower
    have hfree' : shortName (nameNumber s) ∉ taken := by rwa [hname]
    refine ⟨freeBefore taken (nameNumber s), ?_⟩
    rw [freeName, freeBefore, Nat.nth_count hfree', hname]
  · rintro ⟨i, rfl⟩
    exact ⟨isLowercaseName_shortName _, Nat.nth_mem_of_infinite (infinite_free taken) i⟩

namespace NamePool

/-! ## A name that comes for the first time -/

/-- A new name gets the free name whose place is the number of different names replaced before. -/
theorem replace_of_new {taken before : List String} {x : String} (hx : x ∉ taken)
    (hnew : x ∉ before) :
    (((fresh taken).replaceAll before).replace x).1
        = freeName taken (privateNames taken before).card ∧
      (((fresh taken).replaceAll before).replace x).2.replaced.lookup x
        = some (freeName taken (privateNames taken before).card) := by
  set p := (fresh taken).replaceAll before with hp
  have htaken : p.taken = taken := taken_replaceAll _ _
  have hnone : p.replaced.lookup x = none :=
    lookup_eq_none_iff.mpr fun hkey => hnew (mem_keys_fresh.mp hkey).1
  obtain ⟨n, hnext, hfree, hbetween, heq⟩ := replace_new (htaken ▸ hx) hnone
  rw [htaken] at hfree hbetween
  -- the search passes over taken names only, so none of the free ones is left out
  have hplace := freeBefore_eq hnext hbetween
  have hname : freeName taken (privateNames taken before).card = shortName n := by
    rw [card_privateNames, ← hp, ← hplace, freeName, freeBefore, Nat.nth_count hfree]
  rw [hname, heq]
  exact ⟨rfl, List.lookup_cons_self⟩

/-! ## Names presented one after the other -/

/-- The answers of a pool to names that are presented one after the other. -/
def answers (p : NamePool) : List String → List String
  | [] => []
  | x :: xs => (p.replace x).1 :: (p.replace x).2.answers xs

theorem takeWhile_of_first {x : String} {before after : List String} (h : x ∉ before) :
    (before ++ x :: after).takeWhile (· ≠ x) = before := by
  have hbefore : ∀ y ∈ before, decide (y ≠ x) = true := by
    intro y hy
    rw [decide_eq_true_iff]
    rintro rfl
    exact h hy
  rw [List.takeWhile_append_of_pos hbefore, List.takeWhile_cons_of_neg (by simp), List.append_nil]

/-- The answer to a name, the pool having been asked for others before: it depends on those only
that came before the name for the first time. -/
theorem replace_eq {taken before after : List String} {x : String} (hx : x ∉ taken) :
    (((fresh taken).replaceAll before).replace x).1 =
      freeName taken (privateNames taken ((before ++ x :: after).takeWhile (· ≠ x))).card := by
  by_cases hmem : x ∈ before
  · -- the answer was given when the name came for the first time, and it stays
    obtain ⟨first, rest, rfl, hfirst⟩ := List.eq_append_cons_of_mem hmem
    rw [List.append_assoc, List.cons_append, takeWhile_of_first hfirst]
    have hgiven := lookup_replaceAll (replace_of_new hx hfirst).2 rest
    have hsplit : (fresh taken).replaceAll (first ++ x :: rest)
        = (((fresh taken).replaceAll first).replace x).2.replaceAll rest := List.foldl_append ..
    rw [hsplit]
    refine giveName_of_lookup ?_ hgiven
    rwa [taken_replaceAll, taken_replace, taken_replaceAll]
  · rw [takeWhile_of_first hmem]
    exact (replace_of_new hx hmem).1

theorem answers_eq (taken before names : List String) :
    ((fresh taken).replaceAll before).answers names = names.map fun x =>
      if x ∈ taken then x
      else freeName taken
        (privateNames taken ((before ++ names).takeWhile (· ≠ x))).card := by
  induction names generalizing before with
  | nil => rfl
  | cons x xs ih =>
    have hstep : (((fresh taken).replaceAll before).replace x).2
        = (fresh taken).replaceAll (before ++ [x]) := by
      rw [replaceAll, replaceAll, List.foldl_append]
      rfl
    have hshift : before ++ x :: xs = before ++ [x] ++ xs := by simp
    rw [answers, hstep, ih, List.map_cons, ← hshift]
    refine congrArg (· :: _) ?_
    split
    · next hx => exact giveName_of_mem (by rwa [taken_replaceAll])
    · next hx => exact replace_eq hx

end NamePool

end Scalarize
