import Scalarize.Proofs.GrammarDerivation

/-!
# Scalarize — the chart holds derivations

Every entry of the chart says that the text between two places has a derivation of the parts read so
far, and every finished rule that it has one of the rule. Each operation on the chart keeps this, so
it holds of the finished chart.

* **`Chart.Sound`** — what the chart says is so.
* **`Chart.Sound.draw`** — the consequences of an entry are so.
* **`isSource_of_parse`** — the parser returns only trees of derivations.
-/

namespace Scalarize.Grammar

/-! ## Places -/

theorem getElem?_restsOf (cs : List Char) (i : Nat) :
    (restsOf cs)[i]?.getD [] = cs.drop i := by
  induction cs generalizing i with
  | nil => cases i <;> rfl
  | cons c cs ih =>
    cases i with
    | zero => rfl
    | succ i => exact ih i

@[simp]
theorem rest_of (cs : List Char) (i : Nat) : (Subject.of cs).rest i = cs.drop i := by
  rw [Subject.rest, Subject.of, List.getElem?_toArray]
  exact getElem?_restsOf cs i

theorem drop_length_takeWhile (p : Char → Bool) (cs : List Char) :
    cs.drop (cs.takeWhile p).length = cs.dropWhile p := by
  calc cs.drop (cs.takeWhile p).length
      = (cs.takeWhile p ++ cs.dropWhile p).drop (cs.takeWhile p).length := by
        rw [List.takeWhile_append_dropWhile]
    _ = cs.dropWhile p := List.drop_left

/-- The rest of the text after a gap. -/
theorem rest_skipGap (cs : List Char) (i : Nat) :
    (Subject.of cs).rest ((Subject.of cs).skipGap i) = skipGap (cs.drop i) := by
  rw [Subject.skipGap, rest_of, rest_of, ← List.drop_drop, drop_length_takeWhile]
  rfl

/-! ## Sound charts -/

variable {cs : List Char}

/-- The parts that the entry has read are derived. -/
def Entry.Sound (cs : List Char) (e : Entry) : Prop :=
  ∃ p, numbered[e.item.production]? = some p ∧ e.item.dot ≤ p.body.length ∧
    ParsesParts (p.body.take e.item.dot) (cs.drop e.item.start) (cs.drop e.item.stop) e.forest

/-- The entry waits for a rule at a place. -/
def Entry.Awaits (e : Entry) (r : Rule) (place : Nat) : Prop :=
  e.item.stop = place ∧ ∃ p, numbered[e.item.production]? = some p ∧
    p.body[e.item.dot]? = some (.rule r)

/-- All that the chart says is so. -/
structure Chart.Sound (cs : List Char) (c : Chart) : Prop where
  agenda : ∀ e ∈ c.agenda, e.Sound cs
  waiting : ∀ r place, ∀ e ∈ c.waiting.getD (r, place) [], e.Sound cs ∧ e.Awaits r place
  finished : ∀ r place, ∀ x ∈ c.finished.getD (r, place) [],
    Parses r (cs.drop place) (cs.drop x.1) x.2

/-- One more part after those that are read. -/
theorem Entry.Sound.advance {e : Entry} {p : Production} {part : Part} {stop : Nat}
    {trees : List ParseTree} (he : e.Sound cs) (hp : numbered[e.item.production]? = some p)
    (hpart : p.body[e.item.dot]? = some part)
    (h : ParsesParts [part] (cs.drop e.item.stop) (cs.drop stop) trees) :
    (e.advance stop trees).Sound cs := by
  obtain ⟨p', hp', _, hread⟩ := he
  obtain rfl : p' = p := Option.some.inj (hp'.symm.trans hp)
  obtain ⟨hlt, hget⟩ := List.getElem?_eq_some_iff.mp hpart
  refine ⟨p', hp, hlt, ?_⟩
  show ParsesParts (p'.body.take (e.item.dot + 1)) _ _ _
  rw [List.take_add_one, hpart]
  exact hread.append h

/-- A rule that an entry waits for. -/
theorem Entry.Awaits.advance {e : Entry} {r : Rule} {place stop : Nat} {trees : List ParseTree}
    (hw : e.Awaits r place) (he : e.Sound cs)
    (h : Parses r (cs.drop place) (cs.drop stop) trees) : (e.advance stop trees).Sound cs := by
  obtain ⟨rfl, p, hp, hpart⟩ := hw
  have hparts := ParsesParts.rule h .nil
  rw [List.append_nil] at hparts
  exact he.advance hp hpart hparts

namespace Chart.Sound

variable {c : Chart} {e : Entry}

theorem empty : Chart.empty.Sound cs := by
  refine ⟨fun e he => ?_, fun r place e he => ?_, fun r place x hx => ?_⟩
  · cases he
  · simp [Chart.empty] at he
  · simp [Chart.empty] at hx

theorem enter (h : c.Sound cs) (he : e.Sound cs) : (c.enter e).Sound cs := by
  unfold Chart.enter
  split
  · exact h
  · refine ⟨fun e' he' => ?_, h.waiting, h.finished⟩
    rcases List.mem_cons.mp he' with rfl | he'
    · exact he
    · exact h.agenda e' he'

theorem foldl_enter {β : Type} {f : β → Entry} {bs : List β} (h : c.Sound cs)
    (hf : ∀ b ∈ bs, (f b).Sound cs) : (bs.foldl (fun c b => c.enter (f b)) c).Sound cs := by
  induction bs generalizing c with
  | nil => exact h
  | cons b bs ih =>
    exact ih (h.enter (hf b List.mem_cons_self)) fun b hb => hf b (List.mem_cons_of_mem _ hb)

theorem predict (h : c.Sound cs) (r : Rule) (place : Nat) : (c.predict r place).Sound cs := by
  refine h.foldl_enter fun i hi => ?_
  obtain ⟨-, hi⟩ := List.mem_filter.mp hi
  split at hi
  · next p hp => exact ⟨p, hp, Nat.zero_le _, .nil⟩
  · cases hi

theorem await {r : Rule} (h : c.Sound cs) (he : e.Sound cs) (hw : e.Awaits r e.item.stop) :
    (c.await e r).Sound cs := by
  have hwaiting : Chart.Sound cs { c with
      waiting := c.waiting.insert (r, e.item.stop) (e :: c.waiting.getD (r, e.item.stop) []) } := by
    refine ⟨h.agenda, fun r' place e' he' => ?_, h.finished⟩
    rw [Std.HashMap.getD_insert] at he'
    split at he'
    · next heq =>
      obtain ⟨rfl, rfl⟩ := Prod.mk.inj (beq_iff_eq.mp heq)
      rcases List.mem_cons.mp he' with rfl | he'
      · exact ⟨he, hw⟩
      · exact h.waiting _ _ e' he'
    · exact h.waiting r' place e' he'
  have hends : ∀ x ∈ c.finished.getD (r, e.item.stop) [], (e.advance x.1 x.2).Sound cs :=
    fun x hx => hw.advance he (h.finished r _ x hx)
  unfold Chart.await
  refine foldl_enter ?_ hends
  split
  · exact hwaiting.predict r _
  · exact hwaiting

theorem finish {p : Production} (h : c.Sound cs) (he : e.Sound cs)
    (hp : numbered[e.item.production]? = some p) (hend : p.body[e.item.dot]? = none) :
    (c.finish e p).Sound cs := by
  obtain ⟨p', hp', hle, hread⟩ := id he
  obtain rfl : p' = p := Option.some.inj (hp'.symm.trans hp)
  have hmem : p' ∈ productions := List.mem_of_getElem? (by simpa [numbered] using hp)
  have hall : p'.body.take e.item.dot = p'.body :=
    List.take_of_length_le (List.getElem?_eq_none_iff.mp hend)
  rw [hall] at hread
  have hparses := Parses.production hmem hread
  unfold Chart.finish
  dsimp only
  split
  · exact h
  refine foldl_enter ⟨h.agenda, h.waiting, fun r place x hx => ?_⟩ fun w hw => ?_
  · rw [Std.HashMap.getD_insert] at hx
    split at hx
    · next heq =>
      obtain ⟨rfl, rfl⟩ := Prod.mk.inj (beq_iff_eq.mp heq)
      rcases List.mem_cons.mp hx with rfl | hx
      · exact hparses
      · exact h.finished _ _ x hx
    · exact h.finished r place x hx
  · obtain ⟨hw, hawaits⟩ := h.waiting _ _ w hw
    exact hawaits.advance hw hparses

/-- The consequences of an entry are so. -/
theorem draw (h : c.Sound cs) (he : e.Sound cs) : (c.draw (Subject.of cs) e).Sound cs := by
  unfold Chart.draw
  split
  · exact h
  next p hp =>
  split
  · next hend => exact h.finish he hp hend
  · next r hpart => exact h.await he ⟨rfl, p, hp, hpart⟩
  · next t hpart =>
    split
    · next stop trees hscan =>
      obtain ⟨⟨text, mid⟩, htake, heq⟩ := Option.map_eq_some_iff.mp hscan
      cases heq
      rw [rest_of] at htake
      refine h.enter (he.advance hp hpart ?_)
      have hmid : cs.drop (e.item.stop + text.length) = mid := by
        rw [← List.drop_drop, take?_append htake, List.drop_left]
      have hrest := rest_skipGap cs (e.item.stop + text.length)
      rw [rest_of, hmid] at hrest
      rw [hrest]
      have hparts := ParsesParts.terminal htake .nil
      rwa [List.append_nil] at hparts
    · exact h

theorem close (h : c.Sound cs) (n : Nat) : (c.close (Subject.of cs) n).Sound cs := by
  induction n generalizing c with
  | zero => exact h
  | succ n ih =>
    rw [Chart.close]
    split
    · exact h
    · next e rest hagenda =>
      have hin : ∀ e' ∈ e :: rest, e'.Sound cs := by
        rw [← hagenda]
        exact h.agenda
      have hrest : Chart.Sound cs { c with agenda := rest } :=
        ⟨fun e' he' => hin e' (List.mem_cons_of_mem _ he'), h.waiting, h.finished⟩
      exact ih (hrest.draw (hin e List.mem_cons_self))

end Chart.Sound

theorem sound_chart (cs : List Char) : (Subject.of cs).chart.Sound cs :=
  (Chart.Sound.empty.predict _ _).close _

/-- The parser returns only trees of derivations. -/
theorem isSource_of_parse {source : String} {p : ParseTree} (h : parse source = .ok p) :
    IsSource source.toList p := by
  unfold parse at h
  dsimp only at h
  split at h
  · next place p' hfind =>
    cases h
    have hstop := List.find?_some hfind
    have hparses := (sound_chart source.toList).finished _ _ _ (List.mem_of_find?_eq_some hfind)
    have horigin := rest_skipGap source.toList 0
    rw [rest_of, List.drop_zero] at horigin
    rw [beq_iff_eq.mp hstop] at hparses
    rw [show (Subject.of source.toList).length = source.toList.length from rfl,
      List.drop_length, Subject.origin, horigin] at hparses
    exact hparses
  · cases h

end Scalarize.Grammar
