import Scalarize.Proofs.ChartSoundness
import Scalarize.Proofs.SourceShapes

/-!
# Scalarize — the chart finds every derivation

The agenda is worked off before the steps run out, and a chart with an empty agenda is closed: it
has drawn the consequences of all its items. Along a derivation the consequences lead from the start
of a rule to its end, so a closed chart knows of every text that has a derivation.

* **`Chart.Grows`** — what entering items changes.
* **`Chart.Drawn`** — every item waits on the agenda or has its consequences in the chart.
* **`Working.close`** — there are no more items than steps, so the agenda is empty in the end.
* **`Closed.finished_of_parses`** — a closed chart has the end of every derivation.
* **`readProgram_accepts_grammar`** — the texts that are read are those with a derivation.
-/

namespace Scalarize.Grammar

theorem drop_eq_cons {α : Type} {xs ys : List α} {n : Nat} {y : α} (h : xs.drop n = y :: ys) :
    xs[n]? = some y ∧ xs.drop (n + 1) = ys := by
  have hget : (xs.drop n)[0]? = some y := by rw [h]; rfl
  rw [List.getElem?_drop] at hget
  refine ⟨hget, ?_⟩
  rw [← List.drop_drop, h]
  rfl

namespace Chart

/-! ## Entering items -/

/-- From `c` to `c'` items have been entered, and nothing else has happened. -/
structure Grows (c c' : Chart) : Prop where
  waiting_eq : c'.waiting = c.waiting
  finished_eq : c'.finished = c.finished
  seen : ∀ i ∈ c.seen, i ∈ c'.seen
  agenda : ∀ e ∈ c.agenda, e ∈ c'.agenda
  entered : ∀ i ∈ c'.seen, i ∈ c.seen ∨ ∃ e ∈ c'.agenda, e.item = i
  balance : c'.seen.size + c.agenda.length = c.seen.size + c'.agenda.length

variable {c c' c'' : Chart}

theorem Grows.refl (c : Chart) : c.Grows c :=
  ⟨rfl, rfl, fun _ h => h, fun _ h => h, fun _ h => .inl h, rfl⟩

theorem Grows.trans (h : c.Grows c') (h' : c'.Grows c'') : c.Grows c'' where
  waiting_eq := h'.waiting_eq.trans h.waiting_eq
  finished_eq := h'.finished_eq.trans h.finished_eq
  seen i hi := h'.seen i (h.seen i hi)
  agenda e he := h'.agenda e (h.agenda e he)
  entered i hi := by
    rcases h'.entered i hi with hi | hi
    · rcases h.entered i hi with hi | ⟨e, he, heq⟩
      · exact .inl hi
      · exact .inr ⟨e, h'.agenda e he, heq⟩
    · exact .inr hi
  balance := by
    have h₁ := h.balance
    have h₂ := h'.balance
    omega

theorem grows_enter (c : Chart) (e : Entry) :
    c.Grows (c.enter e) ∧ e.item ∈ (c.enter e).seen := by
  unfold enter
  split
  · next hseen => exact ⟨.refl c, hseen⟩
  · next hnew =>
    have hnot : e.item ∉ c.seen := hnew
    refine ⟨⟨rfl, rfl, fun i hi => ?_, fun e' he' => List.mem_cons_of_mem _ he', fun i hi => ?_, ?_⟩,
      Std.HashSet.mem_insert_self⟩
    · exact Std.HashSet.mem_insert.mpr (.inr hi)
    · rcases Std.HashSet.mem_insert.mp hi with heq | hi
      · exact .inr ⟨e, List.mem_cons_self, beq_iff_eq.mp heq⟩
      · exact .inl hi
    · show (c.seen.insert e.item).size + c.agenda.length = c.seen.size + (e :: c.agenda).length
      rw [Std.HashSet.size_insert, if_neg hnot, List.length_cons]
      omega

theorem grows_foldl_enter {β : Type} (f : β → Entry) (bs : List β) (c : Chart) :
    c.Grows (bs.foldl (fun c b => c.enter (f b)) c) ∧
      ∀ b ∈ bs, (f b).item ∈ (bs.foldl (fun c b => c.enter (f b)) c).seen := by
  induction bs generalizing c with
  | nil => exact ⟨.refl c, fun b hb => by cases hb⟩
  | cons b bs ih =>
    obtain ⟨hgrows, hmem⟩ := ih (c.enter (f b))
    obtain ⟨hfirst, hb⟩ := grows_enter c (f b)
    refine ⟨hfirst.trans hgrows, fun b' hb' => ?_⟩
    rcases List.mem_cons.mp hb' with rfl | hb'
    · exact hgrows.seen _ hb
    · exact hmem b' hb'

/-- All productions of a rule have been begun at a place. -/
def Begun (c : Chart) (r : Rule) (place : Nat) : Prop :=
  ∀ n ∈ numbersOf r, ⟨n, 0, place, place⟩ ∈ c.seen

theorem grows_predict (c : Chart) (r : Rule) (place : Nat) :
    c.Grows (c.predict r place) ∧ (c.predict r place).Begun r place := by
  unfold Begun predict
  exact grows_foldl_enter (fun n => (⟨⟨n, 0, place, place⟩, []⟩ : Entry)) (numbersOf r) c

/-! ## Drawing consequences -/

/-- The consequences of an item are in the chart. -/
def Drawn (s : Subject) (c : Chart) (i : Item) : Prop :=
  ∀ p, numbered[i.production]? = some p →
    match p.body[i.dot]? with
    | none => ∃ trees, (i.stop, trees) ∈ c.finished.getD (p.head, i.start) []
    | some (.rule r) => ∃ w ∈ c.waiting.getD (r, i.stop) [], w.item = i
    | some (.terminal t) => ∀ stop trees, s.scan? t i.stop = some (stop, trees) →
        { i with dot := i.dot + 1, stop } ∈ c.seen

/-- A rule that is waited for has been begun, and its ends have advanced all that wait for it. -/
structure Linked (c : Chart) : Prop where
  begun : ∀ r place, c.waiting.getD (r, place) [] ≠ [] → c.Begun r place
  advanced : ∀ r place, ∀ w ∈ c.waiting.getD (r, place) [],
    ∀ x ∈ c.finished.getD (r, place) [], (w.advance x.1 x.2).item ∈ c.seen

/-- Every item but the exception waits on the agenda or has its consequences in the chart. -/
def DrawnBut (s : Subject) (c : Chart) (but : Item → Prop) : Prop :=
  ∀ i ∈ c.seen, (∃ e ∈ c.agenda, e.item = i) ∨ Drawn s c i ∨ but i

variable {s : Subject}

theorem Drawn.mono {i : Item} (h : Drawn s c i) (hseen : ∀ i ∈ c.seen, i ∈ c'.seen)
    (hwaiting : ∀ key, ∀ w ∈ c.waiting.getD key [], w ∈ c'.waiting.getD key [])
    (hfinished : ∀ key, ∀ x ∈ c.finished.getD key [], x ∈ c'.finished.getD key []) :
    Drawn s c' i := by
  intro p hp
  have hdrawn := h p hp
  split at hdrawn
  · next hend =>
    obtain ⟨trees, htrees⟩ := hdrawn
    exact ⟨trees, hfinished _ _ htrees⟩
  · next r hrule =>
    obtain ⟨w, hw, heq⟩ := hdrawn
    exact ⟨w, hwaiting _ w hw, heq⟩
  · next t hterminal => exact fun stop trees hscan => hseen _ (hdrawn stop trees hscan)

/-- After a change of the chart `c` to `c₁`, which entered nothing, and the entering of items, all
items are drawn that were drawn before and all that have been made up for. -/
theorem DrawnBut.after {but : Item → Prop} {c₁ : Chart} (h : DrawnBut s c but)
    (hgrows : c₁.Grows c') (hseen : c₁.seen = c.seen) (hagenda : c₁.agenda = c.agenda)
    (hwaiting : ∀ key, ∀ w ∈ c.waiting.getD key [], w ∈ c₁.waiting.getD key [])
    (hfinished : ∀ key, ∀ x ∈ c.finished.getD key [], x ∈ c₁.finished.getD key [])
    (hbut : ∀ i, but i → Drawn s c' i) : DrawnBut s c' fun _ => False := by
  intro i hi
  rcases hgrows.entered i hi with hi | hi
  · rw [hseen] at hi
    rcases h i hi with ⟨e, he, heq⟩ | hdrawn | hi
    · rw [← hagenda] at he
      exact .inl ⟨e, hgrows.agenda e he, heq⟩
    · refine .inr (.inl (hdrawn.mono (fun i hi => ?_) (fun key w hw => ?_) fun key x hx => ?_))
      · exact hgrows.seen i (hseen ▸ hi)
      · rw [hgrows.waiting_eq]
        exact hwaiting key w hw
      · rw [hgrows.finished_eq]
        exact hfinished key x hx
    · exact .inr (.inl (hbut i hi))
  · exact .inl hi

theorem Linked.of_grows (hc : c.Linked) (h : c.Grows c') : c'.Linked where
  begun r place hne n hn := by
    rw [h.waiting_eq] at hne
    exact h.seen _ (hc.begun r place hne n hn)
  advanced r place w hw x hx := by
    rw [h.waiting_eq] at hw
    rw [h.finished_eq] at hx
    exact h.seen _ (hc.advanced r place w hw x hx)

/-- The chart in which an entry waits for a rule. -/
def withWaiting (c : Chart) (e : Entry) (r : Rule) : Chart :=
  { c with
    waiting := c.waiting.insert (r, e.item.stop) (e :: c.waiting.getD (r, e.item.stop) []) }

theorem getD_withWaiting (c : Chart) (e : Entry) (r : Rule) (key : Rule × Nat) :
    (c.withWaiting e r).waiting.getD key []
      = if (r, e.item.stop) == key then e :: c.waiting.getD (r, e.item.stop) []
        else c.waiting.getD key [] :=
  Std.HashMap.getD_insert

theorem mem_withWaiting {e w : Entry} {r : Rule} {key : Rule × Nat}
    (h : w ∈ c.waiting.getD key []) : w ∈ (c.withWaiting e r).waiting.getD key [] := by
  rw [getD_withWaiting]
  split
  · next heq =>
    rw [beq_iff_eq.mp heq]
    exact List.mem_cons_of_mem _ h
  · exact h

/-- What an entry that waits for a rule brings: the rule is begun, and its ends advance the
entry. -/
theorem grows_await (c : Chart) (e : Entry) (r : Rule)
    (hbegun : c.waiting.getD (r, e.item.stop) [] ≠ [] → c.Begun r e.item.stop) :
    (c.withWaiting e r).Grows (c.await e r) ∧ (c.await e r).Begun r e.item.stop ∧
      ∀ x ∈ c.finished.getD (r, e.item.stop) [], (e.advance x.1 x.2).item ∈ (c.await e r).seen := by
  obtain ⟨c₂, hc₂, hgrows, hbegun⟩ : ∃ c₂, (if (c.waiting.getD (r, e.item.stop) []).isEmpty then
      (c.withWaiting e r).predict r e.item.stop else c.withWaiting e r) = c₂ ∧
      (c.withWaiting e r).Grows c₂ ∧ c₂.Begun r e.item.stop := by
    refine ⟨_, rfl, ?_⟩
    split
    · exact grows_predict ..
    · next hne =>
      refine ⟨.refl _, hbegun fun hnil => hne ?_⟩
      rw [hnil]
      rfl
  obtain ⟨hends, hadvanced⟩ := grows_foldl_enter
    (fun x : Nat × List ParseTree => e.advance x.1 x.2) (c.finished.getD (r, e.item.stop) []) c₂
  rw [← hc₂] at hends hadvanced
  refine ⟨?_, ?_, hadvanced⟩
  · exact (hc₂ ▸ hgrows).trans hends
  · exact fun n hn => hends.seen _ ((hc₂ ▸ hbegun) n hn)

/-- The consequences of an item that waits for a rule. -/
theorem drawn_await {e : Entry} {p : Production} {r : Rule} (hlinked : c.Linked)
    (hdrawn : DrawnBut s c (· = e.item)) (hp : numbered[e.item.production]? = some p)
    (hrule : p.body[e.item.dot]? = some (.rule r)) :
    (c.await e r).Linked ∧ DrawnBut s (c.await e r) fun _ => False := by
  obtain ⟨hgrows, hbegun, hadvanced⟩ := grows_await c e r (hlinked.begun r e.item.stop)
  have hwaiting : ∀ key, (c.await e r).waiting.getD key []
      = (c.withWaiting e r).waiting.getD key [] := by
    intro key
    rw [hgrows.waiting_eq]
  refine ⟨⟨fun r' place hne => ?_, fun r' place w hw x hx => ?_⟩,
    hdrawn.after hgrows rfl rfl (fun _ _ => mem_withWaiting) (fun _ _ h => h) ?_⟩
  · rw [hwaiting, getD_withWaiting] at hne
    split at hne
    · next heq =>
      obtain ⟨rfl, rfl⟩ := Prod.mk.inj (beq_iff_eq.mp heq)
      exact hbegun
    · exact fun n hn => hgrows.seen _ (hlinked.begun r' place hne n hn)
  · rw [hgrows.finished_eq] at hx
    rw [hwaiting, getD_withWaiting] at hw
    split at hw
    · next heq =>
      obtain ⟨rfl, rfl⟩ := Prod.mk.inj (beq_iff_eq.mp heq)
      rcases List.mem_cons.mp hw with rfl | hw
      · exact hadvanced x hx
      · exact hgrows.seen _ (hlinked.advanced r _ w hw x hx)
    · exact hgrows.seen _ (hlinked.advanced r' place w hw x hx)
  · rintro _ rfl p' hp'
    obtain rfl : p' = p := Option.some.inj (hp'.symm.trans hp)
    rw [hrule]
    refine ⟨e, ?_, rfl⟩
    rw [hwaiting, getD_withWaiting, if_pos (beq_self_eq_true _)]
    exact List.mem_cons_self

/-- The chart in which a rule has one more end. -/
def withEnd (c : Chart) (key : Rule × Nat) (x : Nat × List ParseTree) : Chart :=
  { c with finished := c.finished.insert key (x :: c.finished.getD key []) }

theorem getD_withEnd (c : Chart) (key key' : Rule × Nat) (x : Nat × List ParseTree) :
    (c.withEnd key x).finished.getD key' []
      = if key == key' then x :: c.finished.getD key [] else c.finished.getD key' [] :=
  Std.HashMap.getD_insert

theorem mem_withEnd {key key' : Rule × Nat} {x y : Nat × List ParseTree}
    (h : y ∈ c.finished.getD key' []) : y ∈ (c.withEnd key x).finished.getD key' [] := by
  rw [getD_withEnd]
  split
  · next heq =>
    rw [beq_iff_eq.mp heq]
    exact List.mem_cons_of_mem _ h
  · exact h

/-- What an entry that has read all its parts brings: a known end, or a new one that advances what
waits for the rule. -/
theorem grows_finish (c : Chart) (e : Entry) (p : Production) :
    (c.finish e p = c ∧
      ∃ trees, (e.item.stop, trees) ∈ c.finished.getD (p.head, e.item.start) []) ∨
    ∃ trees, (c.withEnd (p.head, e.item.start) (e.item.stop, trees)).Grows (c.finish e p) ∧
      ∀ w ∈ c.waiting.getD (p.head, e.item.start) [],
        (w.advance e.item.stop trees).item ∈ (c.finish e p).seen := by
  unfold finish
  dsimp only
  split
  · next hany =>
    obtain ⟨⟨stop, trees⟩, hx, heq⟩ := List.any_eq_true.mp hany
    obtain rfl : stop = e.item.stop := beq_iff_eq.mp heq
    exact .inl ⟨rfl, trees, hx⟩
  · exact .inr ⟨_, grows_foldl_enter (fun w : Entry => w.advance _ _) _ _⟩

/-- The consequences of an item that has read all its parts. -/
theorem drawn_finish {e : Entry} {p : Production} (hlinked : c.Linked)
    (hdrawn : DrawnBut s c (· = e.item)) (hp : numbered[e.item.production]? = some p)
    (hend : p.body[e.item.dot]? = none) :
    (c.finish e p).Linked ∧ DrawnBut s (c.finish e p) fun _ => False := by
  have hself : ∀ c' : Chart,
      (∃ trees, (e.item.stop, trees) ∈ c'.finished.getD (p.head, e.item.start) []) →
      Drawn s c' e.item := by
    intro c' hc' p' hp'
    obtain rfl : p' = p := Option.some.inj (hp'.symm.trans hp)
    rw [hend]
    exact hc'
  rcases grows_finish c e p with ⟨hsame, hknown⟩ | ⟨trees, hgrows, hadvanced⟩
  · rw [hsame]
    refine ⟨hlinked, hdrawn.after (.refl c) rfl rfl (fun _ _ h => h) (fun _ _ h => h) ?_⟩
    rintro _ rfl
    exact hself c hknown
  · refine ⟨⟨fun r place hne n hn => ?_, fun r place w hw x hx => ?_⟩,
      hdrawn.after hgrows rfl rfl (fun _ _ h => h) (fun _ _ => mem_withEnd) ?_⟩
    · rw [hgrows.waiting_eq] at hne
      exact hgrows.seen _ (hlinked.begun r place hne n hn)
    · rw [hgrows.waiting_eq] at hw
      rw [hgrows.finished_eq, getD_withEnd] at hx
      split at hx
      · next heq =>
        obtain ⟨rfl, rfl⟩ := Prod.mk.inj (beq_iff_eq.mp heq)
        rcases List.mem_cons.mp hx with rfl | hx
        · exact hadvanced w hw
        · exact hgrows.seen _ (hlinked.advanced _ _ w hw x hx)
      · exact hgrows.seen _ (hlinked.advanced r place w hw x hx)
    · rintro _ rfl
      refine hself _ ⟨trees, ?_⟩
      rw [hgrows.finished_eq, getD_withEnd, if_pos (beq_self_eq_true _)]
      exact List.mem_cons_self

/-- The consequences of an item are in the chart once they have been drawn. -/
theorem drawn_draw {e : Entry} (hlinked : c.Linked) (hdrawn : DrawnBut s c (· = e.item)) :
    (c.draw s e).Linked ∧ DrawnBut s (c.draw s e) fun _ => False := by
  have hsame : (Drawn s c e.item) → c.Linked ∧ DrawnBut s c fun _ => False := by
    intro hself
    refine ⟨hlinked, hdrawn.after (.refl c) rfl rfl (fun _ _ h => h) (fun _ _ h => h) ?_⟩
    rintro _ rfl
    exact hself
  unfold draw
  split
  · next hnone => exact hsame fun p hp => by rw [hnone] at hp; cases hp
  next p hp =>
  split
  · next hend => exact drawn_finish hlinked hdrawn hp hend
  · next r hrule => exact drawn_await hlinked hdrawn hp hrule
  · next t hterminal =>
    split
    · next stop trees hscan =>
      obtain ⟨hgrows, hmem⟩ := grows_enter c (e.advance stop trees)
      refine ⟨hlinked.of_grows hgrows,
        hdrawn.after hgrows rfl rfl (fun _ _ h => h) (fun _ _ h => h) ?_⟩
      rintro _ rfl p' hp'
      obtain rfl : p' = p := Option.some.inj (hp'.symm.trans hp)
      rw [hterminal]
      intro stop' trees' hscan'
      obtain ⟨rfl, rfl⟩ := Prod.mk.inj (Option.some.inj (hscan'.symm.trans hscan))
      exact hmem
    · next hscan =>
      refine hsame fun p' hp' => ?_
      obtain rfl : p' = p := Option.some.inj (hp'.symm.trans hp)
      rw [hterminal]
      intro stop trees hscan'
      rw [hscan] at hscan'
      cases hscan'

end Chart

/-! ## Places -/

variable {cs : List Char}

/-- A terminal that is matched: what it takes, and where the next one begins. -/
theorem scan?_of {t : Terminal} {place : Nat} {text mid : List Char}
    (h : t.take? (cs.drop place) = some (text, mid)) :
    ∃ stop trees, (Subject.of cs).scan? t place = some (stop, trees) ∧
      cs.drop stop = skipGap mid := by
  refine ⟨_, _, by rw [Subject.scan?, rest_of, h]; rfl, ?_⟩
  have hmid : cs.drop (place + text.length) = mid := by
    rw [← List.drop_drop, take?_append h, List.drop_left]
  rw [← rest_of, rest_skipGap, hmid]

theorem skipGap_le {place : Nat} (h : place ≤ cs.length) :
    (Subject.of cs).skipGap place ≤ cs.length := by
  have hgap : ((cs.drop place).takeWhile Text.isGap).length ≤ (cs.drop place).length :=
    (List.takeWhile_prefix _).length_le
  rw [Subject.skipGap, rest_of]
  rw [List.length_drop] at hgap
  omega

theorem scan?_le {t : Terminal} {place stop : Nat} {trees : List ParseTree}
    (h : (Subject.of cs).scan? t place = some (stop, trees)) (hplace : place ≤ cs.length) :
    stop ≤ cs.length := by
  obtain ⟨⟨text, mid⟩, htake, heq⟩ := Option.map_eq_some_iff.mp h
  cases heq
  rw [rest_of] at htake
  have htext : text.length ≤ (cs.drop place).length := by
    rw [take?_append htake, List.length_append]
    exact Nat.le_add_right ..
  rw [List.length_drop] at htext
  exact skipGap_le (by omega)

/-! ## The number of items -/

/-- The item is one of a text of the given length. -/
def Item.Fits (length : Nat) (i : Item) : Prop :=
  ∃ p, numbered[i.production]? = some p ∧ i.dot ≤ p.body.length ∧ i.start ≤ length ∧
    i.stop ≤ length

/-- The items of a production. -/
def itemsOf (length n : Nat) (p : Production) : List Item :=
  (List.range (p.body.length + 1)).flatMap fun dot =>
    (List.range (length + 1)).flatMap fun start =>
      (List.range (length + 1)).map fun stop => ⟨n, dot, start, stop⟩

/-- All items of a text of the given length. -/
def allItems (length : Nat) : List Item :=
  (numbered.toList.mapIdx (itemsOf length)).flatten

theorem Item.Fits.mem_allItems {length : Nat} {i : Item} (h : i.Fits length) :
    i ∈ allItems length := by
  obtain ⟨p, hp, hdot, hstart, hstop⟩ := h
  refine List.mem_flatten.mpr ⟨itemsOf length i.production p, ?_, ?_⟩
  · refine List.mem_iff_getElem?.mpr ⟨i.production, ?_⟩
    rw [List.getElem?_mapIdx, Array.getElem?_toList, hp]
    rfl
  · simp only [itemsOf, List.mem_flatMap, List.mem_map, List.mem_range]
    exact ⟨i.dot, by omega, i.start, by omega, i.stop, by omega, rfl⟩

theorem length_allItems (length : Nat) : (allItems length).length = itemBound length := by
  have hitems : ∀ n (p : Production), (itemsOf length n p).length
      = (p.body.length + 1) * (length + 1) * (length + 1) := by
    intro n p
    simp [itemsOf, List.length_flatMap, Nat.mul_assoc]
  have hall : ∀ (ps : List Production) (f : Nat → Production → List Item),
      (∀ n p, (f n p).length = (p.body.length + 1) * (length + 1) * (length + 1)) →
      (ps.mapIdx f).flatten.length
        = total (ps.map fun p => p.body.length + 1) * (length + 1) * (length + 1) := by
    intro ps
    induction ps with
    | nil => intro f _; simp
    | cons p ps ih =>
      intro f hf
      rw [List.mapIdx_cons, List.flatten_cons, List.length_append, hf, ih _ fun n p => hf _ p,
        List.map_cons, total_cons]
      ring
  exact hall _ _ hitems

/-- One more part leads to an item of the same text. -/
theorem Item.Fits.advance {length stop : Nat} {e : Entry} {p : Production} {part : Part}
    {trees : List ParseTree} (he : e.item.Fits length)
    (hp : numbered[e.item.production]? = some p) (hpart : p.body[e.item.dot]? = some part)
    (hstop : stop ≤ length) : (e.advance stop trees).item.Fits length := by
  obtain ⟨_, _, _, hstart, _⟩ := he
  obtain ⟨hlt, _⟩ := List.getElem?_eq_some_iff.mp hpart
  exact ⟨p, hp, hlt, hstart, hstop⟩

namespace Chart

/-- All items and ends in the chart are those of a text of the given length. -/
structure Fits (length : Nat) (c : Chart) : Prop where
  seen : ∀ i ∈ c.seen, i.Fits length
  agenda : ∀ e ∈ c.agenda, e.item.Fits length
  waiting : ∀ r place, ∀ w ∈ c.waiting.getD (r, place) [], w.item.Fits length ∧ w.Awaits r place
  finished : ∀ key, ∀ x ∈ c.finished.getD key [], x.1 ≤ length

namespace Fits

variable {c : Chart} {e : Entry} {length : Nat}

theorem size_le (h : c.Fits length) : c.seen.size ≤ itemBound length := by
  have hnodup : c.seen.toList.Nodup :=
    Std.HashSet.distinct_toList.imp fun hne heq => by simp [heq] at hne
  have hsubset : c.seen.toList ⊆ allItems length :=
    fun i hi => (h.seen i (Std.HashSet.mem_toList.mp hi)).mem_allItems
  calc c.seen.size = c.seen.toList.length := Std.HashSet.length_toList.symm
    _ ≤ (allItems length).length := (hnodup.subperm hsubset).length_le
    _ = itemBound length := length_allItems length

theorem empty : Chart.empty.Fits length := by
  refine ⟨fun i hi => ?_, fun e he => ?_, fun r place w hw => ?_, fun key x hx => ?_⟩
  · simp [Chart.empty] at hi
  · cases he
  · simp [Chart.empty] at hw
  · simp [Chart.empty] at hx

theorem enter (h : c.Fits length) (he : e.item.Fits length) : (c.enter e).Fits length := by
  unfold Chart.enter
  split
  · exact h
  · refine ⟨fun i hi => ?_, fun e' he' => ?_, h.waiting, h.finished⟩
    · rcases Std.HashSet.mem_insert.mp hi with heq | hi
      · rwa [← beq_iff_eq.mp heq]
      · exact h.seen i hi
    · rcases List.mem_cons.mp he' with rfl | he'
      · exact he
      · exact h.agenda e' he'

theorem foldl_enter {β : Type} {f : β → Entry} {bs : List β} (h : c.Fits length)
    (hf : ∀ b ∈ bs, (f b).item.Fits length) :
    (bs.foldl (fun c b => c.enter (f b)) c).Fits length := by
  induction bs generalizing c with
  | nil => exact h
  | cons b bs ih =>
    exact ih (h.enter (hf b List.mem_cons_self)) fun b hb => hf b (List.mem_cons_of_mem _ hb)

theorem predict (h : c.Fits length) (r : Rule) {place : Nat} (hplace : place ≤ length) :
    (c.predict r place).Fits length := by
  refine h.foldl_enter fun i hi => ?_
  obtain ⟨-, hi⟩ := List.mem_filter.mp hi
  split at hi
  · next p hp => exact ⟨p, hp, Nat.zero_le _, hplace, hplace⟩
  · cases hi

theorem await {r : Rule} (h : c.Fits length) (he : e.item.Fits length)
    (hw : e.Awaits r e.item.stop) : (c.await e r).Fits length := by
  have hwaiting : (c.withWaiting e r).Fits length := by
    refine ⟨h.seen, h.agenda, fun r' place w hmem => ?_, h.finished⟩
    rw [getD_withWaiting] at hmem
    split at hmem
    · next heq =>
      obtain ⟨rfl, rfl⟩ := Prod.mk.inj (beq_iff_eq.mp heq)
      rcases List.mem_cons.mp hmem with rfl | hmem
      · exact ⟨he, hw⟩
      · exact h.waiting _ _ w hmem
    · exact h.waiting r' place w hmem
  have hends : ∀ x ∈ c.finished.getD (r, e.item.stop) [],
      (e.advance x.1 x.2).item.Fits length := by
    obtain ⟨_, p, hp, hpart⟩ := hw
    exact fun x hx => he.advance hp hpart (h.finished _ x hx)
  obtain ⟨_, _, _, _, hstop⟩ := he
  unfold Chart.await
  refine foldl_enter ?_ hends
  split
  · exact hwaiting.predict r hstop
  · exact hwaiting

theorem finish {p : Production} (h : c.Fits length) (he : e.item.Fits length) :
    (c.finish e p).Fits length := by
  obtain ⟨_, _, _, _, hstop⟩ := he
  unfold Chart.finish
  dsimp only
  split
  · exact h
  refine foldl_enter ⟨h.seen, h.agenda, h.waiting, fun key x hx => ?_⟩ fun w hw => ?_
  · rw [Std.HashMap.getD_insert] at hx
    split at hx
    · rcases List.mem_cons.mp hx with rfl | hx
      · exact hstop
      · exact h.finished _ x hx
    · exact h.finished key x hx
  · obtain ⟨hfits, _, p', hp', hpart⟩ := h.waiting _ _ w hw
    exact hfits.advance hp' hpart hstop

theorem draw (h : c.Fits cs.length) (he : e.item.Fits cs.length) :
    (c.draw (Subject.of cs) e).Fits cs.length := by
  unfold Chart.draw
  split
  · exact h
  next p hp =>
  split
  · exact h.finish he
  · next r hpart => exact h.await he ⟨rfl, p, hp, hpart⟩
  · next t hpart =>
    split
    · next stop trees hscan =>
      obtain ⟨_, _, _, _, hstop⟩ := id he
      exact h.enter (he.advance hp hpart (scan?_le hscan hstop))
    · exact h

end Fits

/-! ## Closed charts -/

variable {c : Chart}

/-- Drawing the consequences of an entry changes what is waiting or finished, and enters items. -/
theorem exists_grows_draw (hlinked : c.Linked) (s : Subject) (e : Entry) :
    ∃ c₁ : Chart, c₁.seen = c.seen ∧ c₁.agenda = c.agenda ∧ c₁.Grows (c.draw s e) := by
  unfold draw
  split
  · exact ⟨c, rfl, rfl, .refl c⟩
  next p hp =>
  split
  · rcases grows_finish c e p with ⟨hsame, -⟩ | ⟨trees, hgrows, -⟩
    · rw [hsame]
      exact ⟨c, rfl, rfl, .refl c⟩
    · exact ⟨c.withEnd _ _, rfl, rfl, hgrows⟩
  · next r hrule =>
    exact ⟨c.withWaiting e r, rfl, rfl, (grows_await c e r (hlinked.begun r _)).1⟩
  · split
    · exact ⟨c, rfl, rfl, (grows_enter c _).1⟩
    · exact ⟨c, rfl, rfl, .refl c⟩

/-- What holds of the chart of a text while the agenda is worked off. -/
structure Working (cs : List Char) (c : Chart) : Prop where
  linked : c.Linked
  drawn : DrawnBut (Subject.of cs) c fun _ => False
  fits : c.Fits cs.length

/-- The consequences of the first entry of the agenda. The number of items grows by as much as the
agenda does, the entry that is taken from it apart. -/
theorem Working.draw {e : Entry} {rest : List Entry} (h : c.Working cs)
    (hagenda : c.agenda = e :: rest) :
    let c' := Chart.draw (Subject.of cs) { c with agenda := rest } e
    c'.Working cs ∧ (∀ i ∈ c.seen, i ∈ c'.seen) ∧
      c'.seen.size + c.agenda.length = c.seen.size + c'.agenda.length + 1 := by
  have hlinked : Linked { c with agenda := rest } := ⟨h.linked.begun, h.linked.advanced⟩
  have hfits : Fits cs.length { c with agenda := rest } := by
    refine ⟨h.fits.seen, fun e' he' => ?_, h.fits.waiting, h.fits.finished⟩
    exact h.fits.agenda e' (by rw [hagenda]; exact List.mem_cons_of_mem _ he')
  have hdrawn : DrawnBut (Subject.of cs) { c with agenda := rest } (· = e.item) := by
    intro i hi
    rcases h.drawn i hi with ⟨e', he', heq⟩ | hi | hi
    · rw [hagenda] at he'
      rcases List.mem_cons.mp he' with rfl | he'
      · exact .inr (.inr heq.symm)
      · exact .inl ⟨e', he', heq⟩
    · exact .inr (.inl hi)
    · exact hi.elim
  have he : e.item.Fits cs.length := h.fits.agenda e (by rw [hagenda]; exact List.mem_cons_self)
  obtain ⟨hlinked', hdrawn'⟩ := drawn_draw hlinked hdrawn
  obtain ⟨c₁, hseen, hagenda₁, hgrows⟩ := exists_grows_draw hlinked (Subject.of cs) e
  refine ⟨⟨hlinked', hdrawn', hfits.draw he⟩, fun i hi => hgrows.seen i ?_, ?_⟩
  · rw [hseen]
    exact hi
  · have hbalance := hgrows.balance
    rw [hseen, hagenda₁] at hbalance
    rw [hagenda, List.length_cons, ← Nat.add_assoc]
    exact congrArg (· + 1) hbalance

/-- Nothing is left to be drawn from the chart of a text. -/
structure Closed (cs : List Char) (c : Chart) : Prop where
  linked : c.Linked
  drawn : ∀ i ∈ c.seen, Drawn (Subject.of cs) c i
  fits : c.Fits cs.length

theorem Working.closed (h : c.Working cs) (hagenda : c.agenda = []) : c.Closed cs := by
  refine ⟨h.linked, fun i hi => ?_, h.fits⟩
  rcases h.drawn i hi with ⟨e, he, -⟩ | hi | hi
  · rw [hagenda] at he
    cases he
  · exact hi
  · exact hi.elim

/-- The agenda is worked off if there are as many steps as items that are not entered yet or still
wait on the agenda. -/
theorem Working.close (h : c.Working cs) {n : Nat}
    (hsteps : itemBound cs.length + c.agenda.length ≤ n + c.seen.size) :
    (c.close (Subject.of cs) n).Closed cs ∧
      ∀ i ∈ c.seen, i ∈ (c.close (Subject.of cs) n).seen := by
  induction n generalizing c with
  | zero =>
    have hsize := h.fits.size_le
    have hnil : c.agenda = [] := List.eq_nil_of_length_eq_zero (by omega)
    exact ⟨h.closed hnil, fun i hi => hi⟩
  | succ n ih =>
    rw [Chart.close]
    split
    · next hnil => exact ⟨h.closed hnil, fun i hi => hi⟩
    · next e rest hagenda =>
      obtain ⟨hworking, hseen, hbalance⟩ := h.draw hagenda
      obtain ⟨hclosed, hmono⟩ := ih hworking (by omega)
      exact ⟨hclosed, fun i hi => hmono i (hseen i hi)⟩

theorem working_predict (cs : List Char) (r : Rule) {place : Nat} (hplace : place ≤ cs.length) :
    (empty.predict r place).Working cs ∧ (empty.predict r place).Begun r place ∧
      (empty.predict r place).seen.size = (empty.predict r place).agenda.length := by
  obtain ⟨hgrows, hbegun⟩ := grows_predict empty r place
  have hlinked : empty.Linked := by
    refine ⟨fun r place hne => ?_, fun r place w hw => ?_⟩
    · simp [empty] at hne
    · simp [empty] at hw
  have hdrawn : DrawnBut (Subject.of cs) empty fun _ => False := by
    intro i hi
    simp [empty] at hi
  refine ⟨⟨hlinked.of_grows hgrows, ?_, Fits.empty.predict r hplace⟩, hbegun, ?_⟩
  · exact hdrawn.after hgrows rfl rfl (fun _ _ h => h) (fun _ _ h => h) fun _ h => h.elim
  · have hbalance := hgrows.balance
    simpa [empty] using hbalance

/-! ## Derivations in a closed chart -/

/-- A closed chart has the end of every derivation of a rule that was begun in it. -/
theorem Closed.finished_of_parses (hclosed : c.Closed cs) {r : Rule}
    {xs rest : List Char} {trees : List ParseTree} (h : Parses r xs rest trees) :
    ∀ place, cs.drop place = xs → c.Begun r place →
      ∃ stop trees', (stop, trees') ∈ c.finished.getD (r, place) [] ∧ cs.drop stop = rest := by
  -- the second motive follows an item through the parts that it still has to read
  refine @Parses.rec
    (fun r xs rest _ _ => ∀ place, cs.drop place = xs → c.Begun r place →
      ∃ stop trees', (stop, trees') ∈ c.finished.getD (r, place) [] ∧ cs.drop stop = rest)
    (fun parts xs rest _ _ => ∀ i ∈ c.seen, ∀ p, numbered[i.production]? = some p →
      p.body.drop i.dot = parts → cs.drop i.stop = xs →
      ∃ stop, { i with dot := i.dot + parts.length, stop } ∈ c.seen ∧ cs.drop stop = rest)
    ?production ?nil ?terminal ?rule _ _ _ _ h
  case production =>
    intro p xs rest forest hp _ ih place hplace hbegun
    obtain ⟨n, hn⟩ := List.mem_iff_getElem?.mp hp
    have hnumber : numbered[n]? = some p := by rw [numbered, List.getElem?_toArray]; exact hn
    have hmem : n ∈ numbersOf p.head := by
      refine List.mem_filter.mpr ⟨?_, ?_⟩
      · exact List.mem_range.mpr (Array.getElem?_eq_some_iff.mp hnumber).1
      · rw [hnumber]
        exact beq_self_eq_true _
    obtain ⟨stop, hseen, hstop⟩ := ih _ (hbegun n hmem) p hnumber rfl hplace
    have hdrawn := hclosed.drawn _ hseen p hnumber
    have hend : p.body[0 + p.body.length]? = none := by
      rw [Nat.zero_add]
      exact List.getElem?_eq_none_iff.mpr (Nat.le_refl _)
    rw [hend] at hdrawn
    obtain ⟨trees', htrees⟩ := hdrawn
    exact ⟨stop, trees', htrees, hstop⟩
  case nil =>
    intro xs i hi p hp _ hxs
    exact ⟨i.stop, hi, hxs⟩
  case terminal =>
    intro t xs text mid parts rest forest htake _ ih i hi p hp hbody hxs
    rw [← hxs] at htake
    obtain ⟨hnext, hrest⟩ := drop_eq_cons hbody
    have hdrawn := hclosed.drawn i hi p hp
    rw [hnext] at hdrawn
    obtain ⟨stop, trees, hscan, hstop⟩ := scan?_of htake
    obtain ⟨stop', hseen, hstop'⟩ := ih _ (hdrawn stop trees hscan) p hp hrest hstop
    refine ⟨stop', ?_, hstop'⟩
    rwa [List.length_cons, Nat.add_comm parts.length 1, ← Nat.add_assoc]
  case rule =>
    intro r xs trees mid parts rest forest _ _ ih ihparts i hi p hp hbody hxs
    obtain ⟨hnext, hrest⟩ := drop_eq_cons hbody
    have hdrawn := hclosed.drawn i hi p hp
    rw [hnext] at hdrawn
    obtain ⟨w, hw, rfl⟩ := hdrawn
    obtain ⟨stop, trees', hfinished, hstop⟩ :=
      ih w.item.stop hxs (hclosed.linked.begun r _ (List.ne_nil_of_mem hw))
    have hadvanced := hclosed.linked.advanced r _ w hw _ hfinished
    obtain ⟨stop', hseen, hstop'⟩ := ihparts _ hadvanced p hp hrest hstop
    refine ⟨stop', ?_, hstop'⟩
    rwa [List.length_cons, Nat.add_comm parts.length 1, ← Nat.add_assoc]

end Chart

/-- The chart of a text is closed, and programs were begun in it. -/
theorem closed_chart (cs : List Char) :
    (Subject.of cs).chart.Closed cs ∧
      (Subject.of cs).chart.Begun .program (Subject.of cs).origin := by
  have horigin : (Subject.of cs).origin ≤ cs.length := skipGap_le (Nat.zero_le _)
  obtain ⟨hworking, hbegun, hsize⟩ := Chart.working_predict cs .program horigin
  unfold Subject.chart Chart.Begun
  rw [show (Subject.of cs).length = cs.length from rfl]
  obtain ⟨hclosed, hmono⟩ := hworking.close (Nat.le_of_eq (congrArg _ hsize.symm))
  exact ⟨hclosed, fun n hn => hmono _ (hbegun n hn)⟩

theorem Parses.program_tree {cs rest : List Char} {trees : List ParseTree}
    (h : Parses .program cs rest trees) : ∃ t, trees = [t] := by
  have hall : productions.all fun p => p.head != .program || p.label == .node "program" := by
    decide +kernel
  generalize hr : Rule.program = r at h
  cases h with
  | @production p _ _ forest hp hparts =>
    have hlabel : p.label = .node "program" := by
      simpa [← hr] using List.all_eq_true.mp hall p hp
    rw [hlabel]
    exact ⟨_, rfl⟩

/-- Every text that has a derivation is parsed. -/
theorem exists_parse {source : String} {p : ParseTree} (h : IsSource source.toList p) :
    ∃ t, parse source = .ok t := by
  obtain ⟨hclosed, hbegun⟩ := closed_chart source.toList
  have horigin : source.toList.drop (Subject.of source.toList).origin = skipGap source.toList := by
    rw [← rest_of, Subject.origin, rest_skipGap, List.drop_zero]
  obtain ⟨stop, trees, hfinished, hstop⟩ := hclosed.finished_of_parses h _ horigin hbegun
  have hlength : stop = source.toList.length := by
    have hle := hclosed.fits.finished _ _ hfinished
    have hge := List.drop_eq_nil_iff.mp hstop
    omega
  unfold parse
  dsimp only
  split
  · exact ⟨_, rfl⟩
  · next hnone =>
    -- some end is found, and its trees are those of a program
    have hsome : (((Subject.of source.toList).chart.finished.getD
        (.program, (Subject.of source.toList).origin) []).find?
          (·.1 == (Subject.of source.toList).length)).isSome :=
      List.find?_isSome.mpr ⟨(stop, trees), hfinished, beq_iff_eq.mpr hlength⟩
    obtain ⟨⟨stop', trees'⟩, hfind⟩ := Option.isSome_iff_exists.mp hsome
    have hparses := (sound_chart source.toList).finished _ _ _ (List.mem_of_find?_eq_some hfind)
    obtain ⟨t, rfl⟩ := hparses.program_tree
    exact absurd hfind (hnone _ _)

end Scalarize.Grammar
