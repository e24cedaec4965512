import Scalarize.Proofs.DependencyGraph

/-!
# Scalarize — the search for live names

The live names are found by a loop over a queue. Here the loop is a relation between the states of
the search, in which any name of the queue may be the next one, so that a run of the relation stands
for every order in which names are wanted, listed or taken. The queue can grow and can hold a name
many times. What goes down is its length together with the dependencies of the names that are not
known yet: a name brings its dependencies once only.

* **`Turn`** — one turn of the loop.
* **`Search.Invariant`**, **`Search.Invariant.turn`** — what queue and known names have to do with
  the sets that are closed under the graph.
* **`run_reachable`** — the search of `alive` is a run of the loop.
* **`alive_isLeast`** — every run ends, with the least closed set.
-/

namespace Scalarize

namespace DependencyGraph

open Relation

/-- The wanted names are in the set, and with a name that has an entry all its dependencies are. -/
structure ClosedFrom (g : DependencyGraph) (keep : List String) (S : Set String) : Prop where
  wanted : ∀ x ∈ keep, x ∈ S
  closed : ∀ x ds, g.lookup x = some ds → x ∈ S → ∀ y ∈ ds, y ∈ S

/-- Two graphs have the same names, with the same sets of dependencies in any listing. -/
def SameEntries (g g' : DependencyGraph) : Prop :=
  ∀ x, (g.lookup x).map List.toFinset = (g'.lookup x).map List.toFinset

theorem mem_reads_iff {g : DependencyGraph} {x y : String} :
    y ∈ g.reads x ↔ ∃ ds, g.lookup x = some ds ∧ y ∈ ds := by
  unfold reads
  cases g.lookup x <;> simp

theorem ClosedFrom.reads {g : DependencyGraph} {keep : List String} {S : Set String}
    (h : g.ClosedFrom keep S) {x y : String} (hx : x ∈ S) (hy : y ∈ g.reads x) : y ∈ S := by
  obtain ⟨ds, hds, hmem⟩ := mem_reads_iff.mp hy
  exact h.closed x ds hds hx y hmem

/-- Only the sets of wanted names and of dependencies matter. -/
theorem ClosedFrom.congr {g g' : DependencyGraph} {keep keep' : List String} {S : Set String}
    (hkeep : ∀ x, x ∈ keep ↔ x ∈ keep') (hentries : g.SameEntries g')
    (h : g.ClosedFrom keep S) : g'.ClosedFrom keep' S := by
  refine ⟨fun x hx => h.wanted x ((hkeep x).mpr hx), fun x ds' hds' hx y hy => ?_⟩
  have hsame := hentries x
  rw [hds', Option.map_some, Option.map_eq_some_iff] at hsame
  obtain ⟨ds, hds, hfinset⟩ := hsame
  refine h.closed x ds hds hx y ?_
  rw [← List.mem_toFinset, hfinset, List.mem_toFinset]
  exact hy

/-! ## The loop -/

/-- How far the search has come: the names to look at, and those that are known to be live. -/
structure Search where
  queue : List String
  known : List String

/-- The search for what the wanted names depend on has not yet begun. -/
def Search.start (keep : List String) : Search :=
  ⟨keep, []⟩

/-- One turn of the loop takes a name from the queue. A known name is passed over; any other one
becomes known, and its dependencies join the queue. -/
inductive Turn (g : DependencyGraph) : Search → Search → Prop where
  | pass {queue rest known x} (htake : queue.Perm (x :: rest)) (hx : x ∈ known) :
      Turn g ⟨queue, known⟩ ⟨rest, known⟩
  | visit {queue rest known x} (htake : queue.Perm (x :: rest)) (hx : x ∉ known) :
      Turn g ⟨queue, known⟩ ⟨g.reads x ++ rest, known ++ [x]⟩

variable {g : DependencyGraph}

/-- The loop goes on as long as there is something in the queue. -/
theorem exists_turn {s : Search} (h : s.queue ≠ []) : ∃ s', g.Turn s s' := by
  obtain ⟨queue, known⟩ := s
  cases queue with
  | nil => exact absurd rfl h
  | cons x rest =>
    by_cases hx : x ∈ known
    · exact ⟨_, .pass (.refl _) hx⟩
    · exact ⟨_, .visit (.refl _) hx⟩

/-! ## The loop ends -/

/-- The number of dependencies of names that are not among the known ones. -/
def pending (g : DependencyGraph) (known : List String) : Nat :=
  weight (g.filter fun e => !known.contains e.1)

theorem lookup_filter_not_contains (g : DependencyGraph) {known : List String} {x : String}
    (hx : x ∉ known) : (g.filter fun e => !known.contains e.1).lookup x = g.lookup x := by
  induction g with
  | nil => rfl
  | cons e rest ih =>
    obtain ⟨n, ds⟩ := e
    by_cases hn : n ∈ known
    · have hne : (x == n) = false := beq_eq_false_iff_ne.mpr fun heq => hx (heq ▸ hn)
      rw [List.filter_cons_of_neg (by simp [hn]), ih, List.lookup_cons, hne]
    · rw [List.filter_cons_of_pos (by simp [hn]), List.lookup_cons, List.lookup_cons, ih]

/-- A name that becomes known takes its dependencies out of those that are pending. -/
theorem pending_append (g : DependencyGraph) {known : List String} {x : String} (hx : x ∉ known) :
    g.pending (known ++ [x]) + (g.reads x).length ≤ g.pending known := by
  have hwithout : without (g.filter fun e => !known.contains e.1) x
      = g.filter fun e => !(known ++ [x]).contains e.1 := by
    rw [without, List.filter_filter]
    refine List.filter_congr fun e _ => ?_
    rw [List.contains_append, Bool.not_or, Bool.and_comm, List.contains_cons, List.contains_nil,
      Bool.or_false, BEq.comm]
  have hreads : reads (g.filter fun e => !known.contains e.1) x = g.reads x := by
    rw [reads, reads, lookup_filter_not_contains g hx]
  have h := weight_without (g.filter fun e => !known.contains e.1) x
  rwa [hwithout, hreads] at h

/-- The number of turns that can still come. -/
def Search.measure (g : DependencyGraph) (s : Search) : Nat :=
  s.queue.length + g.pending s.known

theorem Turn.measure_lt {s s' : Search} (h : g.Turn s s') : s'.measure g < s.measure g := by
  cases h with
  | pass htake hx =>
    have hlen := htake.length_eq
    simp only [List.length_cons] at hlen
    simp only [Search.measure]
    omega
  | visit htake hx =>
    have hlen := htake.length_eq
    have hpending := pending_append g hx
    simp only [List.length_cons] at hlen
    simp only [Search.measure, List.length_append]
    omega

theorem measure_start (g : DependencyGraph) (keep : List String) :
    (Search.start keep).measure g = keep.length + g.weight := by
  have hall : (g.filter fun e => !([] : List String).contains e.1) = g := by simp
  rw [Search.measure, Search.start, pending, hall]

/-- A run takes no more turns than its start allows. -/
theorem le_measure_of_run {run : Nat → Search} {n : Nat}
    (h : ∀ i < n, g.Turn (run i) (run (i + 1))) : n ≤ (run 0).measure g := by
  have hgone : ∀ i ≤ n, (run i).measure g + i ≤ (run 0).measure g := by
    intro i
    induction i with
    | zero => exact fun _ => le_rfl
    | succ i ih =>
      intro hi
      have hbefore := ih (by omega)
      have hturn := (h i (by omega)).measure_lt
      omega
  have := hgone n le_rfl
  omega

/-! ## What the loop finds -/

/-- Every closed set has what is in the queue or known, the wanted names are there, and so are the
dependencies of each known name. -/
structure Search.Invariant (g : DependencyGraph) (keep : List String) (s : Search) : Prop where
  within : ∀ S, g.ClosedFrom keep S → ∀ x, x ∈ s.queue ∨ x ∈ s.known → x ∈ S
  wanted : ∀ x ∈ keep, x ∈ s.queue ∨ x ∈ s.known
  closed : ∀ x ∈ s.known, ∀ y ∈ g.reads x, y ∈ s.queue ∨ y ∈ s.known

namespace Search.Invariant

variable {keep : List String} {s s' : Search}

theorem start (g : DependencyGraph) (keep : List String) :
    (Search.start keep).Invariant g keep where
  within _ hS x hx := hS.wanted x (hx.resolve_right List.not_mem_nil)
  wanted _ hx := .inl hx
  closed _ hx := absurd hx List.not_mem_nil

theorem turn (h : s.Invariant g keep) (hturn : g.Turn s s') : s'.Invariant g keep := by
  cases hturn with
  | @pass queue rest known x htake hx =>
    -- the name that leaves the queue is known
    have hmove : ∀ y, y ∈ queue ∨ y ∈ known → y ∈ rest ∨ y ∈ known := by
      rintro y (hy | hy)
      · rcases List.mem_cons.mp (htake.mem_iff.mp hy) with rfl | hy
        · exact .inr hx
        · exact .inl hy
      · exact .inr hy
    refine ⟨fun S hS y hy => h.within S hS y ?_, fun y hy => hmove y (h.wanted y hy),
      fun y hy z hz => hmove z (h.closed y hy z hz)⟩
    exact hy.imp_left fun hy => htake.mem_iff.mpr (List.mem_cons_of_mem x hy)
  | @visit queue rest known x htake hx =>
    have hxqueue : x ∈ queue := htake.mem_iff.mpr List.mem_cons_self
    have hmove : ∀ y, y ∈ queue ∨ y ∈ known → y ∈ g.reads x ++ rest ∨ y ∈ known ++ [x] := by
      rintro y (hy | hy)
      · rcases List.mem_cons.mp (htake.mem_iff.mp hy) with rfl | hy
        · exact .inr (List.mem_append_right _ (List.mem_singleton_self y))
        · exact .inl (List.mem_append_right _ hy)
      · exact .inr (List.mem_append_left _ hy)
    refine ⟨fun S hS y hy => ?_, fun y hy => hmove y (h.wanted y hy), fun y hy z hz => ?_⟩
    · simp only [List.mem_append, List.mem_singleton] at hy
      rcases hy with (hy | hy) | (hy | rfl)
      · exact hS.reads (h.within S hS x (.inl hxqueue)) hy
      · exact h.within S hS y (.inl (htake.mem_iff.mpr (List.mem_cons_of_mem x hy)))
      · exact h.within S hS y (.inr hy)
      · exact h.within S hS y (.inl hxqueue)
    · rcases List.mem_append.mp hy with hy | hy
      · exact hmove z (h.closed y hy z hz)
      · -- the dependencies of the new name are the ones that have joined the queue
        rw [List.mem_singleton.mp hy] at hz
        exact .inl (List.mem_append_left _ hz)

theorem run (h : s.Invariant g keep) (hrun : ReflTransGen g.Turn s s') : s'.Invariant g keep := by
  induction hrun with
  | refl => exact h
  | tail _ hturn ih => exact ih.turn hturn

/-- With nothing left in the queue, the known names are the least closed set. -/
theorem isLeast (h : s.Invariant g keep) (hqueue : s.queue = []) :
    IsLeast {S | g.ClosedFrom keep S} {x | x ∈ s.known} := by
  have hempty : ∀ x, x ∈ s.queue ∨ x ∈ s.known → x ∈ s.known := by
    rintro x (hx | hx)
    · rw [hqueue] at hx
      exact absurd hx List.not_mem_nil
    · exact hx
  refine ⟨⟨fun x hx => hempty x (h.wanted x hx), fun x ds hds hx y hy => ?_⟩,
    fun S hS x hx => h.within S hS x (.inr hx)⟩
  exact hempty y (h.closed x hx y (mem_reads_iff.mpr ⟨ds, hds, hy⟩))

end Search.Invariant

/-! ## The search of `alive` -/

theorem Turn.known_subset {s s' : Search} (h : g.Turn s s') : s.known ⊆ s'.known := by
  cases h with
  | pass => exact List.Subset.refl _
  | visit => exact List.subset_append_left _ _

/-- The entry of a known name is not looked up any more. -/
theorem Turn.of_without {x : String} {s s' : Search} (h : (g.without x).Turn s s')
    (hx : x ∈ s.known) : g.Turn s s' := by
  cases h with
  | pass htake hy => exact .pass htake hy
  | @visit queue rest known y htake hy =>
    have hne : y ≠ x := fun heq => hy (heq ▸ hx)
    rw [reads_without g hne]
    exact .visit htake hy

theorem run_of_without {x : String} {s s' : Search} (h : ReflTransGen (g.without x).Turn s s')
    (hx : x ∈ s.known) : ReflTransGen g.Turn s s' := by
  induction h using ReflTransGen.head_induction_on with
  | refl => exact .refl
  | head hturn _ ih => exact .head (hturn.of_without hx) (ih (hturn.known_subset hx))

/-- The search that forgets the entries of the names it has visited is a run of the loop. -/
theorem run_reachable (g : DependencyGraph) (queue known : List String) :
    ReflTransGen g.Turn ⟨queue, known⟩ ⟨[], g.reachable queue known⟩ := by
  fun_induction reachable g queue known with
  | case1 g known => exact .refl
  | case2 g known x rest hx ih =>
    exact .head (.pass (.refl _) (List.contains_iff_mem.mp hx)) ih
  | case3 g known x rest hx ih =>
    have hx' : x ∉ known := fun hmem => hx (List.contains_iff_mem.mpr hmem)
    refine .head (.visit (.refl _) hx') (run_of_without ih ?_)
    exact List.mem_append_right _ (List.mem_singleton_self x)

theorem isLeast_alive (g : DependencyGraph) (keep : List String) :
    IsLeast {S | g.ClosedFrom keep S} {x | x ∈ g.alive keep} :=
  ((Search.Invariant.start g keep).run (run_reachable g keep [])).isLeast rfl

/-- A live name is wanted, or is reached from a wanted one by dependencies. -/
theorem mem_alive_iff {keep : List String} {x : String} :
    x ∈ g.alive keep ↔ ∃ k ∈ keep, ReflTransGen (fun y z => z ∈ g.reads y) k x := by
  obtain ⟨hclosed, hleast⟩ := isLeast_alive g keep
  constructor
  · intro hx
    have hreached : g.ClosedFrom keep
        {x | ∃ k ∈ keep, ReflTransGen (fun y z => z ∈ g.reads y) k x} := by
      refine ⟨fun k hk => ⟨k, hk, .refl⟩, fun y ds hds hy z hz => ?_⟩
      obtain ⟨k, hk, hpath⟩ := hy
      exact ⟨k, hk, hpath.tail (mem_reads_iff.mpr ⟨ds, hds, hz⟩)⟩
    exact hleast hreached hx
  · rintro ⟨k, hk, hpath⟩
    induction hpath with
    | refl => exact hclosed.wanted k hk
    | tail _ hz ih => exact hclosed.reads ih hz

/-- The search for live names ends with the least set that has the wanted names and, with a name,
its dependencies. However names are wanted, listed or taken from the queue, a run of the loop has at
most as many turns as there are wanted names and dependencies, and where it cannot go on it has
found the same names. -/
theorem alive_isLeast (g : DependencyGraph) (keep : List String) :
    ReflTransGen g.Turn (.start keep) ⟨[], g.alive keep⟩ ∧
    IsLeast {S | g.ClosedFrom keep S} {x | x ∈ g.alive keep} ∧
    ∀ g' keep', (∀ x, x ∈ keep ↔ x ∈ keep') → g.SameEntries g' →
      (∀ (run : Nat → Search) n, run 0 = .start keep' → (∀ i < n, g'.Turn (run i) (run (i + 1))) →
        n ≤ keep'.length + g'.weight) ∧
      ∀ s, ReflTransGen g'.Turn (.start keep') s → (∀ s', ¬ g'.Turn s s') →
        s.queue = [] ∧ ∀ x, x ∈ s.known ↔ x ∈ g.alive keep := by
  refine ⟨run_reachable g keep [], isLeast_alive g keep, fun g' keep' hkeep hentries => ⟨?_, ?_⟩⟩
  · intro run n hstart hrun
    have hle := le_measure_of_run hrun
    rwa [hstart, measure_start] at hle
  · intro s hrun hstop
    have hqueue : s.queue = [] := by
      by_contra hne
      obtain ⟨s', hturn⟩ := exists_turn hne
      exact hstop s' hturn
    have hleast := ((Search.Invariant.start g' keep').run hrun).isLeast hqueue
    -- the same sets are closed under both graphs
    have hsets : {S | g'.ClosedFrom keep' S} = {S | g.ClosedFrom keep S} := by
      ext S
      exact ⟨.congr (fun x => (hkeep x).symm) fun x => (hentries x).symm, .congr hkeep hentries⟩
    rw [hsets] at hleast
    exact ⟨hqueue, fun x => Set.ext_iff.mp (hleast.unique (isLeast_alive g keep)) x⟩

end DependencyGraph

end Scalarize
