import Scalarize.Proofs.SourcePieces

/-!
# Scalarize — what the rules read

For each family of rules, the pieces that a derivation reads and the trees it gives. Later modules
use these lemmas and do not look at the productions.

* **`Reads.of_words`**, **`Reads.of_run`**, **`Reads.of_commas`** — keywords, repetitions and lists
  with commas.
* **`Reads.exists_tree`** — all other rules give one tree.
* **`Reads.of_expr`** — an expression is a chain of operands, grouped in some way.
* **`StatementReads`**, **`Reads.of_program`** — statements, and the lines of a program.
-/

namespace Scalarize.Grammar

/-! ## Single trees -/

/-- A rule that may give several trees. -/
def Rule.isRepetition : Rule → Bool
  | .lines | .importItems | .params | .exprs | .unaryOps | .nexprs | .vexprs | .vexprRun | .mexprRun
  | .ntail | .vtail | .mtail => true
  | _ => false

/-- The rules among parts. -/
def rulesOf (parts : List Part) : List Rule :=
  parts.filterMap fun
    | .rule r => some r
    | .terminal _ => none

theorem single_productions : ∀ p ∈ productions, p.head.isRepetition = false → p.label = .splice →
    (rulesOf p.body).map Rule.isRepetition = [false] := by
  decide +kernel

/-- A rule that is no repetition gives one tree. -/
theorem Reads.exists_tree {r : Rule} {is : List Piece} {ts : List Tree} (h : Reads r is ts)
    (hr : r.isRepetition = false) : ∃ t, ts = [t] := by
  rw [← List.length_eq_one_iff]
  revert hr
  refine @Reads.rec (fun r _ ts _ => r.isRepetition = false → ts.length = 1)
    (fun parts _ ts _ => (∀ r ∈ rulesOf parts, r.isRepetition = false) →
      ts.length = (rulesOf parts).length)
    ?text ?parts ?external ?call ?round ?square ?nil ?word ?rule _ _ _ h
  case text => exact fun _ _ _ _ => rfl
  case parts =>
    intro r label body is ts hp _ _ ih hr
    cases label with
    | node k => rfl
    | splice =>
      have hrules : (rulesOf body).map Rule.isRepetition = [false] := single_productions _ hp hr rfl
      have hlen : (rulesOf body).length = 1 := by
        rw [← List.length_map Rule.isRepetition, hrules]
        rfl
      rw [← hlen]
      refine ih fun r' hr' => ?_
      have hmem := List.mem_map_of_mem (f := Rule.isRepetition) hr'
      rw [hrules] at hmem
      exact List.mem_singleton.mp hmem
  case external => exact fun _ _ _ => rfl
  case call => exact fun _ _ _ _ => rfl
  case round =>
    intro r label r' is ts hp _ ih hr
    cases label with
    | node k => rfl
    | splice =>
      have hrules := single_productions _ hp hr rfl
      exact ih (List.singleton_inj.mp hrules)
  case square =>
    intro r label r' is ts hp _ ih hr
    cases label with
    | node k => rfl
    | splice =>
      have hrules := single_productions _ hp hr rfl
      exact ih (List.singleton_inj.mp hrules)
  case nil => exact fun _ => rfl
  case word => exact fun _ ih => ih
  case rule =>
    intro r is ts parts is' ts' _ _ ih ihparts hrules
    have hrule : rulesOf (.rule r :: parts) = r :: rulesOf parts := rfl
    rw [hrule] at hrules ⊢
    rw [List.length_append, ih (hrules r List.mem_cons_self),
      ihparts fun r' hr' => hrules r' (List.mem_cons_of_mem _ hr'), List.length_cons, Nat.add_comm]

/-- Only the empty program has no pieces. -/
theorem Reads.ne_nil {r : Rule} {is : List Piece} {ts : List Tree} (h : Reads r is ts)
    (hr : r ≠ .program) : is ≠ [] := by
  have hbody : ∀ p ∈ productions, p.head ≠ .program →
      p.body ≠ [] ∧ .rule .program ∉ p.body := by decide +kernel
  revert hr
  refine @Reads.rec (fun r is _ _ => r ≠ .program → is ≠ [])
    (fun parts is _ _ => parts ≠ [] ∧ .rule .program ∉ parts → is ≠ [])
    ?text ?parts ?external ?call ?round ?square ?nil ?word ?rule _ _ _ h
  case text => exact fun _ _ _ _ => List.cons_ne_nil _ _
  case parts => exact fun hp _ _ ih hr => ih (hbody _ hp hr)
  case external => exact fun _ _ _ => List.cons_ne_nil _ _
  case call => exact fun _ _ _ _ => List.cons_ne_nil _ _
  case round => exact fun _ _ _ _ => List.cons_ne_nil _ _
  case square => exact fun _ _ _ _ => List.cons_ne_nil _ _
  case nil => exact fun hnil => absurd rfl hnil.1
  case word => exact fun _ _ _ => List.cons_ne_nil _ _
  case rule =>
    intro r is ts parts is' ts' _ _ ih _ hparts
    refine List.append_ne_nil_of_left_ne_nil (ih ?_) _
    rintro rfl
    exact hparts.2 List.mem_cons_self

/-! ## Families of rules -/

section

variable {head item : Rule} {is : List Piece} {ts : List Tree}

/-- A rule of keywords. -/
theorem Reads.of_words {words : List (String × String)}
    (hr : productionsOf head = wordNodes head words)
    (hloose : words.all (!holdingWords.contains ·.1) = true) (h : Reads head is ts) :
    ∃ w ∈ words, is = [.word w.1] ∧ ts = [.node w.2 []] := by
  obtain ⟨p, hp, hmakes⟩ := h.exists_makes
  rw [hr] at hp
  obtain ⟨w, hw, rfl⟩ := List.mem_map.mp hp
  have hbody : [word w.1].all Part.isLoose = true := by
    simpa [Part.isLoose, word] using List.all_eq_true.mp hloose w hw
  obtain ⟨us, hus, rfl⟩ := makes_loose hbody hmakes
  simp only [readsParts_word, readsParts_nil] at hus
  obtain ⟨_, rfl, rfl, rfl⟩ := hus
  exact ⟨w, hw, rfl, rfl⟩

theorem makes_splice (h : Makes ⟨head, .splice, [.rule item]⟩ is ts) : Reads item is ts := by
  obtain ⟨us, hus, rfl⟩ := makes_loose rfl h
  simp only [readsParts_rule, readsParts_nil] at hus
  obtain ⟨_, _, _, _, rfl, rfl, hitem, rfl, rfl⟩ := hus
  simpa [Label.trees] using hitem

/-- A rule that hands on another one. -/
theorem Reads.of_splice (hr : productionsOf head = [⟨head, .splice, [.rule item]⟩])
    (h : Reads head is ts) : Reads item is ts := by
  obtain ⟨p, hp, hmakes⟩ := h.exists_makes
  rw [hr, List.mem_singleton] at hp
  subst hp
  exact makes_splice hmakes

/-- One item after the other. -/
theorem Reads.of_run (hr : productionsOf head = run head item) (hitem : item.isRepetition = false)
    (hprogram : item ≠ .program) (h : Reads head is ts) :
    ∃ segs, segs ≠ [] ∧ is = segs.flatten ∧ List.Forall₂ (fun seg t => Reads item seg [t]) segs ts := by
  -- by the number of pieces, since the last item is split off
  induction hn : is.length using Nat.strong_induction_on generalizing is ts with
  | _ n ih =>
    obtain ⟨p, hp, hmakes⟩ := h.exists_makes
    simp only [hr, run, List.mem_cons, List.not_mem_nil, or_false] at hp
    rcases hp with rfl | rfl
    · obtain ⟨us, hus, rfl⟩ := makes_loose rfl hmakes
      simp only [readsParts_rule, readsParts_nil] at hus
      obtain ⟨seg, _, _, _, rfl, rfl, hseg, rfl, rfl⟩ := hus
      obtain ⟨t, rfl⟩ := hseg.exists_tree hitem
      exact ⟨[seg], List.cons_ne_nil _ _, by simp, .cons hseg .nil⟩
    · obtain ⟨us, hus, rfl⟩ := makes_loose rfl hmakes
      simp only [readsParts_rule, readsParts_nil] at hus
      obtain ⟨is₁, _, ts₁, _, rfl, rfl, hfirst, seg, _, _, _, rfl, rfl, hseg, rfl, rfl⟩ := hus
      obtain ⟨t, rfl⟩ := hseg.exists_tree hitem
      have hlen : is₁.length < n := by
        have := List.length_pos_of_ne_nil (hseg.ne_nil hprogram)
        simp only [List.length_append, List.length_nil] at hn
        omega
      obtain ⟨segs, hne, rfl, hsegs⟩ := ih _ hlen hfirst rfl
      refine ⟨segs ++ [seg], by simp, by simp, ?_⟩
      simpa [Label.trees] using List.rel_append hsegs (.cons hseg .nil)

/-- Lists of pieces with commas between them. -/
def joinCommas : List (List Piece) → List Piece
  | [] => []
  | [seg] => seg
  | seg :: segs => seg ++ .word "," :: joinCommas segs

theorem joinCommas_concat {segs : List (List Piece)} (hne : segs ≠ []) (seg : List Piece) :
    joinCommas (segs ++ [seg]) = joinCommas segs ++ .word "," :: seg := by
  obtain ⟨first, segs, rfl⟩ := List.exists_cons_of_ne_nil hne
  induction segs generalizing first with
  | nil => rfl
  | cons second segs ih =>
    show first ++ .word "," :: joinCommas (second :: segs ++ [seg]) =
      first ++ .word "," :: joinCommas (second :: segs) ++ .word "," :: seg
    rw [ih second (List.cons_ne_nil _ _), List.append_assoc, List.cons_append]

/-- Items with commas between them. -/
theorem Reads.of_commas (hr : productionsOf head = commaList head item)
    (hitem : item.isRepetition = false) (h : Reads head is ts) :
    ∃ segs, segs ≠ [] ∧ is = joinCommas segs ∧
      List.Forall₂ (fun seg t => Reads item seg [t]) segs ts := by
  induction hn : is.length using Nat.strong_induction_on generalizing is ts with
  | _ n ih =>
    obtain ⟨p, hp, hmakes⟩ := h.exists_makes
    simp only [hr, commaList, List.mem_cons, List.not_mem_nil, or_false] at hp
    rcases hp with rfl | rfl
    · obtain ⟨us, hus, rfl⟩ := makes_loose rfl hmakes
      simp only [readsParts_rule, readsParts_nil] at hus
      obtain ⟨seg, _, _, _, rfl, rfl, hseg, rfl, rfl⟩ := hus
      obtain ⟨t, rfl⟩ := hseg.exists_tree hitem
      exact ⟨[seg], List.cons_ne_nil _ _, by simp [joinCommas], .cons hseg .nil⟩
    · obtain ⟨us, hus, rfl⟩ := makes_loose rfl hmakes
      simp only [readsParts_rule, readsParts_word, readsParts_nil] at hus
      obtain ⟨is₁, _, ts₁, _, rfl, rfl, hfirst, _, rfl, seg, _, _, _, rfl, rfl, hseg, rfl, rfl⟩ := hus
      obtain ⟨t, rfl⟩ := hseg.exists_tree hitem
      have hlen : is₁.length < n := by
        simp only [List.length_append, List.length_cons] at hn
        omega
      obtain ⟨segs, hne, rfl, hsegs⟩ := ih _ hlen hfirst rfl
      refine ⟨segs ++ [seg], by simp, ?_, ?_⟩
      · rw [joinCommas_concat hne, List.append_nil]
      · simpa [Label.trees] using List.rel_append hsegs (.cons hseg .nil)

end

/-- Is the piece a comma? -/
def Piece.isComma : Piece → Bool
  | .word w => w == ","
  | _ => false

/-- The lists of pieces between the commas. -/
def segments : List Piece → List (List Piece)
  | [] => [[]]
  | i :: is => if i.isComma then [] :: segments is else (segments is).modifyHead (i :: ·)

theorem segments_append {seg : List Piece} (hseg : ∀ i ∈ seg, i.isComma = false) (is : List Piece) :
    segments (seg ++ is) = (segments is).modifyHead (seg ++ ·) := by
  induction seg with
  | nil =>
    show segments is = (segments is).modifyHead id
    rw [List.modifyHead_id, id]
  | cons i seg ih =>
    rw [List.forall_mem_cons] at hseg
    rw [List.cons_append, segments, hseg.1, ih hseg.2]
    exact List.modifyHead_modifyHead ..

/-- Trees of the same things, one by one. -/
theorem forall₂_of_same {α : Type} {R : α → Tree → Prop} {Q : Tree → Tree → Prop} {xs : List α}
    {ts ts' : List Tree} (hR : ∀ x ∈ xs, ∀ t t', R x t → R x t' → Q t t') (h : List.Forall₂ R xs ts)
    (h' : List.Forall₂ R xs ts') : List.Forall₂ Q ts ts' := by
  induction h generalizing ts' with
  | nil =>
    cases h' with
    | nil => exact .nil
  | cons hfirst _ ih =>
    cases h' with
    | cons hfirst' hrest' =>
      rw [List.forall_mem_cons] at hR
      exact .cons (hR.1 _ _ hfirst hfirst') (ih hR.2 hrest')

theorem segments_joinCommas {segs : List (List Piece)} (hne : segs ≠ [])
    (h : ∀ seg ∈ segs, ∀ i ∈ seg, i.isComma = false) : segments (joinCommas segs) = segs := by
  obtain ⟨first, segs, rfl⟩ := List.exists_cons_of_ne_nil hne
  induction segs generalizing first with
  | nil =>
    have happend := segments_append (h first List.mem_cons_self) []
    rw [List.append_nil] at happend
    rw [joinCommas, happend, segments, List.modifyHead_cons, List.append_nil]
  | cons second segs ih =>
    rw [List.forall_mem_cons] at h
    have hcomma : segments (.word "," :: joinCommas (second :: segs)) =
        [] :: segments (joinCommas (second :: segs)) := rfl
    show segments (first ++ .word "," :: joinCommas (second :: segs)) = _
    rw [segments_append h.1, hcomma, ih second (List.cons_ne_nil _ _) h.2, List.modifyHead_cons,
      List.append_nil]

theorem mem_joinCommas {segs : List (List Piece)} {seg : List Piece} (hseg : seg ∈ segs) {i : Piece}
    (hi : i ∈ seg) : i ∈ joinCommas segs := by
  induction segs with
  | nil => exact absurd hseg List.not_mem_nil
  | cons first segs ih =>
    cases segs with
    | nil => exact List.mem_singleton.mp hseg ▸ hi
    | cons second segs =>
      rw [joinCommas]
      · rcases List.mem_cons.mp hseg with rfl | hseg
        · exact List.mem_append_left _ hi
        · exact List.mem_append_right _ (List.mem_cons_of_mem _ (ih hseg))
      · exact List.cons_ne_nil _ _

/-- The lists of pieces between the commas are those of the items. -/
theorem segments_of_reads {item : Rule} {segs : List (List Piece)} {ts : List Tree}
    (hcommas : ∀ {seg t}, Reads item seg [t] → ∀ i ∈ seg, i.isComma = false) (hne : segs ≠ [])
    (h : List.Forall₂ (fun seg t => Reads item seg [t]) segs ts) :
    segments (joinCommas segs) = segs := by
  refine segments_joinCommas hne ?_
  clear hne
  induction h with
  | nil => exact fun seg hseg => absurd hseg List.not_mem_nil
  | cons hseg _ ih => exact List.forall_mem_cons.mpr ⟨hcommas hseg, ih⟩

/-- Two derivations of items with commas between them, item by item. -/
theorem forall₂_of_commas {head item : Rule} {is : List Piece} {ts ts' : List Tree}
    {Q : Tree → Tree → Prop} (hr : productionsOf head = commaList head item)
    (hitem : item.isRepetition = false)
    (hcommas : ∀ {seg t}, Reads item seg [t] → ∀ i ∈ seg, i.isComma = false)
    (hsegs : ∀ seg ∈ segments is, (∀ i ∈ seg, i ∈ is) →
      ∀ t t', Reads item seg [t] → Reads item seg [t'] → Q t t')
    (h : Reads head is ts) (h' : Reads head is ts') : List.Forall₂ Q ts ts' := by
  obtain ⟨segs, hne, rfl, hreads⟩ := h.of_commas hr hitem
  obtain ⟨segs', hne', hjoin, hreads'⟩ := h'.of_commas hr hitem
  have hsame : segs = segs' := by
    rw [← segments_of_reads hcommas hne hreads, hjoin, segments_of_reads hcommas hne' hreads']
  subst hsame
  rw [segments_of_reads hcommas hne hreads] at hsegs
  exact forall₂_of_same (fun seg hseg => hsegs seg hseg fun i hi => mem_joinCommas hseg hi)
    hreads hreads'

/-! ## Chains of operators -/

/-- The keywords of a rule, each with the kind of its node. -/
def ruleWords (r : Rule) : List (String × String) :=
  (productionsOf r).filterMap fun
    | ⟨_, .node k, [.terminal (.word w)]⟩ => some (w, k)
    | _ => none

/-- An operator and an operand, as pieces and as trees. -/
structure Link where
  word : String
  kind : String
  pieces : List Piece
  tree : Tree

namespace Link

/-- The pieces of links. -/
def piecesOf (links : List Link) : List Piece :=
  links.flatMap fun l => .word l.word :: l.pieces

theorem piecesOf_cons (l : Link) (links : List Link) :
    piecesOf (l :: links) = .word l.word :: (l.pieces ++ piecesOf links) :=
  rfl

/-- The trees of links. -/
def treesOf (links : List Link) : List Tree :=
  links.flatMap fun l => [.node l.kind [], l.tree]

/-- The operator is one of the rule and the operand has a derivation. -/
def IsRead (op operand : Rule) (l : Link) : Prop :=
  (l.word, l.kind) ∈ ruleWords op ∧ Reads operand l.pieces [l.tree]

end Link

section

variable {head tail op operand : Rule} {is : List Piece} {ts : List Tree}
  (hop : productionsOf op = wordNodes op (ruleWords op))
  (hwords : (ruleWords op).all (!holdingWords.contains ·.1) = true)
  (hoperand : operand.isRepetition = false)

include hop hwords hoperand

/-- Operators with an operand after each. -/
theorem Reads.of_chainTail (hr : productionsOf tail = chainTail tail op operand)
    (h : Reads tail is ts) :
    ∃ links : List Link, links ≠ [] ∧ is = Link.piecesOf links ∧ ts = Link.treesOf links ∧
      ∀ l ∈ links, l.IsRead op operand := by
  have hlink : ∀ {is₁ ts₁ is₂ ts₂}, Reads op is₁ ts₁ → Reads operand is₂ ts₂ →
      ∃ l : Link, is₁ ++ is₂ = Link.piecesOf [l] ∧ ts₁ ++ ts₂ = Link.treesOf [l] ∧
        l.IsRead op operand := by
    intro is₁ ts₁ is₂ ts₂ h₁ h₂
    obtain ⟨w, hw, rfl, rfl⟩ := h₁.of_words hop hwords
    obtain ⟨t, rfl⟩ := h₂.exists_tree hoperand
    exact ⟨⟨w.1, w.2, is₂, t⟩, by simp [Link.piecesOf], by simp [Link.treesOf], hw, h₂⟩
  induction hn : is.length using Nat.strong_induction_on generalizing is ts with
  | _ n ih =>
    obtain ⟨p, hp, hmakes⟩ := h.exists_makes
    simp only [hr, chainTail, List.mem_cons, List.not_mem_nil, or_false] at hp
    rcases hp with rfl | rfl
    · obtain ⟨us, hus, rfl⟩ := makes_loose rfl hmakes
      simp only [readsParts_rule, readsParts_nil] at hus
      obtain ⟨is₁, _, ts₁, _, rfl, rfl, h₁, is₂, _, ts₂, _, rfl, rfl, h₂, rfl, rfl⟩ := hus
      obtain ⟨l, his, hts, hl⟩ := hlink h₁ h₂
      refine ⟨[l], List.cons_ne_nil _ _, ?_, ?_, List.forall_mem_singleton.mpr hl⟩
      · rw [List.append_nil, his]
      · rw [List.append_nil, ← hts]
    · obtain ⟨us, hus, rfl⟩ := makes_loose rfl hmakes
      simp only [readsParts_rule, readsParts_nil] at hus
      obtain ⟨is₀, _, ts₀, _, rfl, rfl, h₀, is₁, _, ts₁, _, rfl, rfl, h₁, is₂, _, ts₂, _, rfl, rfl, h₂,
        rfl, rfl⟩ := hus
      obtain ⟨l, his, hts, hl⟩ := hlink h₁ h₂
      rw [List.append_nil, his] at hn ⊢
      have hlen : is₀.length < n := by
        rw [List.length_append, Link.piecesOf, List.flatMap_singleton, List.length_cons] at hn
        omega
      obtain ⟨links, -, rfl, rfl, hlinks⟩ := ih _ hlen h₀ rfl
      refine ⟨links ++ [l], by simp, ?_, ?_, ?_⟩
      · simp [Link.piecesOf]
      · rw [List.append_nil, hts]
        simp [Link.treesOf]
      · exact List.forall_mem_append.mpr ⟨hlinks, List.forall_mem_singleton.mpr hl⟩

end

/-- The rules for expressions, for their chains, for the rest of a chain, for operands and for
operators, of each sort. -/
def exprRule : ValueSort → Rule
  | .number => .nexpr
  | .vector => .vexpr
  | .matrix => .mexpr

def chainRule : ValueSort → Rule
  | .number => .nbin
  | .vector => .vbin
  | .matrix => .mbin

def tailRule : ValueSort → Rule
  | .number => .ntail
  | .vector => .vtail
  | .matrix => .mtail

def baseRule : ValueSort → Rule
  | .number => .nbase
  | .vector => .vbase
  | .matrix => .mbase

def signRule : ValueSort → Rule
  | .number => .binaryOp
  | .vector => .vecOp
  | .matrix => .matOp

theorem exprRule_injective {s s' : ValueSort} (h : exprRule s = exprRule s') : s = s' := by
  cases s <;> cases s' <;> simp [exprRule] at h ⊢

theorem sort_productions (s : ValueSort) :
    productionsOf (exprRule s) = [⟨exprRule s, .splice, [.rule (chainRule s)]⟩] ∧
    productionsOf (chainRule s) = chain (chainRule s) (tailRule s) (baseRule s) s.chainKind ∧
    productionsOf (tailRule s) = chainTail (tailRule s) (signRule s) (baseRule s) ∧
    productionsOf (signRule s) = wordNodes (signRule s) (ruleWords (signRule s)) ∧
    (ruleWords (signRule s)).all (!holdingWords.contains ·.1) = true ∧
    (baseRule s).isRepetition = false ∧ baseRule s ≠ .program := by
  cases s <;> exact ⟨rfl, rfl, rfl, rfl, rfl, rfl, by decide⟩

/-- A grouping of a chain: without links the first operand alone, otherwise a tree that has the chain
as a flat form. -/
structure Grouped (s : ValueSort) (first : Tree) (links : List Link) (t : Tree) : Prop where
  alone : links = [] → t = first
  flattens : links ≠ [] → ∀ {u us}, Flattens first u →
    List.Forall₂ Flattens (Link.treesOf links) us → Flattens t (.node s.chainKind (u :: us))

theorem Link.length_treesOf (links : List Link) : (treesOf links).length % 2 = 0 := by
  induction links with
  | nil => rfl
  | cons l links ih =>
    rw [treesOf, List.flatMap_cons, List.length_append, ← treesOf]
    simpa using ih

/-- A chain that starts with a chain. -/
theorem Grouped.append {s : ValueSort} {first t : Tree} {links links' : List Link}
    (h : Grouped s first links t) (hne : links' ≠ []) :
    Grouped s first (links ++ links') (.node s.chainKind (t :: Link.treesOf links')) := by
  refine ⟨fun hnil => absurd (List.append_eq_nil_iff.mp hnil).2 hne, fun _ u us hfirst hrest => ?_⟩
  rw [Link.treesOf, List.flatMap_append] at hrest
  obtain ⟨us₁, us₂, h₁, h₂, rfl⟩ := exists_append_of_forall₂ hrest
  by_cases hlinks : links = []
  · subst hlinks
    cases h₁
    rw [h.alone rfl]
    exact .of_forall₂ s.chainKind_ne.2 (.cons hfirst h₂)
  · have heven : us₁.length % 2 = 0 := h₁.length_eq ▸ Link.length_treesOf links
    exact .chain heven (h.flattens hlinks hfirst h₁) h₂.length_eq
      fun hp => (List.forall₂_iff_zip.mp h₂).2 hp

/-- An expression is a chain of operands, grouped in some way. -/
theorem Reads.of_expr {s : ValueSort} {is : List Piece} {ts : List Tree}
    (h : Reads (exprRule s) is ts) :
    ∃ first t₀ links t, ts = [t] ∧ is = first ++ Link.piecesOf links ∧
      Reads (baseRule s) first [t₀] ∧ (∀ l ∈ links, l.IsRead (signRule s) (baseRule s)) ∧
      Grouped s t₀ links t := by
  obtain ⟨hexpr, hchain, htail, hsign, hwords, hbase, hprogram⟩ := sort_productions s
  replace h := h.of_splice hexpr
  -- by the number of pieces, since a chain may start with a chain
  induction hn : is.length using Nat.strong_induction_on generalizing is ts with
  | _ n ih =>
    obtain ⟨p, hp, hmakes⟩ := h.exists_makes
    simp only [hchain, chain, List.mem_cons, List.not_mem_nil, or_false] at hp
    rcases hp with rfl | rfl
    · obtain ⟨us, hus, rfl⟩ := makes_loose rfl hmakes
      simp only [readsParts_rule, readsParts_nil] at hus
      obtain ⟨first, _, _, _, rfl, rfl, hfirst, rfl, rfl⟩ := hus
      obtain ⟨t₀, rfl⟩ := hfirst.exists_tree hbase
      exact ⟨first, t₀, [], t₀, rfl, rfl, hfirst, by simp, fun _ => rfl, fun hne => absurd rfl hne⟩
    · obtain ⟨us, hus, rfl⟩ := makes_loose rfl hmakes
      simp only [readsParts_rule, readsParts_nil] at hus
      obtain ⟨is₁, _, ts₁, _, rfl, rfl, hhead, is₂, _, ts₂, _, rfl, rfl, hrest, rfl, rfl⟩ := hus
      obtain ⟨links, hne, rfl, rfl, hlinks⟩ := hrest.of_chainTail hsign hwords hbase htail
      have hlen : is₁.length < n := by
        obtain ⟨l, links, rfl⟩ := List.exists_cons_of_ne_nil hne
        simp only [Link.piecesOf, List.flatMap_cons, List.cons_append, List.length_append,
          List.length_cons] at hn
        omega
      obtain ⟨first, t₀, links₁, t₁, rfl, rfl, hfirst, hlinks₁, hgrouped⟩ := ih _ hlen hhead rfl
      refine ⟨first, t₀, links₁ ++ links, _, by rw [List.append_nil]; rfl, ?_, hfirst, ?_,
        hgrouped.append hne⟩
      · simp [Link.piecesOf]
      · exact List.forall_mem_append.mpr ⟨hlinks₁, hlinks⟩

/-! ## Statements -/

/-- The kinds of the statements that give a variable a value, and of those that define a macro. -/
def letKind : ValueSort → String
  | .number => "let_num"
  | .vector => "let_vec"
  | .matrix => "let_mat"

def defineKind : ValueSort → String
  | .number => "def_num"
  | .vector => "def_vec"
  | .matrix => "def_mat"

/-- The pieces of a statement and its tree. -/
inductive StatementReads : List Piece → Tree → Prop where
  | imports {is ts} (h : Reads .importItems is ts) :
      StatementReads (.word "import" :: is) (.node "import_group" ts)
  | exports {v} (hv : isVariableText v = true) :
      StatementReads [.word "export", .word v] (.node "export" [.text "variable" v])
  | exportsAs {v x} (hv : isVariableText v = true) :
      StatementReads [.word "export", .word v, .word "as", .word x]
        (.node "export" [.text "variable" v, .text "external" x])
  | lets {s v is e} (hv : isVariableText v = true) (h : Reads (exprRule s) is [e]) :
      StatementReads (.word "let" :: .word s.word :: .word v :: .word "=" :: is)
        (.node (letKind s) [.text "variable" v, e])
  | defines {s m ps params is e} (hparams : Reads .params ps params)
      (h : Reads (exprRule s) is [e]) :
      StatementReads (.word "define" :: .word m :: .round ps :: .word "->" :: .word s.word ::
          .word "=" :: is)
        (.node (defineKind s) [.text "macro" m, .node "param_group" params, e])
  | uses {l} : StatementReads [.word "using", .word l] (.node "using" [.text "library" l])
  | comment {c} (hc : "//".toList.isPrefixOf c.toList = true) :
      StatementReads [.word c] (.text "comment" c)

theorem exprRule_isRepetition (s : ValueSort) : (exprRule s).isRepetition = false := by
  cases s <;> rfl

theorem exprRule_ne_program (s : ValueSort) : exprRule s ≠ .program := by
  cases s <;> decide

section

variable {is : List Piece} {ts : List Tree}

theorem Reads.of_variableRef (h : Reads .variableRef is ts) :
    ∃ v, isVariableText v = true ∧ is = [.word v] ∧ ts = [.text "variable" v] :=
  h.of_textRule (t := .variableName) rfl rfl

theorem Reads.of_external (h : Reads .external is ts) :
    ∃ x, isNameText x = true ∧ is = [.word x] ∧ ts = [.text "external" x] :=
  h.of_textRule (t := .externalName) rfl rfl

theorem Reads.of_importGroup (h : Reads .importGroup is ts) :
    ∃ t, ts = [t] ∧ StatementReads is t := by
  obtain ⟨p, hp, hmakes⟩ := h.exists_makes
  have hr : productionsOf .importGroup =
      [⟨.importGroup, .node "import_group", [word "import", .rule .importItems]⟩] := rfl
  rw [hr, List.mem_singleton] at hp
  subst hp
  obtain ⟨us, hus, rfl⟩ := makes_loose rfl hmakes
  simp only [readsParts_rule, readsParts_word, readsParts_nil] at hus
  obtain ⟨_, rfl, is', _, ts', _, rfl, rfl, hitems, rfl, rfl⟩ := hus
  rw [List.append_nil, List.append_nil]
  exact ⟨_, rfl, .imports hitems⟩

theorem Reads.of_exportItem (h : Reads .exportItem is ts) :
    ∃ t, ts = [t] ∧ StatementReads is t := by
  obtain ⟨p, hp, hmakes⟩ := h.exists_makes
  have hr : productionsOf .exportItem =
      [⟨.exportItem, .node "export", [word "export", .rule .variableRef]⟩,
        ⟨.exportItem, .node "export",
          [word "export", .rule .variableRef, word "as", .rule .external]⟩] := rfl
  simp only [hr, List.mem_cons, List.not_mem_nil, or_false] at hp
  rcases hp with rfl | rfl <;> obtain ⟨us, hus, rfl⟩ := makes_loose rfl hmakes <;>
    simp only [readsParts_rule, readsParts_word, readsParts_nil] at hus
  · obtain ⟨_, rfl, _, _, _, _, rfl, rfl, hv, rfl, rfl⟩ := hus
    obtain ⟨v, htext, rfl, rfl⟩ := hv.of_variableRef
    exact ⟨_, rfl, .exports htext⟩
  · obtain ⟨_, rfl, _, _, _, _, rfl, rfl, hv, _, rfl, _, _, _, _, rfl, rfl, hx, rfl, rfl⟩ := hus
    obtain ⟨v, htext, rfl, rfl⟩ := hv.of_variableRef
    obtain ⟨x, -, rfl, rfl⟩ := hx.of_external
    exact ⟨_, rfl, .exportsAs htext⟩

theorem Reads.of_letItem (h : Reads .letItem is ts) : ∃ t, ts = [t] ∧ StatementReads is t := by
  obtain ⟨p, hp, hmakes⟩ := h.exists_makes
  have hr : productionsOf .letItem = [ValueSort.number, .vector, .matrix].map fun s =>
      ⟨.letItem, .node (letKind s),
        [word "let", word s.word, .rule .variableRef, word "=", .rule (exprRule s)]⟩ := rfl
  rw [hr] at hp
  obtain ⟨s, -, rfl⟩ := List.mem_map.mp hp
  have hloose : [word "let", word s.word, .rule .variableRef, word "=",
      .rule (exprRule s)].all Part.isLoose = true := by cases s <;> rfl
  obtain ⟨us, hus, rfl⟩ := makes_loose hloose hmakes
  simp only [readsParts_rule, readsParts_word, readsParts_nil] at hus
  obtain ⟨_, rfl, _, rfl, _, _, _, _, rfl, rfl, hv, _, rfl, _, _, _, _, rfl, rfl, he, rfl, rfl⟩ := hus
  obtain ⟨v, htext, rfl, rfl⟩ := hv.of_variableRef
  obtain ⟨e, rfl⟩ := he.exists_tree (exprRule_isRepetition s)
  simp only [List.append_nil]
  exact ⟨_, rfl, .lets htext he⟩

theorem Reads.of_defineItem (h : Reads .defineItem is ts) :
    ∃ t, ts = [t] ∧ StatementReads is t := by
  obtain ⟨p, hp, hmakes⟩ := h.exists_makes
  have hr : productionsOf .defineItem = [ValueSort.number, .vector, .matrix].map fun s =>
      ⟨.defineItem, .node (defineKind s), [word "define", .rule .macroRef, .rule .paramGroup,
        word "->", word s.word, word "=", .rule (exprRule s)]⟩ := rfl
  rw [hr] at hp
  obtain ⟨s, -, rfl⟩ := List.mem_map.mp hp
  have hloose : [word "define", .rule .macroRef, .rule .paramGroup, word "->", word s.word,
      word "=", .rule (exprRule s)].all Part.isLoose = true := by cases s <;> rfl
  obtain ⟨us, hus, rfl⟩ := makes_loose hloose hmakes
  simp only [readsParts_rule, readsParts_word, readsParts_nil] at hus
  obtain ⟨_, rfl, _, _, _, _, rfl, rfl, hm, _, _, _, _, rfl, rfl, hps, _, rfl, _, rfl, _, rfl,
    _, _, _, _, rfl, rfl, he, rfl, rfl⟩ := hus
  obtain ⟨m, -, rfl, rfl⟩ := hm.of_textRule rfl rfl
  obtain ⟨e, rfl⟩ := he.exists_tree (exprRule_isRepetition s)
  obtain ⟨q, hq, hparams⟩ := hps.exists_makes
  have hgroup : productionsOf .paramGroup =
      [⟨.paramGroup, .node "param_group", [word "(", .rule .params, word ")"]⟩] := rfl
  rw [hgroup, List.mem_singleton] at hq
  subst hq
  obtain ⟨inner, params, rfl, hinner, rfl⟩ := makes_round hparams
  simp only [List.append_nil]
  exact ⟨_, rfl, .defines hinner he⟩

theorem Reads.of_usingItem (h : Reads .usingItem is ts) : ∃ t, ts = [t] ∧ StatementReads is t := by
  obtain ⟨p, hp, hmakes⟩ := h.exists_makes
  have hr : productionsOf .usingItem =
      [⟨.usingItem, .node "using", [word "using", .rule .library]⟩] := rfl
  rw [hr, List.mem_singleton] at hp
  subst hp
  obtain ⟨us, hus, rfl⟩ := makes_loose rfl hmakes
  simp only [readsParts_rule, readsParts_word, readsParts_nil] at hus
  obtain ⟨_, rfl, _, _, _, _, rfl, rfl, hl, rfl, rfl⟩ := hus
  obtain ⟨l, -, rfl, rfl⟩ := hl.of_textRule rfl rfl
  exact ⟨_, rfl, .uses⟩

/-- A line is a statement. -/
theorem Reads.of_line (h : Reads .line is ts) :
    ∃ t, ts = [.node "line" [t]] ∧ StatementReads is t := by
  obtain ⟨p, hp, hmakes⟩ := h.exists_makes
  have hr : productionsOf .line = [Rule.importGroup, .exportItem, .letItem, .defineItem, .usingItem,
      .comment].map fun r => ⟨.line, .node "line", [.rule r]⟩ := rfl
  rw [hr] at hp
  obtain ⟨r, hmem, rfl⟩ := List.mem_map.mp hp
  obtain ⟨us, hus, rfl⟩ := makes_loose rfl hmakes
  simp only [readsParts_rule, readsParts_nil] at hus
  obtain ⟨is, _, ts, _, rfl, rfl, hstatement, rfl, rfl⟩ := hus
  rw [List.append_nil, List.append_nil]
  suffices hone : ∃ t, ts = [t] ∧ StatementReads is t by
    obtain ⟨t, rfl, ht⟩ := hone
    exact ⟨t, rfl, ht⟩
  simp only [List.mem_cons, List.not_mem_nil, or_false] at hmem
  rcases hmem with rfl | rfl | rfl | rfl | rfl | rfl
  · exact hstatement.of_importGroup
  · exact hstatement.of_exportItem
  · exact hstatement.of_letItem
  · exact hstatement.of_defineItem
  · exact hstatement.of_usingItem
  · obtain ⟨c, hc, rfl, rfl⟩ := hstatement.of_textRule rfl rfl
    exact ⟨_, rfl, .comment hc⟩

/-- A program is a run of statements. -/
theorem Reads.of_program (h : Reads .program is ts) :
    ∃ segs statements, is = segs.flatten ∧
      ts = [.node "program" (statements.map fun t => .node "line" [t])] ∧
      List.Forall₂ StatementReads segs statements := by
  obtain ⟨p, hp, hmakes⟩ := h.exists_makes
  have hr : productionsOf .program = [⟨.program, .node "program", []⟩,
      ⟨.program, .node "program", [.rule .lines]⟩] := rfl
  simp only [hr, List.mem_cons, List.not_mem_nil, or_false] at hp
  rcases hp with rfl | rfl <;> obtain ⟨us, hus, rfl⟩ := makes_loose rfl hmakes
  · rw [readsParts_nil] at hus
    obtain ⟨rfl, rfl⟩ := hus
    exact ⟨[], [], rfl, rfl, .nil⟩
  · simp only [readsParts_rule, readsParts_nil] at hus
    obtain ⟨_, _, ts, _, rfl, rfl, hlines, rfl, rfl⟩ := hus
    obtain ⟨segs, -, rfl, hsegs⟩ := hlines.of_run rfl rfl (by decide)
    rw [List.append_nil, List.append_nil]
    suffices hone : ∃ statements, ts = List.map (fun t => Tree.node "line" [t]) statements ∧
        List.Forall₂ StatementReads segs statements by
      obtain ⟨statements, rfl, hstatements⟩ := hone
      exact ⟨segs, statements, rfl, rfl, hstatements⟩
    clear hlines h hmakes
    induction hsegs with
    | nil => exact ⟨[], rfl, .nil⟩
    | cons hseg _ ih =>
      obtain ⟨t, ht, hreads⟩ := hseg.of_line
      obtain ⟨statements, hts, hall⟩ := ih
      exact ⟨t :: statements, by rw [List.singleton_inj.mp ht, hts]; rfl, .cons hreads hall⟩

end

end Scalarize.Grammar
