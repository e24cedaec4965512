import Scalarize.Proofs.PrintedTokens

/-!
# Scalarize — how a printed expression is grouped

Brackets are printed only around an operator that binds less tightly than the one around it. So the
text of `a - (b - c)` has none, and a reader that works from left to right takes it for
`(a - b) - c`.

* **`grouped`** — the expression in which operators of one precedence are grouped to the left.
* **`read`** — a reader for rows of tokens. It keeps the operators that wait for an operand on a
  stack and applies one as soon as an operator comes that does not bind more tightly.
* **`read_tokens`** — what is read from the tokens of an expression is its grouped form.
* **`tokens_eq_iff`** — so the tokens of two expressions are equal if and only if the expressions
  have the same grouped form.
-/

namespace Scalarize.Layout

open Scalarize.Tree

/-! ## Grouping to the left -/

/-- A tree as the right operand of an operator that waits for one, or on its own. -/
def join : Option (String × Tree) → Tree → Tree
  | none, x => x
  | some (k, a), x => node k [a, x]

/-- Put a tree behind a waiting operator. If its own operator is of the same precedence, the waiting
one takes the left operand only. -/
def attach (left : Option (String × Tree)) : Tree → Tree
  | leaf k v => join left (text k (valueText v))
  | branch k _ [x] => join left (node k [attach none x])
  | branch k _ [x, y] =>
    match left with
    | none => attach (some (k, attach none x)) y
    | some (j, a) =>
      if precedence k = precedence j then attach (some (k, attach (some (j, a)) x)) y
      else node j [a, attach (some (k, attach none x)) y]
  | t => join left t

/-- The expression with operators of one precedence grouped to the left. -/
def grouped (t : Tree) : Tree :=
  attach none t

theorem grouped_binary (k : String) (v : Option Scalar) (x y : Tree) :
    grouped (branch k v [x, y]) = attach (some (k, grouped x)) y := by
  rw [grouped, attach]
  rfl

theorem attach_same {j k : String} (h : precedence k = precedence j) (v : Option Scalar)
    (a x y : Tree) :
    attach (some (j, a)) (branch k v [x, y]) = attach (some (k, attach (some (j, a)) x)) y := by
  rw [attach, if_pos h]

theorem attach_other {j k : String} (h : precedence k ≠ precedence j) (v : Option Scalar)
    (a x y : Tree) :
    attach (some (j, a)) (branch k v [x, y]) = node j [a, grouped (branch k v [x, y])] := by
  rw [attach, if_neg h, grouped_binary]
  rfl

/-! ## Reading -/

/-- What waits for an operand. -/
inductive Frame where
  | opening
  | unary (k : String)
  | binary (k : String) (left : Tree)

/-- Apply the waiting operators that bind at least as tightly as `p`. -/
def reduce (p : Nat) : Tree → List Frame → Tree × List Frame
  | x, .unary k :: fs =>
    if p ≤ precedence k then reduce p (node k [x]) fs else (x, .unary k :: fs)
  | x, .binary k a :: fs =>
    if p ≤ precedence k then reduce p (node k [a, x]) fs else (x, .binary k a :: fs)
  | x, fs => (x, fs)

/-- A reader looks for an operand, or has one. -/
inductive Reader where
  | seeking (stack : List Frame)
  | holding (x : Tree) (stack : List Frame)

/-- The leaf that a word stands for. -/
def operand (s : String) : Tree :=
  text (if s.toList.head?.any Char.isDigit then "number" else "variable") s

def Reader.next : Reader → Token → Option Reader
  | .seeking fs, .word s => some (.holding (operand s) fs)
  | .seeking fs, .unary k => some (.seeking (.unary k :: fs))
  | .seeking fs, .opening => some (.seeking (.opening :: fs))
  | .holding x fs, .binary k =>
    let r := reduce (precedence k) x fs
    some (.seeking (.binary k r.1 :: r.2))
  | .holding x fs, .closing =>
    match reduce 0 x fs with
    | (y, .opening :: gs) => some (.holding y gs)
    | _ => none
  | _, _ => none

def Reader.run (r : Reader) (ts : List Token) : Option Reader :=
  ts.foldlM Reader.next r

def read (ts : List Token) : Option Tree :=
  match Reader.run (.seeking []) ts with
  | some (.holding x fs) =>
    match reduce 0 x fs with
    | (y, []) => some y
    | _ => none
  | _ => none

theorem Reader.run_cons (r : Reader) (t : Token) (ts : List Token) :
    r.run (t :: ts) = (r.next t).bind fun r => r.run ts := by
  simp [Reader.run, List.foldlM_cons]

theorem Reader.run_append (r : Reader) (ts us : List Token) :
    r.run (ts ++ us) = (r.run ts).bind fun r => r.run us := by
  simp [Reader.run, List.foldlM_append]

/-- No operator on top of the stack binds as tightly as `p`. -/
def Loose (p : Nat) : List Frame → Prop
  | .unary k :: _ => precedence k < p
  | .binary k _ :: _ => precedence k < p
  | _ => True

theorem Loose.mono {p q : Nat} {fs : List Frame} (h : Loose p fs) (hpq : p ≤ q) : Loose q fs := by
  match fs, h with
  | .unary k :: _, h => exact Nat.lt_of_lt_of_le h hpq
  | .binary k _ :: _, h => exact Nat.lt_of_lt_of_le h hpq
  | .opening :: _, _ => trivial
  | [], _ => trivial

theorem Loose.reduce_eq {p : Nat} {fs : List Frame} (h : Loose p fs) (x : Tree) :
    reduce p x fs = (x, fs) := by
  match fs, h with
  | .unary k :: _, h => rw [reduce, if_neg (Nat.not_le.mpr h)]
  | .binary k _ :: _, h => rw [reduce, if_neg (Nat.not_le.mpr h)]
  | .opening :: _, _ => rfl
  | [], _ => rfl

/-- From the stack `fs` the row is read. For every operator that does not bind more tightly than `q`
it is as if the reader held `x` on the stack `gs`. -/
def Reads (fs : List Frame) (ts : List Token) (q : Nat) (x : Tree) (gs : List Frame) : Prop :=
  ∃ y hs, Reader.run (.seeking fs) ts = some (.holding y hs) ∧
    ∀ p ≤ q, reduce p y hs = reduce p x gs

namespace Reads

variable {fs gs : List Frame} {ts : List Token} {q : Nat} {x : Tree}

theorem mono (h : Reads fs ts q x gs) {p : Nat} (hp : p ≤ q) : Reads fs ts p x gs := by
  obtain ⟨y, hs, hrun, hred⟩ := h
  exact ⟨y, hs, hrun, fun r hr => hred r (hr.trans hp)⟩

theorem word (s : String) : Reads fs [.word s] q (operand s) fs :=
  ⟨operand s, fs, rfl, fun _ _ => rfl⟩

/-- In brackets a row is read on its own, and then it counts as an operand. -/
theorem brackets (h : Reads (.opening :: fs) ts 0 x (.opening :: fs)) :
    Reads fs (bracketed true ts) q x fs := by
  obtain ⟨y, hs, hrun, hred⟩ := h
  refine ⟨x, fs, ?_, fun _ _ => rfl⟩
  have hinner : reduce 0 y hs = (x, .opening :: fs) := hred 0 le_rfl
  rw [bracketed, if_pos rfl, Reader.run_cons]
  change Reader.run (.seeking (.opening :: fs)) (ts ++ [.closing]) = _
  rw [Reader.run_append, hrun, Option.bind_some, Reader.run_cons]
  simp [Reader.next, hinner, Reader.run]

/-- An operator before its operand. -/
theorem unary {k : String} (h : Reads (.unary k :: fs) ts (precedence k) x (.unary k :: fs)) :
    Reads fs (.unary k :: ts) (precedence k) (node k [x]) fs := by
  obtain ⟨y, hs, hrun, hred⟩ := h
  refine ⟨y, hs, ?_, ?_⟩
  · rw [Reader.run_cons]
    exact hrun
  · intro p hp
    rw [hred p hp, reduce, if_pos hp]

/-- An operator between its operands: it takes what has been read so far for its left operand. -/
theorem binary {k : String} {us : List Token} {y : Tree} (h : Reads fs ts (precedence k) x gs)
    (hgs : Loose (precedence k) gs)
    (hright : Reads (.binary k x :: gs) us (precedence k) y gs) :
    Reads fs (ts ++ .binary k :: us) (precedence k) y gs := by
  obtain ⟨z, hs, hrun, hred⟩ := h
  obtain ⟨w, is, hrun', hred'⟩ := hright
  have hleft : reduce (precedence k) z hs = (x, gs) := by rw [hred _ le_rfl, hgs.reduce_eq]
  refine ⟨w, is, ?_, hred'⟩
  rw [Reader.run_append, hrun, Option.bind_some, Reader.run_cons, Reader.next, hleft]
  exact hrun'

/-- A right operand that does not share the precedence of its operator. -/
theorem right {k : String} {a : Tree}
    (h : Reads (.binary k a :: fs) ts (precedence k) x (.binary k a :: fs)) :
    Reads (.binary k a :: fs) ts (precedence k) (node k [a, x]) fs := by
  obtain ⟨y, hs, hrun, hred⟩ := h
  refine ⟨y, hs, hrun, ?_⟩
  intro p hp
  rw [hred p hp, reduce, if_pos hp]

end Reads

/-! ## Reading what was printed -/

/-- An operator between operands that is printed without brackets does not disturb the stack. -/
def Fits (outer : Nat) (t : Tree) (fs : List Frame) : Prop :=
  ∀ k v x y, t = branch k v [x, y] → outer ≤ precedence k → Loose (precedence k) fs

theorem operand_eq {k : String} {v : Option Scalar} (h : IsFormula (leaf k v)) :
    operand (valueText v) = text k (valueText v) := by
  cases h with
  | name h =>
    obtain ⟨c, hc, hdigit⟩ := h.start
    rw [operand, Option.mem_def.mp hc]
    simp [hdigit]
  | literal h =>
    obtain ⟨c, cs, hc⟩ := List.exists_cons_of_ne_nil h.start
    have hdigit := h.chars c (by simp [hc])
    simp [operand, hc, hdigit]

theorem precedence_unary {j k : String} (hj : j ∈ binaryKinds) (hk : k ∈ unaryKinds) :
    precedence j < precedence k := by
  have hall : ∀ j ∈ binaryKinds, ∀ k ∈ unaryKinds, precedence j < precedence k := by
    decide +kernel
  exact hall j hj k hk

/-- The tokens of an expression are read as its grouped form, on its own and behind an operator. -/
theorem IsFormula.reads {t : Tree} (ht : IsFormula t) :
    (∀ outer fs, Fits outer t fs → Reads fs (tokens outer t) outer (grouped t) fs) ∧
    ∀ j a fs, j ∈ binaryKinds → Loose (precedence j) fs →
      Reads (.binary j a :: fs) (tokens (precedence j) t) (precedence j)
        (attach (some (j, a)) t) fs := by
  induction ht with
  | @name v h =>
    have hleaf : ∀ fs q, Reads fs [.word (valueText v)] q (text "variable" (valueText v)) fs := by
      intro fs q
      rw [← operand_eq (.name h)]
      exact Reads.word _
    exact ⟨fun outer fs _ => hleaf fs outer, fun j a fs _ _ => (hleaf _ _).right⟩
  | @literal v h =>
    have hleaf : ∀ fs q, Reads fs [.word (valueText v)] q (text "number" (valueText v)) fs := by
      intro fs q
      rw [← operand_eq (.literal h)]
      exact Reads.word _
    exact ⟨fun outer fs _ => hleaf fs outer, fun j a fs _ _ => (hleaf _ _).right⟩
  | @unary k v x hk hx ih =>
    have hbody : ∀ fs, Reads fs (.unary k :: tokens (precedence k) x) (precedence k)
        (node k [grouped x]) fs := by
      intro fs
      refine Reads.unary (ih.1 _ _ ?_)
      -- an operator between operands would be printed in brackets here
      rintro j w y z rfl hj
      cases hx with
      | binary hjk => exact absurd (precedence_unary hjk hk) (by omega)
    have hall : ∀ outer fs, Reads fs (tokens outer (branch k v [x])) outer
        (node k [grouped x]) fs := by
      intro outer fs
      rw [tokens]
      by_cases hlt : precedence k < outer
      · rw [decide_eq_true hlt]
        exact ((hbody _).mono (Nat.zero_le _)).brackets
      · rw [decide_eq_false hlt]
        exact (hbody fs).mono (by omega)
    exact ⟨fun outer fs _ => hall outer fs, fun j a fs _ _ => (hall _ _).right⟩
  | @binary k v x y hk hx hy ihx ihy =>
    -- the operands and the operator, without brackets around them
    have hbody : ∀ fs, Loose (precedence k) fs →
        Reads fs (tokens (precedence k) x ++ .binary k :: tokens (precedence k) y)
          (precedence k) (grouped (branch k v [x, y])) fs := by
      intro fs hfs
      rw [grouped_binary]
      refine (ihx.1 _ fs ?_).binary hfs (ihy.2 k (grouped x) fs hk hfs)
      intro j _ _ _ _ hj
      exact hfs.mono hj
    have halone : ∀ outer fs, Fits outer (branch k v [x, y]) fs →
        Reads fs (tokens outer (branch k v [x, y])) outer (grouped (branch k v [x, y])) fs := by
      intro outer fs hfits
      rw [tokens]
      by_cases hlt : precedence k < outer
      · rw [decide_eq_true hlt]
        exact ((hbody (.opening :: fs) trivial).mono (Nat.zero_le _)).brackets
      · rw [decide_eq_false hlt]
        exact (hbody fs (hfits k v x y rfl (by omega))).mono (by omega)
    refine ⟨halone, ?_⟩
    intro j a fs hj hfs
    by_cases heq : precedence k = precedence j
    · -- the waiting operator is applied as soon as the left operand has been read
      have hleft := ihx.2 j a fs hj hfs
      rw [attach_same heq, tokens, decide_eq_false (by omega), ← heq]
      rw [← heq] at hleft hfs
      exact hleft.binary hfs (ihy.2 k _ fs hk hfs)
    · rw [attach_other heq]
      refine (halone _ _ ?_).right
      rintro k' _ _ _ ⟨⟩ hle
      exact lt_of_le_of_ne hle (Ne.symm heq)

/-- What is read from the tokens of an expression is its grouped form. -/
theorem read_tokens {t : Tree} (ht : IsFormula t) : read (tokens 0 t) = some (grouped t) := by
  obtain ⟨y, hs, hrun, hred⟩ := ht.reads.1 0 [] (fun _ _ _ _ _ _ => trivial)
  have hlast : reduce 0 y hs = (grouped t, []) := hred 0 le_rfl
  simp [read, hrun, hlast]

/-! ## Grouping does not show -/

theorem tokens_attach {t : Tree} (ht : IsFormula t) :
    (∀ outer, tokens outer (grouped t) = tokens outer t) ∧
    ∀ j a outer, tokens outer (attach (some (j, a)) t) = tokens outer (node j [a, t]) := by
  induction ht with
  | name | literal =>
    refine ⟨fun outer => ?_, fun j a outer => ?_⟩
    · simp [grouped, attach, join, text, tokens, valueText, Scalar.render]
    · simp [attach, join, text, node, tokens, valueText, Scalar.render]
  | @unary k v x hk hx ih =>
    have halone : ∀ outer, tokens outer (node k [grouped x]) = tokens outer (branch k v [x]) := by
      intro outer
      rw [node, tokens, tokens, ih.1]
    refine ⟨halone, ?_⟩
    intro j a outer
    change tokens outer (node j [a, node k [grouped x]]) = _
    simp only [node, tokens] at halone ⊢
    rw [halone]
  | @binary k v x y hk hx hy ihx ihy =>
    have halone : ∀ outer, tokens outer (grouped (branch k v [x, y]))
        = tokens outer (branch k v [x, y]) := by
      intro outer
      rw [grouped_binary, ihy.2, node, tokens, tokens, ihx.1]
    refine ⟨halone, ?_⟩
    intro j a outer
    by_cases heq : precedence k = precedence j
    · rw [attach_same heq, ihy.2, node, tokens, ihx.2, node, tokens, node, tokens, tokens, heq]
      simp [bracketed]
    · rw [attach_other heq, node, node, tokens, tokens, halone]

/-- The tokens of two expressions are equal if and only if the expressions have the same grouped
form. -/
theorem tokens_eq_iff {t u : Tree} (ht : IsFormula t) (hu : IsFormula u) :
    tokens 0 t = tokens 0 u ↔ grouped t = grouped u := by
  constructor
  · intro h
    have hread := read_tokens ht
    rw [h, read_tokens hu, Option.some.injEq] at hread
    exact hread.symm
  · intro h
    rw [← (tokens_attach ht).1, ← (tokens_attach hu).1, h]

end Scalarize.Layout
