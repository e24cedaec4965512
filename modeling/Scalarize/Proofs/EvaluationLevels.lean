import Scalarize.Proofs.Evaluation
import Scalarize.Proofs.Traced

/-!
# Scalarize — one level of an evaluator

An evaluator looks at one node and goes on with the nodes below it, one level down. This module says
all that can come of one level, for any sort and any form.

* **`Malformed`** — a node without what its kind promises. The grammar makes none.
* **`LevelEnds`** — a level gives a value, fails with an operand or with the body of a macro,
  rejects a node that has no value, or stops at a malformed one.
* **`LevelBelow`** — the levels below for one sort, with what is known of them.
* **`LevelEnds.of_one`**, **`LevelEnds.of_two`**, **`LevelEnds.of_loop`** — forms with one operand,
  with two, and with operands that are gone through in a loop that may stop at any.
-/

namespace Scalarize

open Traced

/-- The evaluator of a sort. -/
def evaluateAt (env : Env) (s : ValueSort) (n : Nat) (t : Tree) : Traced Value :=
  match s with
  | .number => Value.number <$> numberAt env n t
  | .vector => Value.vector <$> vectorAt env n t
  | .matrix => Value.matrix <$> matrixAt env n t

/-- A node that has not what its kind promises. -/
inductive Malformed : ValueSort → Tree → Prop where
  /-- There are not enough children for the form. -/
  | parts {s t} (hform : s.admits t.kind = true) (hvar : t.kind ≠ "variable")
      (hcall : t.kind ≠ "call") (hops : operands s t = none) : Malformed s t
  | call {s t} (hkind : t.kind = "call") (hshort : t.children.length < 2) : Malformed s t
  | literal {t} (hkind : t.kind = "number") (hvalue : (literalOf t.value).toOption = none) :
      Malformed .number t
  | empty {s t} (hkind : t.kind = "vector" ∨ t.kind = "matrix") (hnone : t.children = []) :
      Malformed s t

/-- What one level of an evaluator can end with, the levels below having the depth `n`. -/
inductive LevelEnds (env : Env) (n : Nat) (s : ValueSort) (t : Tree) : Except Failure Value → Prop
  | value {v} (h : Yields env s t v) : LevelEnds env n s t (.ok v)
  | operand {ops p e} (hops : operands s t = some ops) (hp : p ∈ ops)
      (h : (evaluateAt env p.1 n p.2).Ends (.error e)) : LevelEnds env n s t (.error e)
  | body {body e} (hkind : t.kind = "call") (hbody : sortedExpansion? env.macros s t = some body)
      (h : (evaluateAt env s n body).Ends (.error e)) : LevelEnds env n s t (.error e)
  | rejected {d} (h : ∀ v, ¬ Yields env s t v) : LevelEnds env n s t (.error (.diagnostic d))
  | malformed {f} (h : Malformed s t) (hf : f ≠ .endlessExpansion) :
      LevelEnds env n s t (.error (.fault f))

theorem NumForm.kind_of_reference {k : String} (h : NumForm.ofKind? k = some .reference) :
    k = "variable" := by
  simpa [NumForm.table] using mem_of_lookup h

theorem NumForm.kind_of_call {k : String} (h : NumForm.ofKind? k = some .call) : k = "call" := by
  simpa [NumForm.table] using mem_of_lookup h

theorem NumForm.kind_of_literal {k : String} (h : NumForm.ofKind? k = some .literal) :
    k = "number" := by
  simpa [NumForm.table] using mem_of_lookup h

theorem VecForm.kind_of_reference {k : String} (h : VecForm.ofKind? k = some .reference) :
    k = "variable" := by
  simpa [VecForm.table] using mem_of_lookup h

theorem VecForm.kind_of_call {k : String} (h : VecForm.ofKind? k = some .call) : k = "call" := by
  simpa [VecForm.table] using mem_of_lookup h

theorem VecForm.kind_of_literal {k : String} (h : VecForm.ofKind? k = some .literal) :
    k = "vector" := by
  simpa [VecForm.table] using mem_of_lookup h

theorem MatForm.kind_of_reference {k : String} (h : MatForm.ofKind? k = some .reference) :
    k = "variable" := by
  simpa [MatForm.table] using mem_of_lookup h

theorem MatForm.kind_of_call {k : String} (h : MatForm.ofKind? k = some .call) : k = "call" := by
  simpa [MatForm.table] using mem_of_lookup h

theorem MatForm.kind_of_literal {k : String} (h : MatForm.ofKind? k = some .literal) :
    k = "matrix" := by
  simpa [MatForm.table] using mem_of_lookup h

section

variable {env : Env} {t : Tree} {vs : List Value}

theorem NumForm.operands_eq {f : NumForm} {ops : Option (List (ValueSort × Tree))}
    (hf : NumForm.ofKind? t.kind = some f) (h : f.operands t.children = ops) :
    Scalarize.operands .number t = ops := by
  rw [Scalarize.operands, hf]
  exact h

theorem VecForm.operands_eq {f : VecForm} {ops : Option (List (ValueSort × Tree))}
    (hf : VecForm.ofKind? t.kind = some f) (h : f.operands t.children = ops) :
    Scalarize.operands .vector t = ops := by
  rw [Scalarize.operands, hf]
  exact h

theorem MatForm.operands_eq {f : MatForm} {ops : Option (List (ValueSort × Tree))}
    (hf : MatForm.ofKind? t.kind = some f) (h : f.operands t.children = ops) :
    Scalarize.operands .matrix t = ops := by
  rw [Scalarize.operands, hf]
  exact h

theorem NumForm.build_eq {f : NumForm} {x : Option Num} (hf : NumForm.ofKind? t.kind = some f)
    (h : f.build env t vs = x) : Scalarize.build env .number t vs = x.map .number := by
  rw [Scalarize.build, hf, ← h]
  rfl

theorem VecForm.build_eq {f : VecForm} {x : Option Vec} (hf : VecForm.ofKind? t.kind = some f)
    (h : f.build t vs = x) : Scalarize.build env .vector t vs = x.map .vector := by
  rw [Scalarize.build, hf, ← h]
  rfl

theorem MatForm.build_eq {f : MatForm} {x : Option Mat} (hf : MatForm.ofKind? t.kind = some f)
    (h : f.build t vs = x) : Scalarize.build env .matrix t vs = x.map .matrix := by
  rw [Scalarize.build, hf, ← h]
  rfl

end

theorem ne_of_lookup {β : Type} {l : List (String × β)} {k k' : String} {b b' : β}
    (h : l.lookup k = some b) (h' : l.lookup k' = some b') (hb : b ≠ b') : k ≠ k' := by
  rintro rfl
  exact hb (Option.some.inj (h.symm.trans h'))

theorem sortedExpansion?_of_children {s : ValueSort} {t callee args : Tree} {rest : List Tree}
    (hc : t.children = callee :: args :: rest) (macros : Macros) :
    sortedExpansion? macros s t = (macros.lookup callee.name).bind fun m =>
      if m.returns = s.word then (m.call args.children).toOption else none := by
  unfold sortedExpansion?
  rw [hc]

/-- How the search for the body of a macro call can end. -/
theorem ends_expandCall {env : Env} {s : ValueSort} {t : Tree} {r : Except Failure Tree}
    (h : (expandCall env s t.children).Ends r) :
    (∃ body, r = .ok body ∧ sortedExpansion? env.macros s t = some body) ∨
    (∃ d, r = .error (.diagnostic d) ∧ sortedExpansion? env.macros s t = none) ∨
    (t.children.length < 2 ∧ r = .error (.fault .missingChild)) := by
  unfold expandCall at h
  split at h
  case h_1 callee rest hc =>
    have hshort : rest = [] → sortedExpansion? env.macros s t = none := by
      rintro rfl
      unfold sortedExpansion?
      rw [hc]
    rcases h.of_check_bind with ⟨m, hm, h⟩ | ⟨d, hd, rfl⟩
    · have hlookup : env.macros.lookup callee.name = some m := by
        unfold Env.lookupMacro Env.findMacro? at hm
        split at hm
        · next m' hm' => rw [hm', Except.ok.inj hm]
        · cases hm
      cases rest with
      | nil =>
        -- the sort is looked at before the arguments, so a wrong one is told even without them
        split at h
        · exact .inr (.inr ⟨by rw [hc]; exact Nat.one_lt_two, h.of_give⟩)
        · exact .inr (.inl ⟨_, h.of_reject, hshort rfl⟩)
      | cons args rest =>
        have hexpansion := sortedExpansion?_of_children (s := s) hc env.macros
        rw [hlookup, Option.bind_some] at hexpansion
        split at h
        · next hs =>
          rw [if_pos (beq_iff_eq.mp hs)] at hexpansion
          rcases h.of_check with ⟨body, hbody, rfl⟩ | ⟨d, hd, rfl⟩
          · exact .inl ⟨body, rfl, by rw [hexpansion, hbody]; rfl⟩
          · exact .inr (.inl ⟨d, rfl, by rw [hexpansion, hd]; rfl⟩)
        · next hs =>
          rw [if_neg (mt beq_iff_eq.mpr hs)] at hexpansion
          exact .inr (.inl ⟨_, h.of_reject, hexpansion⟩)
    · refine .inr (.inl ⟨d, rfl, ?_⟩)
      have hlookup : env.macros.lookup callee.name = none := by
        unfold Env.lookupMacro Env.findMacro? at hd
        split at hd
        · cases hd
        · next hnone => exact hnone
      cases rest with
      | nil => exact hshort rfl
      | cons args rest => rw [sortedExpansion?_of_children hc, hlookup, Option.bind_none]
  case h_2 hc =>
    exact .inr (.inr ⟨by rw [hc]; decide, h.of_give⟩)

theorem exists_forall₂ {β γ : Type} {R : β → γ → Prop} {bs : List β} (h : ∀ b ∈ bs, ∃ c, R b c) :
    ∃ cs, List.Forall₂ R bs cs := by
  induction bs with
  | nil => exact ⟨[], .nil⟩
  | cons b bs ih =>
    obtain ⟨c, hc⟩ := h b List.mem_cons_self
    obtain ⟨cs, hcs⟩ := ih fun b hb => h b (List.mem_cons_of_mem _ hb)
    exact ⟨c :: cs, .cons hc hcs⟩

theorem exists_of_forall₂ {β γ : Type} {R : β → γ → Prop} {bs : List β} {cs : List γ} {b : β}
    (h : List.Forall₂ R bs cs) (hb : b ∈ bs) : ∃ c ∈ cs, R b c := by
  induction h with
  | nil => cases hb
  | cons hr _ ih =>
    rcases List.mem_cons.mp hb with rfl | hb
    · exact ⟨_, List.mem_cons_self, hr⟩
    · obtain ⟨c, hc, hr⟩ := ih hb
      exact ⟨c, List.mem_cons_of_mem _ hc, hr⟩

theorem exists_append_of_forall₂ {α β : Type} {R : α → β → Prop} {xs ys : List α} {zs : List β}
    (h : List.Forall₂ R (xs ++ ys) zs) :
    ∃ as bs, List.Forall₂ R xs as ∧ List.Forall₂ R ys bs ∧ zs = as ++ bs :=
  ⟨zs.take xs.length, zs.drop xs.length, (List.forall₂_take_append _ _ _ h.flip).flip,
    (List.forall₂_drop_append _ _ _ h.flip).flip, (List.take_append_drop _ _).symm⟩

theorem forall₂_operands {β γ : Type} {env : Env} {s : ValueSort} {e : β → Tree} {val : γ → Value}
    {bs : List β} {cs : List γ} :
    List.Forall₂ (fun p v => Yields env p.1 p.2 v) (bs.map fun b => (s, e b)) (cs.map val) ↔
      List.Forall₂ (fun b c => Yields env s (e b) (val c)) bs cs := by
  rw [List.forall₂_map_left_iff, List.forall₂_map_right_iff]

theorem foldlM_zip_snd {α β γ ε : Type} {g : α → γ → Except ε α} {bs : List β} {cs : List γ} {a : α}
    (h : cs.length ≤ bs.length) :
    (bs.zip cs).foldlM (fun a p => g a p.2) a = cs.foldlM g a := by
  rw [← List.foldlM_map (f := Prod.snd), List.map_snd_zip h]

theorem foldl_zip_snd {α β γ : Type} {g : α → γ → α} {bs : List β} {cs : List γ} {a : α}
    (h : bs.length = cs.length) :
    (bs.zip cs).foldl (fun a p => g a p.2) a = cs.foldl g a := by
  rw [← List.foldl_map (f := Prod.snd), List.map_snd_zip (Nat.le_of_eq h.symm)]

/-- The levels of depth `n` for expressions of a sort: an evaluator with values of a type of its own,
which returns only what its expressions yield. -/
structure LevelBelow (env : Env) (n : Nat) (s : ValueSort) {β : Type} (eval : Tree → Traced β)
    (val : β → Value) : Prop where
  evaluateAt_eq : ∀ e, evaluateAt env s n e = val <$> eval e
  yields : ∀ e b, (eval e).Returns b → Yields env s e (val b)
  exists_eq : ∀ e v, Yields env s e v → ∃ b, v = val b
  injective : Function.Injective val

namespace LevelEnds

variable {env : Env} {n : Nat} {s s' : ValueSort} {t e : Tree} {ops : List (ValueSort × Tree)}
  {α β γ : Type} {r : Except Failure α} {g : α → Value} {eval : Tree → Traced β} {val : β → Value}

theorem of_give {f : Fault} (h : (give f : Traced α).Ends r) (hm : Malformed s t)
    (hf : f ≠ .endlessExpansion) : LevelEnds env n s t (r.map g) := by
  rw [h.of_give]
  exact .malformed hm hf

/-- The last step of a form. -/
theorem of_built {x : Except Diagnostic α} {vs : List Value} (hops : operands s t = some ops)
    (hvs : List.Forall₂ (fun p v => Yields env p.1 p.2 v) ops vs)
    (hbuild : build env s t vs = x.toOption.map g) (h : (check x).Ends r) :
    LevelEnds env n s t (r.map g) := by
  rcases h.of_check with ⟨a, rfl, rfl⟩ | ⟨d, rfl, rfl⟩
  · exact .value (.of_forall₂ hops hvs hbuild)
  · exact .rejected (Yields.not_of_build hops hvs hbuild)

theorem of_error (hbelow : LevelBelow env n s' eval val) (hops : operands s t = some ops)
    (hp : (s', e) ∈ ops) {f : Failure} (h : (eval e).Ends (.error f)) :
    LevelEnds env n s t (.error f) := by
  refine .operand hops hp ?_
  rw [hbelow.evaluateAt_eq]
  exact ends_map.mpr ⟨_, h, rfl⟩

/-- A level fails with an operand, or goes on with its value. -/
theorem of_operand_bind {k : β → Traced α} (hbelow : LevelBelow env n s' eval val)
    (hops : operands s t = some ops) (hp : (s', e) ∈ ops) (h : (eval e >>= k).Ends r)
    (hk : ∀ b, Yields env s' e (val b) → (k b).Ends r → LevelEnds env n s t (r.map g)) :
    LevelEnds env n s t (r.map g) := by
  rcases h.of_bind with ⟨b, hb, h⟩ | ⟨f, rfl, hf⟩
  · exact hk b (hbelow.yields e b hb) h
  · exact of_error hbelow hops hp hf

/-- The level of a form with one operand. -/
theorem of_one {F : β → Except Diagnostic α} (hbelow : LevelBelow env n s' eval val)
    (hops : operands s t = some [(s', e)])
    (hbuild : ∀ b, build env s t [val b] = (F b).toOption.map g)
    (h : (eval e >>= fun b => check (F b)).Ends r) : LevelEnds env n s t (r.map g) :=
  of_operand_bind hbelow hops List.mem_cons_self h fun b hb h =>
    of_built hops (.cons hb .nil) (hbuild b) h

/-- The level of a form with one operand and an index, which may be no whole number. -/
theorem of_index {F : β → Int → Except Diagnostic α} {i : Option Int} {d : Diagnostic}
    (hbelow : LevelBelow env n s' eval val) (hops : operands s t = some [(s', e)])
    (hbuild : ∀ b, build env s t [val b] = (i.bind fun k => (F b k).toOption).map g)
    (h : (eval e >>= fun b =>
      match i with
      | some k => check (F b k)
      | none => reject d).Ends r) : LevelEnds env n s t (r.map g) := by
  cases i with
  | some k => exact of_one (F := fun b => F b k) hbelow hops hbuild h
  | none => exact of_one (F := fun _ => .error d) hbelow hops hbuild h

/-- The level of a form with two operands. -/
theorem of_two {s'' : ValueSort} {e' : Tree} {eval' : Tree → Traced γ} {val' : γ → Value}
    {F : β → γ → Except Diagnostic α} (hbelow : LevelBelow env n s' eval val)
    (hbelow' : LevelBelow env n s'' eval' val') (hops : operands s t = some [(s', e), (s'', e')])
    (hbuild : ∀ b c, build env s t [val b, val' c] = (F b c).toOption.map g)
    (h : (eval e >>= fun b => eval' e' >>= fun c => check (F b c)).Ends r) :
    LevelEnds env n s t (r.map g) :=
  of_operand_bind hbelow hops List.mem_cons_self h fun b hb h =>
    of_operand_bind hbelow' hops (List.mem_cons_of_mem _ List.mem_cons_self) h fun c hc h =>
      of_built hops (.cons hb (.cons hc .nil)) (hbuild b c) h

/-- The level of a macro call. -/
theorem of_call {eval : Tree → Traced α} (hbelow : LevelBelow env n s eval g)
    (hkind : t.kind = "call") (h : (expandCall env s t.children >>= eval).Ends r) :
    LevelEnds env n s t (r.map g) := by
  rcases h.of_bind with ⟨body, hbody, h⟩ | ⟨f, rfl, hf⟩
  · rcases ends_expandCall hbody.ends with ⟨_, heq, hexp⟩ | ⟨_, heq, -⟩ | ⟨-, heq⟩ <;> cases heq
    cases r with
    | ok a => exact .value (.call hkind hexp (hbelow.yields body a h))
    | error f =>
      refine .body hkind hexp ?_
      rw [hbelow.evaluateAt_eq]
      exact ends_map.mpr ⟨_, h, rfl⟩
  · rcases ends_expandCall hf with ⟨_, heq, -⟩ | ⟨d, heq, hnone⟩ | ⟨hshort, heq⟩ <;> cases heq
    · exact .rejected (Yields.not_of_call hkind hnone)
    · exact .malformed (.call hkind hshort) (by simp)

/-- The level of a variable. -/
theorem of_reference {get : Binding → Except Diagnostic α} (hkind : t.kind = "variable")
    (hget : ∀ b, (get b).toOption.map g = if b.value.sort = s then some b.value else none)
    (h : (check (env.lookup t.name) >>= fun b => check (get b)).Ends r) :
    LevelEnds env n s t (r.map g) := by
  have hvalue : env.valueOf s t.name =
      (env.lookup t.name).toOption.bind fun b => (get b).toOption.map g := by
    unfold Env.valueOf Env.lookup
    cases env.binding? t.name with
    | none => rfl
    | some b => exact (hget b).symm
  rcases h.of_check_bind with ⟨b, hb, h⟩ | ⟨d, hd, rfl⟩
  · rw [hb] at hvalue
    change _ = (get b).toOption.map g at hvalue
    rcases h.of_check with ⟨a, ha, rfl⟩ | ⟨d, hd, rfl⟩
    · rw [ha] at hvalue
      exact .value (.reference hkind hvalue)
    · rw [hd] at hvalue
      exact .rejected (Yields.not_of_variable hkind hvalue)
  · rw [hd] at hvalue
    exact .rejected (Yields.not_of_variable hkind hvalue)

/-- The level of a form that goes through operands `e b` in a loop. The evaluator combines the
values as it goes; here these are two steps, the values and then a fold over them. -/
theorem of_loop {e : γ → Tree} {k : α → γ → β → Except Diagnostic α} {bs : List γ} {a : α}
    (hbelow : LevelBelow env n s' eval val) (hops : operands s t = some ops)
    (hmem : ∀ b ∈ bs, (s', e b) ∈ ops)
    (hbuild : ∀ cs, List.Forall₂ (fun b c => Yields env s' (e b) (val c)) bs cs →
      ∃ vs, List.Forall₂ (fun q v => Yields env q.1 q.2 v) ops vs ∧
        build env s t vs = ((bs.zip cs).foldlM (fun a q => k a q.1 q.2) a).toOption.map g)
    (h : (bs.foldlM (fun a b => eval (e b) >>= fun c => check (k a b c)) a).Ends r) :
    LevelEnds env n s t (r.map g) := by
  have hyields : ∀ b c, (eval (e b)).Returns c → Yields env s' (e b) (val c) :=
    fun b c => hbelow.yields (e b) c
  cases r with
  | ok z =>
    obtain ⟨cs, hcs, hfold⟩ := Returns.of_foldlM h
    obtain ⟨vs, hvs, hvalue⟩ := hbuild cs (hcs.imp fun b c => hyields b c)
    rw [hfold] at hvalue
    exact .value (.of_forall₂ hops hvs hvalue)
  | error f =>
    rcases Ends.error_of_foldlM hyields
      (fun b c c' hc hc' => hbelow.injective (hc.unique hc')) h with ⟨b, hb, hf⟩ | ⟨d, rfl, -, hfold⟩
    · exact of_error hbelow hops (hmem b hb) hf
    · refine .rejected fun v hv => ?_
      -- had the form a value, so had the operands of the loop, and the steps alone would succeed
      obtain ⟨us, hus, hvalue⟩ := hv.of_operands hops
      have hexists : ∀ b ∈ bs, ∃ c, Yields env s' (e b) (val c) := by
        intro b hb
        obtain ⟨u, -, hu⟩ := exists_of_forall₂ hus (hmem b hb)
        obtain ⟨c, rfl⟩ := hbelow.exists_eq (e b) u hu
        exact ⟨c, hu⟩
      obtain ⟨cs, hcs⟩ := exists_forall₂ hexists
      obtain ⟨vs, hvs, hvalue'⟩ := hbuild cs hcs
      rw [Yields.forall₂_unique hvs hus, hvalue] at hvalue'
      cases hz : (bs.zip cs).foldlM (fun a q => k a q.1 q.2) a with
      | ok z => exact hfold cs hcs z hz
      | error d => rw [hz] at hvalue'; cases hvalue'

/-- The level of a form that starts with its first operand and goes through the others. -/
theorem of_chain {e₀ : Tree} {e : γ → Tree} {k : β → γ → β → Except Diagnostic β} {bs : List γ}
    {r : Except Failure β} (hbelow : LevelBelow env n s' eval val)
    (hops : operands s t = some ((s', e₀) :: bs.map fun b => (s', e b)))
    (hbuild : ∀ a cs, bs.length = cs.length → build env s t (val a :: cs.map val) =
      ((bs.zip cs).foldlM (fun a q => k a q.1 q.2) a).toOption.map val)
    (h : (eval e₀ >>= fun a =>
      bs.foldlM (fun a b => eval (e b) >>= fun c => check (k a b c)) a).Ends r) :
    LevelEnds env n s t (r.map val) := by
  refine of_operand_bind hbelow hops List.mem_cons_self h fun a ha h => ?_
  refine of_loop hbelow hops (fun b hb => List.mem_cons_of_mem _ (List.mem_map_of_mem hb)) ?_ h
  intro cs hcs
  exact ⟨_, .cons ha (forall₂_operands.mpr hcs), hbuild a cs hcs.length_eq⟩

/-- The level of a form that starts with its first operand and goes through all of them, the first
one included. -/
theorem of_apply {e₀ : Tree} {es : List Tree} {k : β → β → Except Diagnostic β}
    {r : Except Failure β} (hbelow : LevelBelow env n s' eval val)
    (hops : operands s t = some ((e₀ :: es).map fun e => (s', e)))
    (hbuild : ∀ a cs, build env s t (val a :: cs.map val) =
      ((a :: cs).foldlM k a).toOption.map val)
    (h : (eval e₀ >>= fun a =>
      (e₀ :: es).foldlM (fun a e => eval e >>= fun c => check (k a c)) a).Ends r) :
    LevelEnds env n s t (r.map val) := by
  refine of_operand_bind hbelow hops List.mem_cons_self h fun a ha h => ?_
  refine of_loop (e := fun e => e) hbelow hops (fun _ he => List.mem_map_of_mem he) ?_ h
  intro cs hcs
  have hlen := hcs.length_eq
  obtain ⟨a', cs, ha', hrest, rfl⟩ := List.forall₂_cons_left_iff.mp hcs
  -- the first operand is evaluated twice, with one value
  obtain rfl : a = a' := hbelow.injective (ha.unique ha')
  refine ⟨_, .cons ha (forall₂_operands.mpr hrest), (hbuild a cs).trans ?_⟩
  rw [foldlM_zip_snd hlen.ge]

/-- A level whose operands are evaluated in a row fails with one of them, or goes on with their
values. -/
theorem of_mapM_bind {es : List Tree} {k : List β → Traced α}
    (hbelow : LevelBelow env n s' eval val)
    (hops : operands s t = some (es.map fun e => (s', e))) (h : (es.mapM eval >>= k).Ends r)
    (hk : ∀ bs, List.Forall₂ (fun e b => Yields env s' e (val b)) es bs → (k bs).Ends r →
      LevelEnds env n s t (r.map g)) : LevelEnds env n s t (r.map g) := by
  rcases h.of_bind with ⟨bs, hbs, h⟩ | ⟨f, rfl, hf⟩
  · exact hk bs (hbs.of_mapM.imp fun e b => hbelow.yields e b) h
  · rcases hf.of_mapM with ⟨_, hok, -⟩ | ⟨f', hf', e, he, hfail⟩
    · cases hok
    · cases hf'
      exact of_error hbelow hops (List.mem_map_of_mem he) hfail

theorem of_number_missing {f : NumForm} {r : Except Failure Num}
    (hf : NumForm.ofKind? t.kind = some f) (href : f ≠ .reference) (hcall : f ≠ .call)
    (hops : f.operands t.children = none) (h : (give .missingChild : Traced Num).Ends r) :
    LevelEnds env n .number t (r.map .number) := by
  have hadmits : ValueSort.number.admits t.kind = true := by
    rw [ValueSort.admits, hf]
    rfl
  exact of_give h (.parts hadmits (ne_of_lookup hf rfl href) (ne_of_lookup hf rfl hcall)
    (NumForm.operands_eq hf hops)) (by simp)

theorem of_vector_missing {f : VecForm} {r : Except Failure Vec}
    (hf : VecForm.ofKind? t.kind = some f) (href : f ≠ .reference) (hcall : f ≠ .call)
    (hops : f.operands t.children = none) (h : (give .missingChild : Traced Vec).Ends r) :
    LevelEnds env n .vector t (r.map .vector) := by
  have hadmits : ValueSort.vector.admits t.kind = true := by
    rw [ValueSort.admits, hf]
    rfl
  exact of_give h (.parts hadmits (ne_of_lookup hf rfl href) (ne_of_lookup hf rfl hcall)
    (VecForm.operands_eq hf hops)) (by simp)

theorem of_matrix_missing {f : MatForm} {r : Except Failure Mat}
    (hf : MatForm.ofKind? t.kind = some f) (href : f ≠ .reference) (hcall : f ≠ .call)
    (hops : f.operands t.children = none) (h : (give .missingChild : Traced Mat).Ends r) :
    LevelEnds env n .matrix t (r.map .matrix) := by
  have hadmits : ValueSort.matrix.admits t.kind = true := by
    rw [ValueSort.admits, hf]
    rfl
  exact of_give h (.parts hadmits (ne_of_lookup hf rfl href) (ne_of_lookup hf rfl hcall)
    (MatForm.operands_eq hf hops)) (by simp)

end LevelEnds

theorem Binding.toOption_number (b : Binding) :
    b.number.toOption.map Value.number = if b.value.sort = .number then some b.value else none := by
  unfold Binding.number
  cases b.value <;> rfl

theorem Binding.toOption_vector (b : Binding) :
    b.vector.toOption.map Value.vector = if b.value.sort = .vector then some b.value else none := by
  unfold Binding.vector
  cases b.value <;> rfl

theorem Binding.toOption_matrix (b : Binding) :
    b.matrix.toOption.map Value.matrix = if b.value.sort = .matrix then some b.value else none := by
  unfold Binding.matrix
  cases b.value <;> rfl

theorem ne_endless_of_literalOf {v : Option Scalar} {f : Fault} (h : literalOf v = .error f) :
    f ≠ .endlessExpansion := by
  unfold literalOf at h
  rintro rfl
  repeat' split at h
  all_goals cases h

theorem Vec.eq_nil_of_ofList? {xs : List Num} (h : Vec.ofList? xs = none) : xs = [] := by
  unfold Vec.ofList? at h
  split at h
  · next hnil => exact hnil
  · cases h

/-- A list of rows is no matrix if there is none or if they differ in length. -/
theorem Mat.ofRows_eq_error {rows : List Vec} {e : Failure} (h : Mat.ofRows rows = .error e) :
    (rows = [] ∧ e = .fault .emptyMatrix) ∨ e = .diagnostic .raggedMatrix := by
  unfold Mat.ofRows at h
  split at h
  · next hnil => exact .inl ⟨hnil, (Except.error.inj h).symm⟩
  · split at h
    · cases h
    · exact .inr (Except.error.inj h).symm

end Scalarize
