import Mathlib
import Scalarize.Trace

/-!
# Scalarize — computations that succeed

What the result of a traced computation says about its parts. The trace only records where the
compilation stands and never decides what is computed, so all lemmas speak about results and leave
the traces open: a computation returns a value if it does so from some trace. Where the trace itself
matters, a `Triple` says what a computation does to it.
-/

namespace Scalarize

namespace Traced

variable {α β γ : Type}

/-- The computation succeeds with the value, from some trace. -/
def Returns (x : Traced α) (a : α) : Prop :=
  ∃ t t', x.runFrom t = (.ok a, t')

theorem exists_runFrom {x : Traced α} {t : Trace} (h : (x.runFrom t).1.toOption.isSome = true) :
    ∃ a t', x.runFrom t = (.ok a, t') := by
  cases hx : x.runFrom t with
  | mk r t' =>
    rw [hx] at h
    cases r with
    | error e => cases h
    | ok a => exact ⟨a, t', rfl⟩

theorem exists_returns {x : Traced α} {t : Trace} (h : (x.runFrom t).1.toOption.isSome = true) :
    ∃ a, x.Returns a := by
  obtain ⟨a, t', hx⟩ := exists_runFrom h
  exact ⟨a, t, t', hx⟩

theorem runFrom_bind (x : Traced α) (f : α → Traced β) (t : Trace) :
    (x >>= f).runFrom t =
      match x.runFrom t with
      | (.ok a, t') => (f a).runFrom t'
      | (.error e, t') => (.error e, t') := by
  unfold runFrom
  rw [ExceptT.run_bind, StateT.run_bind]
  show (fun p => _) ((ExceptT.run x).run t) = _
  generalize (ExceptT.run x).run t = r
  obtain ⟨r, t'⟩ := r
  cases r <;> rfl

theorem Returns.of_pure {a b : α} (h : (pure a : Traced α).Returns b) : b = a := by
  obtain ⟨t, t', h⟩ := h
  cases h
  rfl

/-- A sequence succeeds if both its parts do. -/
theorem Returns.of_bind {x : Traced α} {f : α → Traced β} {b : β} (h : (x >>= f).Returns b) :
    ∃ a, x.Returns a ∧ (f a).Returns b := by
  obtain ⟨t, t', h⟩ := h
  rw [runFrom_bind] at h
  cases hx : x.runFrom t with
  | mk r t₁ =>
    rw [hx] at h
    cases r with
    | ok a => exact ⟨a, ⟨t, t₁, hx⟩, ⟨t₁, t', h⟩⟩
    | error e => cases h

/-- Entering a statement decides nothing. -/
theorem Returns.of_enterStatement {e : Tree} {f : Unit → Traced β} {b : β}
    (h : (enterStatement e >>= f).Returns b) : (f ()).Returns b := by
  obtain ⟨_, _, hf⟩ := h.of_bind
  exact hf

theorem not_returns_throw {e : Failure} {a : α} : ¬ (throw e : Traced α).Returns a := by
  rintro ⟨t, t', h⟩
  cases h

theorem not_returns_reject {d : Diagnostic} {a : α} : ¬ (reject d : Traced α).Returns a :=
  not_returns_throw

theorem not_returns_give {f : Fault} {a : α} : ¬ (give f : Traced α).Returns a :=
  not_returns_throw

theorem Returns.of_check {x : Except Diagnostic α} {a : α} (h : (check x).Returns a) :
    x = .ok a := by
  cases x with
  | ok b => rw [Returns.of_pure h]
  | error d => exact absurd h not_returns_reject

theorem Returns.of_lift {x : Except Failure α} {a : α} (h : (lift x).Returns a) :
    x = .ok a := by
  cases x with
  | ok b => rw [Returns.of_pure h]
  | error d => exact absurd h not_returns_throw

/-! ## Computations that may fail -/

/-- The computation ends with the outcome, from some trace. -/
def Ends (x : Traced α) (r : Except Failure α) : Prop :=
  ∃ t t', x.runFrom t = (r, t')

theorem Returns.ends {x : Traced α} {a : α} (h : x.Returns a) : x.Ends (.ok a) :=
  h

theorem ends_runFrom (x : Traced α) (t : Trace) : x.Ends (x.runFrom t).1 :=
  ⟨t, (x.runFrom t).2, rfl⟩

theorem Ends.of_pure {a : α} {r : Except Failure α} (h : (pure a : Traced α).Ends r) :
    r = .ok a := by
  obtain ⟨t, t', h⟩ := h
  cases h
  rfl

theorem Ends.of_lift {x : Except Failure α} {r : Except Failure α} (h : (lift x).Ends r) :
    r = x := by
  obtain ⟨t, t', h⟩ := h
  cases x <;> cases h <;> rfl

/-- A sequence ends as its second part does, or fails with its first part. -/
theorem Ends.of_bind {x : Traced α} {f : α → Traced β} {r : Except Failure β}
    (h : (x >>= f).Ends r) :
    (∃ a, x.Returns a ∧ (f a).Ends r) ∨ ∃ e, r = .error e ∧ x.Ends (.error e) := by
  obtain ⟨t, t', h⟩ := h
  rw [runFrom_bind] at h
  cases hx : x.runFrom t with
  | mk s t₁ =>
    rw [hx] at h
    cases s with
    | ok a => exact .inl ⟨a, ⟨t, t₁, hx⟩, ⟨t₁, t', h⟩⟩
    | error e =>
      cases h
      exact .inr ⟨e, rfl, t, _, hx⟩

/-- A part that only notes where the compilation stands decides nothing. -/
theorem Ends.of_note {f : Unit → Traced β} {r : Except Failure β} {g : Trace → Trace}
    (h : ((modifyThe Trace g : Traced Unit) >>= f).Ends r) : (f ()).Ends r := by
  rcases h.of_bind with ⟨_, _, h⟩ | ⟨e, _, t, t', he⟩
  · exact h
  · cases he

theorem Ends.of_throw {e : Failure} {r : Except Failure α} (h : (throw e : Traced α).Ends r) :
    r = .error e := by
  obtain ⟨t, t', h⟩ := h
  cases h
  rfl

theorem Ends.of_reject {d : Diagnostic} {r : Except Failure α} (h : (reject d : Traced α).Ends r) :
    r = .error (.diagnostic d) :=
  h.of_throw

theorem Ends.of_give {f : Fault} {r : Except Failure α} (h : (give f : Traced α).Ends r) :
    r = .error (.fault f) :=
  h.of_throw

theorem Ends.of_check {x : Except Diagnostic α} {r : Except Failure α} (h : (check x).Ends r) :
    (∃ a, x = .ok a ∧ r = .ok a) ∨ ∃ d, x = .error d ∧ r = .error (.diagnostic d) := by
  cases x with
  | ok a => exact .inl ⟨a, rfl, h.of_pure⟩
  | error d => exact .inr ⟨d, rfl, h.of_reject⟩

/-- A sequence that starts with a check. -/
theorem Ends.of_check_bind {x : Except Diagnostic α} {f : α → Traced β} {r : Except Failure β}
    (h : (check x >>= f).Ends r) :
    (∃ a, x = .ok a ∧ (f a).Ends r) ∨ ∃ d, x = .error d ∧ r = .error (.diagnostic d) := by
  rcases h.of_bind with ⟨a, ha, h⟩ | ⟨e, rfl, he⟩
  · exact .inl ⟨a, ha.of_check, h⟩
  · rcases he.of_check with ⟨a, -, ha⟩ | ⟨d, hd, he⟩
    · cases ha
    · exact .inr ⟨d, hd, by cases he; rfl⟩

theorem runFrom_map (f : α → β) (x : Traced α) (t : Trace) :
    (f <$> x).runFrom t = ((x.runFrom t).1.map f, (x.runFrom t).2) := by
  rw [map_eq_pure_bind, runFrom_bind]
  cases x.runFrom t with
  | mk r t' => cases r <;> rfl

theorem ok_of_runFrom_map {f : α → β} (hf : Function.Injective f) {x : Traced α} {t : Trace}
    {a : α} (h : ((f <$> x).runFrom t).1 = .ok (f a)) : (x.runFrom t).1 = .ok a := by
  rw [runFrom_map] at h
  cases hr : (x.runFrom t).1 with
  | ok b =>
    rw [hr] at h
    rw [hf (Except.ok.inj h)]
  | error e =>
    rw [hr] at h
    cases h

/-- A result that is only wrapped up. -/
theorem ends_map {f : α → β} {x : Traced α} {r : Except Failure β} :
    (f <$> x).Ends r ↔ ∃ r', x.Ends r' ∧ r = r'.map f := by
  constructor
  · rintro ⟨t, t', h⟩
    rw [runFrom_map] at h
    exact ⟨_, x.ends_runFrom t, (Prod.mk.inj h).1.symm⟩
  · rintro ⟨r', ⟨t, t', h⟩, rfl⟩
    exact ⟨t, t', by rw [runFrom_map, h]⟩

/-! ## Loops -/

/-- A list of computations succeeds element by element. -/
theorem Returns.of_mapM {f : α → Traced β} {xs : List α} {ys : List β}
    (h : (xs.mapM f).Returns ys) : List.Forall₂ (fun x y => (f x).Returns y) xs ys := by
  induction xs generalizing ys with
  | nil =>
    rw [List.mapM_nil] at h
    rw [h.of_pure]
    exact .nil
  | cons x xs ih =>
    rw [List.mapM_cons] at h
    obtain ⟨y, hy, h⟩ := h.of_bind
    obtain ⟨ys', hys, h⟩ := h.of_bind
    rw [h.of_pure]
    exact .cons hy (ih hys)

/-- A loop that computes something for each element and then takes a step that may fail: the
computed values, and the loop over the steps alone. -/
theorem Returns.of_foldlM {f : β → Traced γ} {g : α → β → γ → Except Diagnostic α}
    {bs : List β} {a z : α}
    (h : (bs.foldlM (fun a b => f b >>= fun c => check (g a b c)) a).Returns z) :
    ∃ cs, List.Forall₂ (fun b c => (f b).Returns c) bs cs ∧
      (bs.zip cs).foldlM (fun a p => g a p.1 p.2) a = .ok z := by
  induction bs generalizing a with
  | nil =>
    rw [List.foldlM_nil] at h
    rw [h.of_pure]
    exact ⟨[], .nil, rfl⟩
  | cons b bs ih =>
    rw [List.foldlM_cons] at h
    obtain ⟨a', ha', h⟩ := h.of_bind
    obtain ⟨c, hc, hstep⟩ := ha'.of_bind
    obtain ⟨cs, hcs, hrest⟩ := ih h
    refine ⟨c :: cs, .cons hc hcs, ?_⟩
    rw [List.zip_cons_cons, List.foldlM_cons, hstep.of_check]
    exact hrest

/-- A list of computations succeeds element by element, or fails with one of them. -/
theorem Ends.of_mapM {f : α → Traced β} {xs : List α} {r : Except Failure (List β)}
    (h : (xs.mapM f).Ends r) :
    (∃ ys, r = .ok ys ∧ List.Forall₂ (fun x y => (f x).Returns y) xs ys) ∨
      ∃ e, r = .error e ∧ ∃ x ∈ xs, (f x).Ends (.error e) := by
  induction xs generalizing r with
  | nil =>
    rw [List.mapM_nil] at h
    exact .inl ⟨[], h.of_pure, .nil⟩
  | cons x xs ih =>
    rw [List.mapM_cons] at h
    rcases h.of_bind with ⟨y, hy, h⟩ | ⟨e, rfl, he⟩
    · rcases h.of_bind with ⟨ys, hys, h⟩ | ⟨e, rfl, he⟩
      · exact .inl ⟨y :: ys, h.of_pure, .cons hy hys.of_mapM⟩
      · rcases ih he with ⟨ys, hys, -⟩ | ⟨e', he', x', hx', hfail⟩
        · cases hys
        · cases he'
          exact .inr ⟨e, rfl, x', List.mem_cons_of_mem _ hx', hfail⟩
    · exact .inr ⟨e, rfl, x, List.mem_cons_self, he⟩

/-- How a loop fails that computes something for each element and then takes a step: with one of the
computations, or with a step that cannot be taken. Then the loop over the steps alone does not
succeed either, whatever the computations still to come may give. The relation `R` says what each
element gives. -/
theorem Ends.error_of_foldlM {f : β → Traced γ} {g : α → β → γ → Except Diagnostic α}
    {R : β → γ → Prop} (hR : ∀ b c, (f b).Returns c → R b c)
    (hunique : ∀ b c c', R b c → R b c' → c = c') {bs : List β} {a : α} {e : Failure}
    (h : (bs.foldlM (fun a b => f b >>= fun c => check (g a b c)) a).Ends (.error e)) :
    (∃ b ∈ bs, (f b).Ends (.error e)) ∨
      ∃ d, e = .diagnostic d ∧ (∃ a b c, g a b c = .error d) ∧
        ∀ cs, List.Forall₂ R bs cs →
          ∀ z, (bs.zip cs).foldlM (fun a p => g a p.1 p.2) a ≠ .ok z := by
  induction bs generalizing a with
  | nil =>
    rw [List.foldlM_nil] at h
    cases h.of_pure
  | cons b bs ih =>
    rw [List.foldlM_cons] at h
    rcases h.of_bind with ⟨a', ha', h⟩ | ⟨e', he', hfail⟩
    · obtain ⟨c, hc, hstep⟩ := ha'.of_bind
      rcases ih h with ⟨b', hb', hfail⟩ | ⟨d, rfl, hd, hrest⟩
      · exact .inl ⟨b', List.mem_cons_of_mem _ hb', hfail⟩
      · refine .inr ⟨d, rfl, hd, fun cs hcs z hz => ?_⟩
        obtain ⟨c', cs', hc', hcs', rfl⟩ := List.forall₂_cons_left_iff.mp hcs
        rw [hunique b c' c hc' (hR b c hc), List.zip_cons_cons, List.foldlM_cons,
          hstep.of_check] at hz
        exact hrest cs' hcs' z hz
    · cases he'
      rcases hfail.of_bind with ⟨c, hc, hstep⟩ | ⟨e', he', hfail⟩
      · rcases hstep.of_check with ⟨_, -, hok⟩ | ⟨d, hd, he⟩
        · cases hok
        · refine .inr ⟨d, by cases he; rfl, ⟨a, b, c, hd⟩, fun cs hcs z hz => ?_⟩
          obtain ⟨c', cs', hc', hcs', rfl⟩ := List.forall₂_cons_left_iff.mp hcs
          rw [hunique b c' c hc' (hR b c hc), List.zip_cons_cons, List.foldlM_cons, hd] at hz
          cases hz
      · cases he'
        exact .inl ⟨b, List.mem_cons_self, hfail⟩

/-- A loop of steps, each of which does something known. -/
theorem Returns.reflTransGen_of_foldlM {f : α → β → Traced α} {r : α → α → Prop}
    (hstep : ∀ a b a', (f a b).Returns a' → r a a') {bs : List β} {a z : α}
    (h : (bs.foldlM f a).Returns z) : Relation.ReflTransGen r a z := by
  induction bs generalizing a with
  | nil =>
    rw [List.foldlM_nil] at h
    rw [h.of_pure]
  | cons b bs ih =>
    rw [List.foldlM_cons] at h
    obtain ⟨a', ha', h⟩ := h.of_bind
    exact .head (hstep a b a' ha') (ih h)

/-! ## Traces before and after -/

section

variable {I I' J K : Trace → Prop} {E F : Failure → Trace → Prop}

/-- From a trace with the property `I` the computation comes to a trace with the property `J` if it
succeeds. If it fails, the failure and the trace are as `E` says. -/
structure Triple (I : Trace → Prop) (x : Traced α) (J : Trace → Prop) (E : Failure → Trace → Prop) :
    Prop where
  ok : ∀ {t a t'}, I t → x.runFrom t = (.ok a, t') → J t'
  error : ∀ {t e t'}, I t → x.runFrom t = (.error e, t') → E e t'

theorem triple_pure (a : α) : Triple I (pure a) I E := by
  refine ⟨fun hI h => ?_, fun _ h => ?_⟩
  · cases h
    exact hI
  · cases h

/-- A sequence, where the second part is known to start with a result of the first one. -/
theorem Triple.bind_returns {x : Traced α} {f : α → Traced β} (hx : Triple I x J E)
    (hf : ∀ a, x.Returns a → Triple J (f a) K E) : Triple I (x >>= f) K E := by
  -- both parts say what happens after the first computation
  have hcases : ∀ {t r t'}, (x >>= f).runFrom t = (r, t') →
      (∃ a t₁, x.runFrom t = (.ok a, t₁) ∧ (f a).runFrom t₁ = (r, t')) ∨
        ∃ e, r = .error e ∧ x.runFrom t = (.error e, t') := by
    intro t r t' h
    rw [runFrom_bind] at h
    cases hx : x.runFrom t with
    | mk s t₁ =>
      rw [hx] at h
      cases s with
      | ok a => exact .inl ⟨a, t₁, rfl, h⟩
      | error e =>
        cases h
        exact .inr ⟨e, rfl, rfl⟩
  refine ⟨fun hI h => ?_, fun hI h => ?_⟩
  · rcases hcases h with ⟨a, t₁, h₁, h₂⟩ | ⟨e, he, -⟩
    · exact (hf a ⟨_, _, h₁⟩).ok (hx.ok hI h₁) h₂
    · cases he
  · rcases hcases h with ⟨a, t₁, h₁, h₂⟩ | ⟨e, he, h₁⟩
    · exact (hf a ⟨_, _, h₁⟩).error (hx.ok hI h₁) h₂
    · cases he
      exact hx.error hI h₁

theorem Triple.bind {x : Traced α} {f : α → Traced β} (hx : Triple I x J E)
    (hf : ∀ a, Triple J (f a) K E) : Triple I (x >>= f) K E :=
  hx.bind_returns fun a _ => hf a

theorem triple_note {g : Trace → Trace} (hg : ∀ t, I t → J (g t)) :
    Triple I (modifyThe Trace g : Traced Unit) J E := by
  refine ⟨fun hI h => ?_, fun _ h => ?_⟩
  · cases h
    exact hg _ hI
  · cases h

theorem triple_throw {e : Failure} (he : ∀ t, I t → E e t) : Triple I (throw e : Traced α) J E := by
  refine ⟨fun _ h => ?_, fun hI h => ?_⟩
  · cases h
  · cases h
    exact he _ hI

theorem triple_lift {x : Except Failure α} (hx : ∀ e t, x = .error e → I t → E e t) :
    Triple I (lift x) I E := by
  cases x with
  | ok a => exact triple_pure a
  | error e => exact triple_throw fun t => hx e t rfl

theorem triple_check {x : Except Diagnostic α}
    (hx : ∀ d t, x = .error d → I t → E (.diagnostic d) t) : Triple I (check x) I E := by
  cases x with
  | ok a => exact triple_pure a
  | error d => exact triple_throw fun t => hx d t rfl

theorem Triple.mono {x : Traced α} (h : Triple I x J E) (hJ : ∀ t, J t → K t)
    (hE : ∀ e t, E e t → F e t) : Triple I x K F :=
  ⟨fun hI hx => hJ _ (h.ok hI hx), fun hI hx => hE _ _ (h.error hI hx)⟩

theorem Triple.weaken {x : Traced α} (h : Triple I x J E) (hI : ∀ t, I' t → I t) :
    Triple I' x J E :=
  ⟨fun hI' hx => h.ok (hI _ hI') hx, fun hI' hx => h.error (hI _ hI') hx⟩

end

end Traced

end Scalarize
