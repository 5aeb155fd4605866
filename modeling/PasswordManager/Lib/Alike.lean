import Mathlib.Logic.Relation
import Mathlib.Tactic.Common

/-!
# Programs and machines that run alike

A relation between the results of two programs that may stop, and one between the states of two machines.
-/

namespace Alike

universe u

variable {ε : Type*} {α β γ δ : Type u}

/-- Both stop with the same error, or both have results that are related. -/
inductive Results (R : α → β → Prop) : Except ε α → Except ε β → Prop
  | ok {a : α} {b : β} (h : R a b) : Results R (.ok a) (.ok b)
  | error (e : ε) : Results R (.error e) (.error e)

section
variable {R : α → β → Prop} {Q : γ → δ → Prop} {x : Except ε α} {y : Except ε β}

theorem Results.bind {f : α → Except ε γ} {g : β → Except ε δ} (h : Results R x y)
    (hnext : ∀ a b, R a b → Results Q (f a) (g b)) : Results Q (x >>= f) (y >>= g) := by
  cases h with
  | ok h => exact hnext _ _ h
  | error e => exact .error e

theorem Results.ite {c : Prop} [Decidable c] {x' : Except ε α} {y' : Except ε β} (h : Results R x y)
    (h' : Results R x' y') : Results R (if c then x else x') (if c then y else y') := by
  split
  · exact h
  · exact h'

theorem Results.of_ok {a : α} (h : Results R (.ok a) y) : ∃ b, y = .ok b ∧ R a b := by
  cases h with
  | ok h => exact ⟨_, rfl, h⟩

theorem Results.mono {R' : α → β → Prop} (h : Results R x y) (hmono : ∀ a b, R a b → R' a b) :
    Results R' x y := by
  cases h with
  | ok h => exact .ok (hmono _ _ h)
  | error e => exact .error e

/-- Two programs run alike when each runs like a third one. -/
theorem Results.meet {S : γ → β → Prop} {z : Except ε γ} (h : Results R x y) (h' : Results S z y) :
    Results (fun a c => ∃ b, R a b ∧ S c b) x z := by
  cases h with
  | ok h =>
    cases h' with
    | ok h' => exact .ok ⟨_, h, h'⟩
  | error e =>
    cases h' with
    | error e => exact .error e

theorem Results.swap (h : Results R x y) : Results (fun b a => R a b) y x := by
  cases h with
  | ok h => exact .ok h
  | error e => exact .error e

end

/-! ## Runs -/

section
variable {σ τ : Type*} {next : σ → σ → Prop} {next' : τ → τ → Prop} {R : σ → τ → Prop}

/-- What every step of one machine can do in the other one, every run can. -/
theorem runs (hstep : ∀ s s' t, R s t → next s s' → ∃ t', next' t t' ∧ R s' t') {s s' : σ} {t : τ}
    (hrun : Relation.ReflTransGen next s s') (h : R s t) :
    ∃ t', Relation.ReflTransGen next' t t' ∧ R s' t' := by
  induction hrun with
  | refl => exact ⟨t, .refl, h⟩
  | tail _ hlast ih =>
    obtain ⟨t', hrun', h'⟩ := ih
    obtain ⟨t'', hlast', h''⟩ := hstep _ _ _ h' hlast
    exact ⟨t'', hrun'.tail hlast', h''⟩

end

/-! ## Runs of calls -/

section
variable {σ τ κ : Type*} {next : σ → κ → σ → Prop} {next' : τ → κ → τ → Prop} {R : σ → τ → Prop}

/-- The calls lead from the first state to the last one. -/
inductive Traces (next : σ → κ → σ → Prop) (s : σ) : List κ → σ → Prop
  | nil : Traces next s [] s
  | snoc {calls : List κ} {call : κ} {s' s'' : σ} (h : Traces next s calls s') (hlast : next s' call s'') :
      Traces next s (calls ++ [call]) s''

/-- What every call does in one machine the same call can do in the other one, and so can any calls. -/
theorem Traces.alike {s s' : σ} {calls : List κ} (hrun : Traces next s calls s')
    (hstep : ∀ s call s' t, R s t → next s call s' → ∃ t', next' t call t' ∧ R s' t') {t : τ} (h : R s t) :
    ∃ t', Traces next' t calls t' ∧ R s' t' := by
  induction hrun with
  | nil => exact ⟨t, .nil, h⟩
  | snoc _ hlast ih =>
    obtain ⟨t', hrun', h'⟩ := ih
    obtain ⟨t'', hlast', h''⟩ := hstep _ _ _ _ h' hlast
    exact ⟨t'', hrun'.snoc hlast', h''⟩

theorem Traces.steps {step : σ → σ → Prop} {s s' : σ} {calls : List κ}
    (hrun : Traces (fun s _ s' => step s s') s calls s') : Relation.ReflTransGen step s s' := by
  induction hrun with
  | nil => exact .refl
  | snoc _ hlast ih => exact ih.tail hlast

/-- What every call of a kind keeps, calls of that kind keep. -/
theorem Traces.keeps {P : σ → Prop} {kind : κ → Prop} {s s' : σ} {calls : List κ}
    (hrun : Traces next s calls s') (hstep : ∀ s call s', P s → kind call → next s call s' → P s')
    (hkind : ∀ call ∈ calls, kind call) (h : P s) : P s' := by
  induction hrun with
  | nil => exact h
  | snoc _ hlast ih =>
    have hbefore := ih fun call hcall => hkind call (List.mem_append_left _ hcall)
    exact hstep _ _ _ hbefore (hkind _ (List.mem_append_right _ (List.mem_singleton_self _))) hlast

end

/-! ## Two components on one state -/

section
variable {σ τ υ κ μ : Type*} {next : σ → κ ⊕ μ → σ → Prop} {left : τ → κ → τ → Prop}
  {right : υ → μ → υ → Prop} {R : σ → τ → Prop} {Q : σ → υ → Prop}

/-- When the calls of each component keep what the state shows of the other one, each runs as if it were
alone, in whatever order the calls come. -/
theorem Traces.apart
    (hleft : ∀ s call s' t u, R s t → Q s u → next s (.inl call) s' →
      (∃ t', left t call t' ∧ R s' t') ∧ Q s' u)
    (hright : ∀ s call s' t u, R s t → Q s u → next s (.inr call) s' →
      R s' t ∧ ∃ u', right u call u' ∧ Q s' u')
    {s s' : σ} {calls : List (κ ⊕ μ)} (hrun : Traces next s calls s') {t : τ} {u : υ} (ht : R s t)
    (hu : Q s u) :
    ∃ t' u', Traces left t (calls.filterMap Sum.getLeft?) t' ∧
      Traces right u (calls.filterMap Sum.getRight?) u' ∧ R s' t' ∧ Q s' u' := by
  induction hrun with
  | nil => exact ⟨t, u, .nil, .nil, ht, hu⟩
  | @snoc calls call s' s'' _ hlast ih =>
    obtain ⟨t', u', hleft', hright', ht', hu'⟩ := ih
    rw [List.filterMap_append, List.filterMap_append]
    cases call with
    | inl call =>
      obtain ⟨⟨t'', hlast', ht''⟩, hu''⟩ := hleft _ _ _ _ _ ht' hu' hlast
      rw [show [Sum.inl call].filterMap (Sum.getRight? (α := κ) (β := μ)) = [] from rfl, List.append_nil]
      exact ⟨t'', u', hleft'.snoc hlast', hright', ht'', hu''⟩
    | inr call =>
      obtain ⟨ht'', u'', hlast', hu''⟩ := hright _ _ _ _ _ ht' hu' hlast
      rw [show [Sum.inr call].filterMap (Sum.getLeft? (α := κ) (β := μ)) = [] from rfl, List.append_nil]
      exact ⟨t', u'', hleft', hright'.snoc hlast', ht'', hu''⟩

end

end Alike
