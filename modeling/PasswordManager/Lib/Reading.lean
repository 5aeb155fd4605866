import Mathlib.Data.List.Infix
import Mathlib.Tactic.Common

/-!
# Programs that read words

A program takes words from an input, and ends with a value or an error. What it took stays
visible, whichever way it ends.
-/

universe u v w

structure Reading (ω : Type u) (ε : Type v) (α : Type w) where
  taken : List ω
  outcome : Except ε α

namespace Reading

variable {ω : Type u} {ε : Type v}

instance : Monad (Reading ω ε) where
  pure a := ⟨[], .ok a⟩
  bind x f :=
    match x.outcome with
    | .error e => ⟨x.taken, .error e⟩
    | .ok a => ⟨x.taken ++ (f a).taken, (f a).outcome⟩

def take (word : ω) : Reading ω ε PUnit := ⟨[word], .ok ⟨⟩⟩

def stop {α : Type w} (e : ε) : Reading ω ε α := ⟨[], .error e⟩

def orStop {α : Type w} (e : ε) : Option α → Reading ω ε α
  | none => stop e
  | some a => pure a

/-! ## Two programs -/

/-- `x` ends as `y` does, up to `g`. It ends with `fault` exactly when it took a bad word, and it
takes its words from `input`, of which `rest` is left. -/
structure Follows {α β : Type w} (bad : ω → Prop) (fault : ε) (input : List ω) (rest : β → List ω)
    (g : β → α) (x : Reading ω ε α) (y : Except ε β) : Prop where
  outcome : x.outcome = y.map g
  exact_fault : x.outcome = .error fault ↔ ∃ word ∈ x.taken, bad word
  taken : x.taken <+: input
  rest : ∀ b, y = .ok b → input = x.taken ++ rest b

section
variable {α β γ δ : Type w} {bad : ω → Prop} {fault : ε} {input : List ω} {rest : β → List ω}

theorem Follows.pure {g : β → α} {a : α} {b : β} (hg : a = g b) (h : input = rest b) :
    Follows bad fault input rest g (pure a) (pure b) where
  outcome := by rw [hg]; rfl
  exact_fault := by simp [Pure.pure]
  taken := List.nil_prefix
  rest := by
    intro b' hb'
    cases hb'
    exact h

theorem Follows.stop {g : β → α} {e : ε} (h : e ≠ fault) :
    Follows bad fault input rest g (stop e) (.error e) where
  outcome := rfl
  exact_fault := by simp [Reading.stop, h]
  taken := List.nil_prefix
  rest := by simp

theorem Follows.ite {g : β → α} {c : Prop} [Decidable c] {x x' : Reading ω ε α} {y y' : Except ε β}
    (hx : c → Follows bad fault input rest g x y) (hx' : ¬ c → Follows bad fault input rest g x' y') :
    Follows bad fault input rest g (if c then x else x') (if c then y else y') := by
  by_cases h : c
  · rw [if_pos h, if_pos h]
    exact hx h
  · rw [if_neg h, if_neg h]
    exact hx' h

theorem Follows.orStop {g : δ → γ} {rest' : δ → List ω} {e : ε} {o : Option α} {a : α}
    {f : α → Reading ω ε γ} {y : Except ε δ} (h : o = some a)
    (hf : Follows bad fault input rest' g (f a) y) :
    Follows bad fault input rest' g (orStop e o >>= f) y := by
  subst h
  exact hf

/-- Programs that follow others do so in sequence. -/
theorem Follows.bind {g : β → α} {k : δ → γ} {x : Reading ω ε α} {y : Except ε β}
    {f : α → Reading ω ε γ} {h : β → Except ε δ} {rest' : δ → List ω}
    (hx : Follows bad fault input rest g x y)
    (hf : ∀ b, y = .ok b → Follows bad fault (rest b) rest' k (f (g b)) (h b)) :
    Follows bad fault input rest' k (x >>= f) (y >>= h) := by
  obtain ⟨taken, outcome⟩ := x
  obtain ⟨houtcome, hexact, htaken, hrest⟩ := hx
  dsimp only at houtcome hexact htaken hrest
  subst houtcome
  cases y with
  | error e =>
    have hfault : (Except.error e : Except ε γ) = .error fault ↔ ∃ word ∈ taken, bad word := by
      simpa [Except.map] using hexact
    exact ⟨rfl, hfault, htaken, by simp [Bind.bind, Except.bind]⟩
  | ok b =>
    obtain ⟨houtcome', hexact', htaken', hrest'⟩ := hf b rfl
    have hinput := hrest b rfl
    have hgood : ¬ ∃ word ∈ taken, bad word := by
      rw [← hexact]
      simp [Except.map]
    refine ⟨houtcome', ?_, ?_, fun d hd => ?_⟩
    · refine hexact'.trans ⟨fun ⟨word, hword, hbad⟩ => ⟨word, List.mem_append_right _ hword, hbad⟩, ?_⟩
      rintro ⟨word, hword, hbad⟩
      rcases List.mem_append.mp hword with hword | hword
      · exact absurd ⟨word, hword, hbad⟩ hgood
      · exact ⟨word, hword, hbad⟩
    · rw [hinput]
      exact List.prefix_append_right_inj _ |>.mpr htaken'
    · rw [hinput, hrest' d hd, ← List.append_assoc]
      rfl

end

end Reading
