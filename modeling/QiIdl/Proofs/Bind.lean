import Mathlib.Data.List.Forall2

/-!
# One thing after the other

Operations and readers are the same kind of thing: they succeed or fail, and leave a state behind either way. What
one gives is what the next one starts with, and this is all that is known of a sequence.
-/

namespace QiIdl

variable {ε σ β γ : Type} {op : EStateM ε σ β} {f : β → EStateM ε σ γ} {m m₁ m' : σ}

/-- What an operation gives is what the next one starts with. -/
theorem bind_of_ok {b : β} (h : op m = .ok b m₁) : (op >>= f) m = f b m₁ := by
  simp only [bind, EStateM.bind, h]

theorem bind_of_error {e : ε} (h : op m = .error e m₁) : (op >>= f) m = .error e m₁ := by
  simp only [bind, EStateM.bind, h]

theorem bind_eq_ok {c : γ} : (op >>= f) m = .ok c m' ↔ ∃ b m₁, op m = .ok b m₁ ∧ f b m₁ = .ok c m' := by
  cases h : op m with
  | ok b m₁ =>
    rw [bind_of_ok h]
    constructor
    · exact fun hf => ⟨b, m₁, rfl, hf⟩
    · rintro ⟨b', m₂, heq, hf⟩
      cases heq
      exact hf
  | error e m₁ =>
    rw [bind_of_error h]
    constructor
    · exact nofun
    · rintro ⟨b', m₂, heq, -⟩
      cases heq

theorem bind_eq_error {e : ε} : (op >>= f) m = .error e m' ↔
    op m = .error e m' ∨ ∃ b m₁, op m = .ok b m₁ ∧ f b m₁ = .error e m' := by
  cases h : op m with
  | ok b m₁ =>
    rw [bind_of_ok h]
    constructor
    · exact fun hf => .inr ⟨b, m₁, rfl, hf⟩
    · rintro (heq | ⟨b', m₂, heq, hf⟩)
      · cases heq
      · cases heq
        exact hf
  | error e₁ m₁ =>
    rw [bind_of_error h]
    constructor
    · intro heq
      cases heq
      exact .inl rfl
    · rintro (heq | ⟨b', m₂, heq, -⟩)
      · cases heq
        rfl
      · cases heq

/-- What is made from some things, one by one, is made from one of these. -/
theorem exists_of_forall₂ {R : β → γ → Prop} {bs : List β} {cs : List γ} (h : List.Forall₂ R bs cs) {c : γ}
    (hc : c ∈ cs) : ∃ b ∈ bs, R b c := by
  induction h with
  | nil => cases hc
  | cons hfirst _ ih =>
    rcases List.mem_cons.mp hc with rfl | hc
    · exact ⟨_, List.mem_cons_self, hfirst⟩
    · obtain ⟨b, hb, hR⟩ := ih hc
      exact ⟨b, List.mem_cons_of_mem _ hb, hR⟩

/-- Lists of things that are seen alike are seen alike. -/
theorem map_eq_of_forall₂ {δ : Type} {R : β → γ → Prop} {bs : List β} {cs : List γ} {f : β → δ} {g : γ → δ}
    (h : ∀ b c, R b c → f b = g c) (hbs : List.Forall₂ R bs cs) : bs.map f = cs.map g := by
  rw [← List.forall₂_eq_eq_eq, List.forall₂_map_left_iff, List.forall₂_map_right_iff]
  exact hbs.imp h

/-- An outcome that passes a test is a result. -/
theorem exists_ok_of_any {ε β : Type} {r : Except ε β} {p : β → Bool} (h : r.toOption.any p = true) :
    ∃ b, r = .ok b ∧ p b = true := by
  cases r with
  | error e => cases h
  | ok b => exact ⟨b, rfl, h⟩

end QiIdl
