import ExactSimplex.Proofs.Calc
import Mathlib.Tactic.GCongr

/-!
# Calculations on more data

A calculation that stays within its data does not notice when more data are stored beyond them: it has the
same result, or stops for the same reason.  The relation between the two goes through every way of putting
calculations together.

Main results:

- Theorem {lit}`Calc.Persists.bind`: the outcome of a composed calculation persists if those of its parts do.
- Theorems {lit}`Calc.Persists.firstIndex` and {lit}`Calc.Persists.allIndices`: searches and checks.
-/

namespace ExactSimplex
namespace Calc

/-- Unless the first calculation leaves the stored data, the second one stops with the same fault or yields
a related result. -/
def Persists {α β : Type} (R : α → β → Prop) (c : Calc α) (c' : Calc β) : Prop :=
  match c with
  | .ok a => ∃ b, c' = .ok b ∧ R a b
  | .error .outOfRange => True
  | .error fault => c' = .error fault

namespace Persists

variable {α β γ δ : Type} {R : α → β → Prop} {Q : γ → δ → Prop} {c : Calc α} {c' : Calc β}

theorem pure {a : α} {b : β} (h : R a b) : Persists R (pure a) (pure b) :=
  ⟨b, rfl, h⟩

/-- What the first calculation returns, the second one does up to the relation. -/
theorem of_eq_ok (h : Persists R c c') {a : α} (hc : c = .ok a) : ∃ b, c' = .ok b ∧ R a b := by
  rw [hc] at h
  exact h

/-- A result of the second calculation is that of the first if the first stays within its data. -/
theorem exists_eq_ok (h : Persists R c c') (hc : c ≠ .error .outOfRange) {b : β} (hc' : c' = .ok b) :
    ∃ a, c = .ok a ∧ R a b := by
  rcases c with (_ | _ | _) | a
  · exact absurd rfl hc
  · obtain rfl : c' = _ := h
    cases hc'
  · obtain rfl : c' = _ := h
    cases hc'
  · rcases h with ⟨b', hb', hR⟩
    rw [hb', Except.ok.injEq] at hc'
    exact ⟨a, rfl, hc' ▸ hR⟩

/-- Related parts make related calculations. -/
theorem bind {f : α → Calc γ} {f' : β → Calc δ} (h : Persists R c c')
    (hf : ∀ a b, R a b → Persists Q (f a) (f' b)) : Persists Q (c >>= f) (c' >>= f') := by
  rcases c with (_ | _ | _) | a
  · trivial
  · obtain rfl : c' = _ := h
    rfl
  · obtain rfl : c' = _ := h
    rfl
  · rcases h with ⟨b, rfl, hab⟩
    exact hf a b hab

/-! ## The same results -/

variable {d d' e e' : Calc α}

@[refl]
theorem refl (d : Calc α) : Persists Eq d d := by
  rcases d with (_ | _ | _) | a
  · trivial
  · rfl
  · rfl
  · exact ⟨a, rfl, rfl⟩

/-- A calculation with the result of the one before, where that persists. -/
theorem bind_same {f f' : α → Calc γ} {Q : γ → γ → Prop} (h : Persists Eq d d')
    (hf : ∀ a, Persists Q (f a) (f' a)) : Persists Q (d >>= f) (d' >>= f') := by
  refine h.bind ?_
  rintro a _ rfl
  exact hf a

/-- The case of equal values in the first part. -/
@[gcongr]
theorem bind_eq {f f' : α → Calc γ} (h : Persists Eq d d') (hf : ∀ a, Persists Eq (f a) (f' a)) :
    Persists Eq (d >>= f) (d' >>= f') :=
  h.bind_same hf

/-- A function of equal values. -/
@[gcongr]
theorem map_eq {f : α → γ} (h : Persists Eq d d') : Persists Eq (f <$> d) (f <$> d') := by
  rw [map_eq_pure_bind, map_eq_pure_bind]
  exact h.bind_eq fun a => refl _

/-- Both branches of a decision persist. -/
@[gcongr]
theorem ite {p : Prop} [Decidable p] (h : Persists Eq d d') (h' : Persists Eq e e') :
    Persists Eq (if p then d else e) (if p then d' else e') := by
  split
  · exact h
  · exact h'

/-! ## Searches -/

/-- The tests of a search, by induction on their number; the first success ends both searches. -/
@[gcongr]
theorem firstIndex {test test' : ℕ → Calc Bool} (htest : ∀ i, Persists Eq (test i) (test' i))
    (start count : ℕ) :
    Persists Eq (ExactSimplex.firstIndex test start count)
      (ExactSimplex.firstIndex test' start count) := by
  induction count generalizing start with
  | zero => rfl
  | succ count ih =>
      rw [firstIndex_succ, firstIndex_succ]
      gcongr
      · exact htest start
      · exact ih (start + 1)

/-- The tests of a range, by induction on their number; the first failure ends both checks. -/
@[gcongr]
theorem allIndices {test test' : ℕ → Calc Bool} (htest : ∀ i, Persists Eq (test i) (test' i))
    (start count : ℕ) :
    Persists Eq (ExactSimplex.allIndices test start count)
      (ExactSimplex.allIndices test' start count) := by
  induction count generalizing start with
  | zero => rfl
  | succ count ih =>
      rw [allIndices_succ, allIndices_succ]
      gcongr
      · exact htest start
      · exact ih (start + 1)

end Persists
end Calc
end ExactSimplex
