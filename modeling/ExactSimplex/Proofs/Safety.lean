import ExactSimplex.Arithmetic
import ExactSimplex.Proofs.Calc

/-!
# Safe calculations

A calculation is safe if it never leaves the stored data.  It may still stop because its budget is spent
or because the arithmetic in use refuses a result.  Safety is stated together with what is known of the
result, and it is put together like the calculation itself.

Main results:

- Theorem {lit}`Calc.Safe.bind`: a composed calculation is safe if both parts are.
- Theorem {lit}`Calc.Safe.mapM`: a calculation for every member of a list.
- Theorem {lit}`Calc.safe_firstIndex`: a search whose test is safe.
- Theorem {lit}`Calc.Safe.of_unbudgeted`: without a budget only refused results are left.
-/

namespace ExactSimplex

/-- The exact results that an arithmetic may refuse.  Wrapping arithmetic refuses a single one, which is
the greatest common divisor of two least words. -/
def Arithmetic.Refuses : Arithmetic → Int → Prop
  | exact, _ => False
  | wrapping bits, n => n = halfRange bits
  | checked bits, n => (checked bits).holds n = false

/-- The faults that do not come from the data: a spent budget, and a result that is refused. -/
def Fault.Excused (A : Arithmetic) : Fault → Prop
  | .outOfRange => False
  | .overflow exact => A.Refuses exact
  | .budgetSpent => True

/-- A fault is excused if it is a spent budget or a result that the arithmetic refuses. -/
theorem Fault.excused_iff {A : Arithmetic} {fault : Fault} :
    fault.Excused A ↔ fault = .budgetSpent ∨ ∃ exact, fault = .overflow exact ∧ A.Refuses exact := by
  cases fault <;> simp [Excused]

namespace Calc

variable {A : Arithmetic} {α β : Type} {c : Calc α} {P Q : α → Prop} {R : β → Prop}

/-- What the calculation yields satisfies `P`, and it stops only with an excused fault. -/
def Safe (A : Arithmetic) (c : Calc α) (P : α → Prop) : Prop :=
  match c with
  | .ok a => P a
  | .error fault => fault.Excused A

/-- A finished calculation is safe if its value satisfies the condition. -/
theorem safe_pure {a : α} (h : P a) : Safe A (pure a) P :=
  h

theorem safe_ok_bind {a : α} {f : α → Calc β} (h : Safe A (f a) R) : Safe A (.ok a >>= f) R :=
  h

namespace Safe

/-- The value of a safe calculation satisfies its condition. -/
theorem of_eq_ok (h : Safe A c P) {a : α} (hc : c = .ok a) : P a := by
  rw [hc] at h
  exact h

/-- The fault of a safe calculation is excused. -/
theorem excused (h : Safe A c P) {fault : Fault} (hc : c = .error fault) : fault.Excused A := by
  rw [hc] at h
  exact h

theorem imp (h : Safe A c P) (himp : ∀ a, P a → Q a) : Safe A c Q := by
  cases c with
  | ok a => exact himp a h
  | error fault => exact h

/-- The result of a safe calculation is its result. -/
theorem with_eq (h : Safe A c P) : Safe A c fun a => c = .ok a ∧ P a := by
  cases c with
  | ok a => exact ⟨rfl, h⟩
  | error fault => exact h

/-- The second part has to be safe where the first one leads. -/
theorem bind {f : α → Calc β} (h : Safe A c P) (hf : ∀ a, P a → Safe A (f a) R) :
    Safe A (c >>= f) R := by
  cases c with
  | ok a => exact hf a h
  | error fault => exact h

/-- A function of the value carries the condition over. -/
theorem map {f : α → β} (h : Safe A c P) (hf : ∀ a, P a → R (f a)) : Safe A (f <$> c) R := by
  cases c with
  | ok a => exact hf a h
  | error fault => exact h

/-! ## Lists and searches -/

/-- A safe calculation for every member of a list yields the list of the results, by induction on the
list. -/
theorem mapM [Inhabited β] {f : α → Calc β} {l : List α} {R : α → β → Prop}
    (h : ∀ a ∈ l, Safe A (f a) (R a)) :
    Safe A (l.mapM f) fun results =>
      ∃ g, results = l.map g ∧ ∀ a ∈ l, f a = .ok (g a) ∧ R a (g a) := by
  have hvalue : ∀ a b, f a = .ok b → (f a).toOption.getD default = b := by
    intro a b hb
    rw [hb]
    rfl
  suffices hresults : Safe A (l.mapM f) fun results =>
      results = l.map (fun a => (f a).toOption.getD default) ∧
        ∀ a ∈ l, ∃ b, f a = .ok b ∧ R a b by
    refine hresults.imp fun results hresults => ⟨_, hresults.1, fun a ha => ?_⟩
    rcases hresults.2 a ha with ⟨b, hb, hR⟩
    rw [hvalue a b hb]
    exact ⟨hb, hR⟩
  induction l with
  | nil => exact safe_pure ⟨rfl, by simp⟩
  | cons a l ih =>
      rw [List.mapM_cons]
      refine (h a List.mem_cons_self).with_eq.bind fun b hb => ?_
      refine (ih fun a' ha' => h a' (List.mem_cons_of_mem a ha')).bind fun results hresults => ?_
      refine safe_pure ⟨?_, ?_⟩
      · rw [List.map_cons, hvalue a b hb.1, hresults.1]
      · rw [List.forall_mem_cons]
        exact ⟨⟨b, hb⟩, hresults.2⟩

end Safe

/-- A search whose test is safe finds an index of its range that passes. -/
theorem safe_firstIndex {test : ℕ → Calc Bool} {p : ℕ → Prop} {start count : ℕ}
    (htest : ∀ i, start ≤ i → i < start + count → Safe A (test i) fun passed => passed = true → p i) :
    Safe A (firstIndex test start count) fun found =>
      ∀ i, found = some i → start ≤ i ∧ i < start + count ∧ p i := by
  induction count generalizing start with
  | zero =>
      intro i hi
      cases hi
  | succ count ih =>
      rw [firstIndex_succ]
      refine (htest start (Nat.le_refl start) (by omega)).bind fun passed hpassed => ?_
      cases passed with
      | true =>
          refine safe_pure fun i hi => ?_
          obtain rfl := Option.some.inj hi
          exact ⟨Nat.le_refl start, by omega, hpassed rfl⟩
      | false =>
          refine (ih fun i hi hlt => htest i (by omega) (by omega)).imp fun found hfound i hi => ?_
          rcases hfound i hi with ⟨hle, hlt, hp⟩
          exact ⟨by omega, by omega, hp⟩

/-! ## Calculations without a budget -/

/-- The calculation does not stop because of a spent budget. -/
def Unbudgeted (c : Calc α) : Prop :=
  c ≠ .error .budgetSpent

/-- A safe calculation without a budget yields its result, or the arithmetic refuses one. -/
theorem Safe.of_unbudgeted (h : Safe A c P) (hc : Unbudgeted c) :
    (∃ a, c = .ok a ∧ P a) ∨ ∃ n, c = .error (.overflow n) ∧ A.Refuses n := by
  cases hrun : c with
  | ok a => exact Or.inl ⟨a, rfl, h.of_eq_ok hrun⟩
  | error fault =>
      rcases Fault.excused_iff.mp (h.excused hrun) with rfl | ⟨n, rfl, hn⟩
      · exact absurd hrun hc
      · exact Or.inr ⟨n, rfl, hn⟩

/-- A finished calculation has not spent a budget. -/
theorem unbudgeted_ok (a : α) : Unbudgeted (.ok a : Calc α) := by
  simp [Unbudgeted]

/-- A look-up spends no budget. -/
theorem unbudgeted_fetch (found : Option α) : Unbudgeted (fetch found) := by
  cases found <;> simp [Unbudgeted]

namespace Unbudgeted

/-- A composed calculation spends a budget only in one of its parts. -/
theorem bind {f : α → Calc β} (h : Unbudgeted c) (hf : ∀ a, Unbudgeted (f a)) : Unbudgeted (c >>= f) := by
  cases c with
  | ok a => exact hf a
  | error fault =>
      intro hrun
      cases hrun
      exact h rfl

/-- By induction on the list. -/
theorem mapM {f : α → Calc β} (h : ∀ a, Unbudgeted (f a)) (l : List α) : Unbudgeted (l.mapM f) := by
  induction l with
  | nil => exact unbudgeted_ok []
  | cons a l ih =>
      rw [List.mapM_cons]
      exact (h a).bind fun b => ih.bind fun results => unbudgeted_ok _

end Unbudgeted
end Calc
end ExactSimplex
