import ExactSimplex.Proofs.Simplex.Run

/-!
# Exchanges of basic variables

A canonical state is an exact tableau with a canonical basis.  A pivot leads from one canonical state
to another, and it exchanges one basic variable.  A sequence of exchanges that comes back to the set it
started with takes out every variable that it puts in.

Main results:

- Theorem {lit}`CanonicalState.pivot_enter`: a pivot on a nonzero entry never fails and leads to a
  canonical state.
- Theorem {lit}`CanonicalState.corner_eq`: the set of basic columns determines the objective value.
- Theorem {lit}`Cycle.exists_last`: the last variable that enters in a cycle of exchanges also leaves.
-/

namespace ExactSimplex

open Finset

/-! ## Canonical states -/

/-- A well formed tableau with a canonical basis that states the linear program of `M`. -/
structure CanonicalState (m n : ℕ) (M : Values) (s : State) : Prop where
  tableau : s.1.Represents m n s.1.values
  basis : s.2.Represents m s.2.basic
  canonical : s.1.values.Canonical m n s.2.basic
  equivalent : Values.Equivalent m n M s.1.values

/-- The state after column `h` has entered the basis in row `t`. -/
structure Exchange (s s' : State) (h t : ℕ) : Prop where
  values : s'.1.values = s.1.values.pivot h t .all
  basic : s'.2.basic = Function.update s.2.basic t h

variable {m n : ℕ} {M : Values} {s s' : State}

/-- The objective row after the exchange. -/
theorem Exchange.cost {h t : ℕ} (hex : Exchange s s' h t) (ht : 1 ≤ t) (j : ℕ) :
    s'.1.values 0 j =
      s.1.values 0 j - s.1.values 0 h * (s.1.values t j / s.1.values t h) := by
  have hne : 0 ≠ t := (Nat.lt_of_lt_of_le Nat.zero_lt_one ht).ne
  rw [hex.values, Values.pivot_of_ne _ h j hne]

/-- No row has the right-hand side as its basic variable. -/
def BasicPos (m : ℕ) (s : State) : Prop :=
  ∀ i, 1 ≤ i → i ≤ m → 1 ≤ s.2.basic i

/-- If a variable enters, the basis still consists of variables. -/
theorem BasicPos.exchange {h t : ℕ} (hs : BasicPos m s) (hex : Exchange s s' h t) (hh : 1 ≤ h) :
    BasicPos m s' := by
  intro i hi him
  rw [hex.basic]
  by_cases hit : i = t
  · rwa [hit, Function.update_self]
  · rw [Function.update_of_ne hit]
    exact hs i hi him

/-- The test for a canonical basis makes a state canonical for its own linear program. -/
theorem Tableau.WellFormed.canonicalState {T : Tableau} {B : Basis} (hT : T.WellFormed)
    (hB : T.isCanonical .exact B = .ok true) :
    CanonicalState T.constraints T.columns T.values (T, B) where
  tableau := hT.represents
  basis := (hT.represents.isCanonical_iff.mp hB).1
  canonical := (hT.represents.isCanonical_iff.mp hB).2
  equivalent := .refl _ _ _

namespace CanonicalState

/-- A basis of variables has no row that belongs to the right-hand side. -/
theorem basicPos (hs : CanonicalState m n M s) (h : ∀ c ∈ s.2.columns, 1 ≤ c) : BasicPos m s := by
  intro i hi him
  exact h _ (hs.basis.mem_columns.mpr ⟨i, hi, him, rfl⟩)

/-- A pivot on a nonzero entry and the entering of its column never fail and lead to a canonical
state. -/
theorem pivot_enter (hs : CanonicalState m n M s) {h t : ℕ} (hh : h ≤ n) (ht : 1 ≤ t) (htm : t ≤ m)
    (hne : s.1.values t h ≠ 0) :
    ∃ U C, s.1.pivot .exact h t .all = .ok U ∧ s.2.enter t h = .ok C ∧
      CanonicalState m n M (U, C) ∧ Exchange s (U, C) h t := by
  obtain ⟨U, hU, hUM⟩ := hs.tableau.pivot hh htm .all fun i hi => by cases hi
  rcases hs.basis.enter ht htm h with ⟨C, hC, hCβ⟩
  have hvalues : U.values = s.1.values.pivot h t .all := hUM.values
  have hbasic : C.basic = Function.update s.2.basic t h := hCβ.basic
  refine ⟨U, C, hU, hC, ⟨?_, ?_, ?_, ?_⟩, hvalues, hbasic⟩
  · rwa [hvalues]
  · rwa [hbasic]
  · rw [hvalues, hbasic]
    exact hs.canonical.pivot hh htm hne
  · rw [hvalues]
    exact hs.equivalent.trans (Values.equivalent_pivot ht htm hne .all)

/-- A pivot on a nonzero number leads from a canonical state to another one. -/
theorem takePivot (hs : CanonicalState m n M s) {h t : ℕ} (hh : h ≤ n) (ht : 1 ≤ t) (htm : t ≤ m)
    (hne : s.1.values t h ≠ 0) :
    ∃ s' leaving element, takePivot .exact s.1 s.2 h t = .ok (s'.1, s'.2, leaving, element) ∧
      CanonicalState m n M s' ∧ Exchange s s' h t := by
  rcases hs.pivot_enter hh ht htm hne with ⟨U, C, hU, hC, hs', hex⟩
  refine ⟨(U, C), s.2.basic t, Fraction.ofRat (s.1.values t h), ?_, hs', hex⟩
  simp only [ExactSimplex.takePivot, hs.basis.inRow ht htm, hs.tableau.get htm hh, hU, hC, bind,
    Except.bind, pure, Except.pure]

/-- The basic columns of a canonical state are those of its rows. -/
theorem mem_basicColumns (hs : CanonicalState m n M s) {j : ℕ} :
    j ∈ basicColumns s ↔ ∃ i, 1 ≤ i ∧ i ≤ m ∧ s.2.basic i = j := by
  unfold basicColumns
  rw [List.mem_toFinset, hs.basis.mem_columns]

/-- The basic variable of a row is a basic column. -/
theorem basic_mem (hs : CanonicalState m n M s) {i : ℕ} (hi : 1 ≤ i) (him : i ≤ m) :
    s.2.basic i ∈ basicColumns s :=
  hs.mem_basicColumns.mpr ⟨i, hi, him, rfl⟩

/-- The basic columns are columns of the tableau. -/
theorem basicColumns_subset (hs : CanonicalState m n M s) : basicColumns s ⊆ range (n + 1) := by
  intro j hj
  rcases hs.mem_basicColumns.mp hj with ⟨i, hi, him, rfl⟩
  exact mem_range.mpr (Nat.lt_succ_of_le (hs.canonical.basic_le i hi him))

/-- The reduced cost of a basic column is zero. -/
theorem cost_eq_zero (hs : CanonicalState m n M s) {j : ℕ} (hj : j ∈ basicColumns s) :
    s.1.values 0 j = 0 := by
  rcases hs.mem_basicColumns.mp hj with ⟨i, hi, him, rfl⟩
  rw [hs.canonical.unit i hi him 0 (Nat.zero_le m), if_neg (by omega)]

/-- A basic column is the unit vector of a row. -/
theorem not_mem_of_entry (hs : CanonicalState m n M s) {i j : ℕ} (him : i ≤ m)
    (hij : s.2.basic i ≠ j) (hne : s.1.values i j ≠ 0) : j ∉ basicColumns s := by
  intro hj
  rcases hs.mem_basicColumns.mp hj with ⟨k, hk, hkm, rfl⟩
  have hik : i ≠ k := fun h => hij (h ▸ rfl)
  exact hne (by rw [hs.canonical.unit k hk hkm i him, if_neg hik])

/-- A column with a negative constraint entry is not basic. -/
theorem not_mem_of_entry_neg (hs : CanonicalState m n M s) {i j : ℕ} (him : i ≤ m)
    (hneg : s.1.values i j < 0) : j ∉ basicColumns s := by
  intro hj
  rcases hs.mem_basicColumns.mp hj with ⟨k, hk, hkm, rfl⟩
  rw [hs.canonical.unit k hk hkm i him] at hneg
  split at hneg <;> linarith

/-- The basic point solves the linear program. -/
theorem satisfies_basicPoint (hs : CanonicalState m n M s) (hpos : BasicPos m s) :
    M.Satisfies m n (s.1.values.basicPoint m s.2.basic) :=
  (hs.equivalent.satisfies_iff _).mpr (hs.canonical.satisfies_basicPoint hpos)

/-- The basic point costs what the objective row shows. -/
theorem cost_basicPoint (hs : CanonicalState m n M s) (hpos : BasicPos m s) :
    M.cost n (s.1.values.basicPoint m s.2.basic) = -s.1.values 0 0 := by
  rw [hs.equivalent.cost_eq (hs.satisfies_basicPoint hpos)]
  exact hs.canonical.cost_basicPoint hpos

/-- Without a negative reduced cost no nonnegative solution costs less than the objective row shows. -/
theorem cost_le (hs : CanonicalState m n M s) (hcosts : ∀ j, 1 ≤ j → j ≤ n → 0 ≤ s.1.values 0 j)
    {x : ℕ → ℚ} (hx : Nonneg n x) (hsat : M.Satisfies m n x) : -s.1.values 0 0 ≤ M.cost n x := by
  rw [hs.equivalent.cost_eq hsat]
  exact Values.cost_le hcosts hx

/-- The first `k` listed values are those of the basic point. -/
theorem basicSolution (hs : CanonicalState m n M s) (hpos : BasicPos m s) {k : ℕ} (hk : k ≤ n) :
    ∃ values, s.1.basicSolution s.2 = .ok values ∧ (values.take k).length = k ∧
      ∀ j, 1 ≤ j → j ≤ k →
        Tableau.pointOf (values.take k) j = s.1.values.basicPoint m s.2.basic j := by
  refine ⟨_, hs.tableau.basicSolution hs.basis hs.canonical hpos, ?_, fun j hj hjk => ?_⟩
  · simp [hk]
  · exact Tableau.pointOf_take_storedPoint _ hk hj hjk

/-- Two canonical states of one linear program with the same set of basic columns show the same
objective value. -/
theorem corner_eq (hs : CanonicalState m n M s) (hs' : CanonicalState m n M s')
    (hsame : basicColumns s = basicColumns s') : s.1.values 0 0 = s'.1.values 0 0 := by
  have hsum := (hs.equivalent.symm.trans hs'.equivalent).cost_row_eq hs'.canonical (Nat.zero_le n)
  rw [hsum, sum_eq_zero, add_zero]
  intro i hi
  rw [hs.cost_eq_zero, mul_zero]
  rw [hsame]
  exact hs'.basic_mem (mem_Icc.mp hi).1 (mem_Icc.mp hi).2

/-- A pivot takes one basic column out and puts another one in. -/
theorem basicColumns_exchange (hs : CanonicalState m n M s) (hs' : CanonicalState m n M s')
    {h t : ℕ} (ht : 1 ≤ t) (htm : t ≤ m) (hex : Exchange s s' h t) :
    basicColumns s' = insert h ((basicColumns s).erase (s.2.basic t)) := by
  ext j
  rw [hs'.mem_basicColumns, mem_insert, mem_erase, hs.mem_basicColumns, hex.basic]
  constructor
  · rintro ⟨i, hi, him, rfl⟩
    by_cases hit : i = t
    · left
      rw [hit, Function.update_self]
    · right
      rw [Function.update_of_ne hit]
      exact ⟨fun h => hit (hs.canonical.basic_injective hi him ht htm h), i, hi, him, rfl⟩
  · rintro (rfl | ⟨hne, i, hi, him, rfl⟩)
    · exact ⟨t, ht, htm, Function.update_self ..⟩
    · have hit : i ≠ t := fun h => hne (h ▸ rfl)
      exact ⟨i, hi, him, Function.update_of_ne hit ..⟩

end CanonicalState

/-! ## Cycles of exchanges -/

/-- Step `k` of the sequence puts `e k` into the set and takes `l k` out; after `q` steps the first set
is back. -/
structure Cycle (S : ℕ → Finset ℕ) (q : ℕ) (e l : ℕ → ℕ) : Prop where
  enters : ∀ k < q, e k ∉ S k
  leaves : ∀ k < q, l k ∈ S k
  step : ∀ k < q, S (k + 1) = insert (e k) ((S k).erase (l k))
  closed : S 0 = S q

namespace Cycle

variable {S : ℕ → Finset ℕ} {q : ℕ} {e l : ℕ → ℕ}

/-- What no step takes out stays in the sets once it is there. -/
theorem mem_of_le (hS : Cycle S q e l) {j a b : ℕ} (hj : ∀ k < q, l k ≠ j) (hab : a ≤ b)
    (hb : b ≤ q) (ha : j ∈ S a) : j ∈ S b := by
  induction b, hab using Nat.le_induction with
  | base => exact ha
  | succ b hab ih =>
      rw [hS.step b hb, mem_insert, mem_erase]
      exact Or.inr ⟨(hj b hb).symm, ih (Nat.le_of_succ_le hb)⟩

/-- What no step puts in stays outside the sets once it is there. -/
theorem not_mem_of_le (hS : Cycle S q e l) {j a b : ℕ} (hj : ∀ k < q, e k ≠ j) (hab : a ≤ b)
    (hb : b ≤ q) (ha : j ∉ S a) : j ∉ S b := by
  induction b, hab using Nat.le_induction with
  | base => exact ha
  | succ b hab ih =>
      rw [hS.step b hb, mem_insert, mem_erase, not_or, not_and]
      exact ⟨(hj b hb).symm, fun _ => ih (Nat.le_of_succ_le hb)⟩

/-- Whatever is in one of the sets and not in another one enters at some step. -/
theorem exists_enters (hS : Cycle S q e l) {j a b : ℕ} (ha : a ≤ q) (hb : b ≤ q)
    (hja : j ∈ S a) (hjb : j ∉ S b) : ∃ k, k < q ∧ e k = j := by
  by_contra hnone
  have hne : ∀ k < q, e k ≠ j := fun k hk h => hnone ⟨k, hk, h⟩
  -- From step `b` the element stays outside up to the end, hence outside from the start on.
  have hlast := hS.not_mem_of_le hne hb le_rfl hjb
  rw [← hS.closed] at hlast
  exact hS.not_mem_of_le hne (Nat.zero_le a) ha hlast hja

/-- Whatever enters leaves at some step. -/
theorem exists_leaves (hS : Cycle S q e l) {k : ℕ} (hk : k < q) : ∃ k', k' < q ∧ l k' = e k := by
  by_contra hnone
  have hne : ∀ k' < q, l k' ≠ e k := fun k' hk' h => hnone ⟨k', hk', h⟩
  have hmem : e k ∈ S (k + 1) := by
    rw [hS.step k hk]
    exact mem_insert_self _ _
  have hlast := hS.mem_of_le hne hk le_rfl hmem
  rw [← hS.closed] at hlast
  exact hS.enters k hk (hS.mem_of_le hne (Nat.zero_le k) hk.le hlast)

/-- Whatever leaves enters at some step. -/
theorem exists_enters_of_leaves (hS : Cycle S q e l) {k : ℕ} (hk : k < q) :
    ∃ k', k' < q ∧ e k' = l k := by
  have hmem := hS.leaves k hk
  have hnot : l k ∉ S (k + 1) := by
    rw [hS.step k hk, mem_insert, mem_erase, not_or, not_and]
    exact ⟨fun heq => hS.enters k hk (heq ▸ hmem), fun hne => absurd rfl hne⟩
  exact hS.exists_enters hk.le hk hmem hnot

/-- The last of the elements that enter also leaves. -/
theorem exists_last (hS : Cycle S q e l) (hq : 0 < q) :
    ∃ k k', k < q ∧ k' < q ∧ l k' = e k ∧ ∀ i < q, e i ≤ e k := by
  rcases (range q).exists_max_image e ⟨0, mem_range.mpr hq⟩ with ⟨k, hk, hmax⟩
  rcases hS.exists_leaves (mem_range.mp hk) with ⟨k', hk', heq⟩
  exact ⟨k, k', mem_range.mp hk, hk', heq, fun i hi => hmax i (mem_range.mpr hi)⟩

end Cycle

/-! ## Quantities along a cycle -/

/-- What no step changes is the same all along. -/
theorem eq_start_of_succ_eq {α : Type} {f : ℕ → α} {q : ℕ} (hstep : ∀ k < q, f (k + 1) = f k) :
    ∀ k ≤ q, f k = f 0 := by
  intro k hk
  induction k with
  | zero => rfl
  | succ k ih => exact (hstep k hk).trans (ih (Nat.le_of_succ_le hk))

/-- A quantity that never falls and ends where it started never rises. -/
theorem eq_zero_of_nonpos {f d : ℕ → ℚ} {q : ℕ} (hstep : ∀ k < q, f (k + 1) = f k - d k)
    (hclosed : f 0 = f q) (hd : ∀ k < q, d k ≤ 0) {k : ℕ} (hk : k < q) : d k = 0 := by
  have hmono : ∀ a b, a ≤ b → b ≤ q → f a ≤ f b := by
    intro a b hab
    induction b, hab using Nat.le_induction with
    | base => exact fun _ => le_rfl
    | succ b _ ih =>
        intro hb
        have hrise := hd b hb
        have hlower := ih (Nat.le_of_succ_le hb)
        rw [hstep b hb]
        linarith
  have hbefore := hmono 0 k (Nat.zero_le k) hk.le
  have hafter := hmono (k + 1) q hk le_rfl
  have hrise := hd k hk
  rw [hstep k hk] at hafter
  linarith

/-- A quantity that never rises and ends where it started never falls. -/
theorem eq_zero_of_nonneg {f d : ℕ → ℚ} {q : ℕ} (hstep : ∀ k < q, f (k + 1) = f k - d k)
    (hclosed : f 0 = f q) (hd : ∀ k < q, 0 ≤ d k) {k : ℕ} (hk : k < q) : d k = 0 := by
  have hnegated : ∀ k < q, -f (k + 1) = -f k - -d k := by
    intro k hk
    rw [hstep k hk]
    ring
  have hzero := eq_zero_of_nonpos (f := fun k => -f k) (d := fun k => -d k) hnegated
    (congrArg _ hclosed) (fun k hk => neg_nonpos.mpr (hd k hk)) hk
  exact neg_eq_zero.mp hzero

end ExactSimplex
