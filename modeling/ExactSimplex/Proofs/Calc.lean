import ExactSimplex.Calc
import Mathlib.Data.List.Basic
import Mathlib.Order.Lattice

/-!
# Searches and budgets

Searches over a range of indices are those of lists when their test never fails.  A calculation with a
step budget ends if some budget is enough: from that budget on it always yields the same answer, and
below it nothing but the report that the budget is spent.

Main results:

- Theorem {lit}`forall_or_first`: all members of a list have a property, or a first one does not.
- Theorem {lit}`firstIndex_cases`: a search finds the first index of its range that passes.
- Theorem {lit}`allIndices_eq_true_iff`: a check of a range succeeds exactly when all indices pass.
- Theorem {lit}`Scans.finds`: a scan for a least key finds the first index that has it.
- Theorem {lit}`Ends.bind`: a composed calculation ends when both of its parts do.
-/

namespace ExactSimplex

/-- A mapped calculation that succeeds on every member yields the mapped list. -/
theorem Calc.mapM_eq_ok {α β : Type} {f : α → Calc β} {g : α → β} {l : List α}
    (h : ∀ a ∈ l, f a = .ok (g a)) : l.mapM f = .ok (l.map g) := by
  induction l with
  | nil => rfl
  | cons a l ih =>
      rw [List.mapM_cons, h a List.mem_cons_self, ih fun b hb => h b (List.mem_cons_of_mem a hb)]
      rfl

/-- A part of a result is known exactly when there is a result with this part. -/
theorem Calc.map_eq_ok {α β : Type} {c : Calc α} {f : α → β} {b : β} :
    c.map f = .ok b ↔ ∃ a, c = .ok a ∧ f a = b := by
  cases c <;> simp [Except.map]

/-! ## Searches -/

/-- All members have a property, or there is a first one that does not. -/
theorem forall_or_first {α : Type} (p : α → Prop) (l : List α) : (∀ a ∈ l, p a) ∨
    ∃ before a after, l = before ++ a :: after ∧ (∀ b ∈ before, p b) ∧ ¬p a := by
  classical
  cases hfind : l.find? fun a => ¬p a with
  | none =>
      left
      simpa using hfind
  | some a =>
      right
      rcases List.find?_eq_some_iff_append.mp hfind with ⟨ha, before, after, hl, hbefore⟩
      exact ⟨before, a, after, hl, by simpa using hbefore, by simpa using ha⟩

/-- A search whose test never fails finds the first index of the range that passes. -/
theorem firstIndex_eq_find {test : ℕ → Calc Bool} {p : ℕ → Bool} {start count : ℕ}
    (htest : ∀ i, start ≤ i → i < start + count → test i = .ok (p i)) :
    firstIndex test start count = .ok ((List.range' start count).find? p) := by
  induction count generalizing start with
  | zero => rfl
  | succ count ih =>
      have htail : firstIndex test (start + 1) count =
          .ok ((List.range' (start + 1) count).find? p) :=
        ih fun i hi hlt => htest i (by omega) (by omega)
      rw [firstIndex_succ, htest start (Nat.le_refl start) (by omega), List.range'_succ, List.find?_cons]
      cases p start with
      | true => rfl
      | false => exact htail

/-- A search finds no index that passes, or the first one. -/
theorem firstIndex_cases {test : ℕ → Calc Bool} {p : ℕ → Bool} {start count : ℕ}
    (htest : ∀ i, start ≤ i → i < start + count → test i = .ok (p i)) :
    (firstIndex test start count = .ok none ∧ ∀ i, start ≤ i → i < start + count → p i = false) ∨
      ∃ i, firstIndex test start count = .ok (some i) ∧ start ≤ i ∧ i < start + count ∧ p i = true ∧
        ∀ j, start ≤ j → j < i → p j = false := by
  rw [firstIndex_eq_find htest]
  cases hfound : (List.range' start count).find? p with
  | none =>
      refine Or.inl ⟨rfl, fun i hi hlt => ?_⟩
      simpa using List.find?_range'_eq_none.mp hfound i hi hlt
  | some i =>
      rcases List.find?_range'_eq_some.mp hfound with ⟨hp, hmem, hbefore⟩
      rcases List.mem_range'_1.mp hmem with ⟨hi, hlt⟩
      exact Or.inr ⟨i, rfl, hi, hlt, hp, fun j hj hji => by simpa using hbefore j hj hji⟩

/-- A range passes exactly when each of its indices does. -/
theorem allIndices_eq_true_iff {test : ℕ → Calc Bool} {start count : ℕ} :
    allIndices test start count = .ok true ↔
      ∀ i, start ≤ i → i < start + count → test i = .ok true := by
  induction count generalizing start with
  | zero =>
      simp only [allIndices_zero, true_iff]
      intro i hi hlt
      omega
  | succ count ih =>
      rw [allIndices_succ, Calc.bind_eq_ok]
      constructor
      · rintro ⟨passed, hpassed, hrest⟩ i hi hlt
        cases passed with
        | false => cases hrest
        | true =>
            rcases Nat.eq_or_lt_of_le hi with rfl | hi
            · exact hpassed
            · exact ih.mp hrest i hi (by omega)
      · intro h
        refine ⟨true, h start (Nat.le_refl start) (by omega), ?_⟩
        exact ih.mpr fun i hi hlt => h i (by omega) (by omega)

/-- A check whose test never fails checks the indices of its range. -/
theorem allIndices_eq_all {test : ℕ → Calc Bool} {p : ℕ → Bool} {start count : ℕ}
    (htest : ∀ i, start ≤ i → i < start + count → test i = .ok (p i)) :
    allIndices test start count = .ok ((List.range' start count).all p) := by
  induction count generalizing start with
  | zero => rfl
  | succ count ih =>
      have htail : allIndices test (start + 1) count = .ok ((List.range' (start + 1) count).all p) :=
        ih fun i hi hlt => htest i (by omega) (by omega)
      rw [allIndices_succ, htest start (Nat.le_refl start) (by omega), List.range'_succ, List.all_cons]
      cases p start with
      | true => exact htail
      | false => rfl

/-! ## Least indices -/

/-- The first of least key among the indices from one up to `stop`, exclusively, that pass; none if no
index passes. -/
def Least {κ : Type} [LinearOrder κ] (p : ℕ → Prop) (key : ℕ → κ) (stop : ℕ) : Option ℕ → Prop
  | none => ∀ i, 1 ≤ i → i < stop → ¬p i
  | some best => 1 ≤ best ∧ best < stop ∧ p best ∧
      ∀ i, 1 ≤ i → i < stop → p i → key best ≤ key i ∧ (i < best → key best < key i)

namespace Least

variable {κ : Type} [LinearOrder κ] {p : ℕ → Prop} {key : ℕ → κ} {stop : ℕ}

/-- Before the scan nothing is the best. -/
theorem start : Least p key 1 none := by
  intro i hi hlt
  omega

/-- An index that does not pass changes nothing. -/
theorem skip {best : Option ℕ} (h : Least p key stop best) (hp : ¬p stop) :
    Least p key (stop + 1) best := by
  have hcases : ∀ i, i < stop + 1 → p i → i < stop := by
    intro i hi hpi
    have hne : i ≠ stop := fun heq => hp (heq ▸ hpi)
    omega
  cases best with
  | none => exact fun i hi hlt hpi => h i hi (hcases i hlt hpi) hpi
  | some best =>
      rcases h with ⟨hbest, hlt, hpbest, hleast⟩
      exact ⟨hbest, by omega, hpbest, fun i hi hilt hpi => hleast i hi (hcases i hilt hpi) hpi⟩

/-- An index of lesser key than the best one takes its place. -/
theorem replace {best : Option ℕ} (h : Least p key stop best) (hstop : 1 ≤ stop) (hp : p stop)
    (hkey : ∀ b, best = some b → key stop < key b) : Least p key (stop + 1) (some stop) := by
  have hbefore : ∀ i, 1 ≤ i → i < stop → p i → key stop < key i := by
    intro i hi hlt hpi
    cases best with
    | none => exact absurd hpi (h i hi hlt)
    | some b => exact lt_of_lt_of_le (hkey b rfl) (h.2.2.2 i hi hlt hpi).1
  refine ⟨hstop, Nat.lt_succ_self stop, hp, fun i hi hlt hpi => ?_⟩
  rcases Nat.lt_succ_iff_lt_or_eq.mp hlt with hlt | rfl
  · exact ⟨(hbefore i hi hlt hpi).le, fun _ => hbefore i hi hlt hpi⟩
  · exact ⟨le_rfl, fun h => absurd h (Nat.lt_irrefl i)⟩

/-- The best index stays if the key of the next one is not less. -/
theorem keep {best : ℕ} (h : Least p key stop (some best)) (hkey : key best ≤ key stop) :
    Least p key (stop + 1) (some best) := by
  rcases h with ⟨hbest, hlt, hpbest, hleast⟩
  refine ⟨hbest, by omega, hpbest, fun i hi hilt hpi => ?_⟩
  rcases Nat.lt_succ_iff_lt_or_eq.mp hilt with hilt | rfl
  · exact hleast i hi hilt hpi
  · exact ⟨hkey, fun h => absurd h (by omega)⟩

end Least

/-- The scan looks at one index after the other up to `last`.  It passes over an index that does not
count or has no lesser key than the best one so far, which it carries in the form `view`. -/
structure Scans {α κ : Type} [LinearOrder κ] (scan : ℕ → ℕ → Option α → Calc (Option α))
    (p : ℕ → Prop) (key : ℕ → κ) (view : ℕ → α) (last : ℕ) : Prop where
  stop : ∀ i best, scan i 0 best = .ok best
  skip : ∀ i count best, i ≤ last → ¬p i → scan i (count + 1) best = scan (i + 1) count best
  first : ∀ i count, 1 ≤ i → i ≤ last → p i →
    scan i (count + 1) none = scan (i + 1) count (some (view i))
  replace : ∀ i count b, 1 ≤ b → b < i → i ≤ last → p i → key i < key b →
    scan i (count + 1) (some (view b)) = scan (i + 1) count (some (view i))
  keep : ∀ i count b, 1 ≤ b → b < i → i ≤ last → p i → ¬key i < key b →
    scan i (count + 1) (some (view b)) = scan (i + 1) count (some (view b))

section Scans

variable {α κ : Type} [LinearOrder κ] {scan : ℕ → ℕ → Option α → Calc (Option α)} {p : ℕ → Prop}
  {key : ℕ → κ} {view : ℕ → α} {last : ℕ}

/-- What a scan carries is the first index of least key so far, by induction on the indices that are
left. -/
theorem Scans.least (h : Scans scan p key view last) (i count : ℕ) (best : Option ℕ) (hi : 1 ≤ i)
    (hcount : i + count = last + 1) (hbest : Least p key i best) :
    ∃ best', scan i count (best.map view) = .ok (best'.map view) ∧
      Least p key (last + 1) best' := by
  induction count generalizing i best with
  | zero =>
      refine ⟨best, h.stop i _, ?_⟩
      rwa [← hcount]
  | succ count ih =>
      have hnext := fun best' => ih (i + 1) best' (by omega) (by omega)
      have hle : i ≤ last := by omega
      by_cases hp : p i
      · cases best with
        | none =>
            rw [Option.map_none, h.first i count hi hle hp]
            exact hnext (some i) (hbest.replace hi hp fun b hb => by cases hb)
        | some b =>
            rw [Option.map_some]
            by_cases hlt : key i < key b
            · rw [h.replace i count b hbest.1 hbest.2.1 hle hp hlt]
              refine hnext (some i) (hbest.replace hi hp fun b' hb' => ?_)
              rwa [← Option.some.inj hb']
            · rw [h.keep i count b hbest.1 hbest.2.1 hle hp hlt]
              exact hnext (some b) (hbest.keep (not_lt.mp hlt))
      · rw [h.skip i count _ hle hp]
        exact hnext best (hbest.skip hp)

/-- A scan finds the first index of least key. -/
theorem Scans.finds (h : Scans scan p key view last) :
    ∃ best, scan 1 last none = .ok (best.map view) ∧ Least p key (last + 1) best :=
  h.least 1 last none (Nat.le_refl 1) (by omega) Least.start

end Scans

/-! ## Budgets -/

/-- From some budget on the calculation yields `a`, and with a smaller one it only reports that the
budget is spent. -/
def Ends {α : Type} (f : ℕ → Calc α) (a : α) : Prop :=
  ∃ enough, ∀ budget, f budget = if budget < enough then .error .budgetSpent else .ok a

namespace Ends

variable {α β : Type} {f : ℕ → Calc α} {g : ℕ → α → Calc β} {a : α} {b : β}

/-- A calculation that does not depend on the budget ends. -/
theorem of_ok (h : ∀ budget, f budget = .ok a) : Ends f a :=
  ⟨0, fun budget => by rw [h budget, if_neg (Nat.not_lt_zero budget)]⟩

/-- Some budget is enough. -/
theorem exists_eq_ok (h : Ends f a) : ∃ budget, f budget = .ok a := by
  rcases h with ⟨enough, h⟩
  exact ⟨enough, by rw [h, if_neg (Nat.lt_irrefl enough)]⟩

/-- Whatever budget leads to an answer, it is this one. -/
theorem eq_of_eq_ok (h : Ends f a) {budget : ℕ} {c : α} (hc : f budget = .ok c) : c = a := by
  rcases h with ⟨enough, h⟩
  rw [h] at hc
  split at hc
  · cases hc
  · exact (Except.ok.inj hc).symm

/-- The larger of the two budgets is enough for a composed calculation. -/
theorem bind (hf : Ends f a) (hg : Ends (fun budget => g budget a) b) :
    Ends (fun budget => f budget >>= g budget) b := by
  rcases hf with ⟨enough, hf⟩
  rcases hg with ⟨enough', hg⟩
  refine ⟨max enough enough', fun budget => ?_⟩
  have hfb := hf budget
  have hgb := hg budget
  by_cases hlt : budget < enough
  · rw [if_pos hlt] at hfb
    rw [if_pos (by omega)]
    simp only [hfb]
    rfl
  · rw [if_neg hlt] at hfb
    simp only [hfb]
    refine hgb.trans ?_
    by_cases hlt' : budget < enough'
    · rw [if_pos hlt', if_pos (by omega)]
    · rw [if_neg hlt', if_neg (by omega)]

/-- One more step in front of a calculation that ends. -/
theorem succ {f' : ℕ → Calc β} (h : Ends f a) (hzero : f' 0 = .error .budgetSpent) {next : α → β}
    (hsucc : ∀ budget, f' (budget + 1) = next <$> f budget) : Ends f' (next a) := by
  rcases h with ⟨enough, h⟩
  refine ⟨enough + 1, fun budget => ?_⟩
  cases budget with
  | zero => rw [hzero, if_pos (Nat.succ_pos enough)]
  | succ budget =>
      rw [hsucc, h]
      by_cases hlt : budget < enough
      · rw [if_pos hlt, if_pos (Nat.succ_lt_succ hlt)]
        rfl
      · rw [if_neg hlt, if_neg fun hlt' => hlt (Nat.lt_of_succ_lt_succ hlt')]
        rfl

end Ends
end ExactSimplex
