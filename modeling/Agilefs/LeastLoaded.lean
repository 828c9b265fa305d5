import Mathlib.Algebra.Order.Monoid.Defs
import Mathlib.Logic.Function.Basic

/-!
# Filling the least loaded

Loads `f i` of the members `i` of a set, where each step adds `d` to a least load. However
ties are broken, the loads stay balanced : no two ever differ by more than they did at the
start, or by more than `d` (`Fills.spread`), and a load passes a common bound of all loads only
when no load is `d` below this bound (`Fills.reached`).
-/

namespace LeastLoaded

open Function

variable {ι α : Type*} [DecidableEq ι] [AddCommMonoid α] [LinearOrder α] [IsOrderedAddMonoid α]
  {s : Set ι} {f f' : ι → α} {d D M : α}

/-- A step : a least load among those of `s` grows by `d`. -/
def Fills (s : Set ι) (d : α) (f f' : ι → α) : Prop :=
  ∃ i ∈ s, (∀ j ∈ s, f i ≤ f j) ∧ f' = update f i (f i + d)

/-- No two loads differ by more than `D`. -/
def Spread (s : Set ι) (D : α) (f : ι → α) : Prop :=
  ∀ i ∈ s, ∀ j ∈ s, f i ≤ f j + D

/-- If a load is above `M`, no load is `d` below `M`. -/
def Reached (s : Set ι) (d M : α) (f : ι → α) : Prop :=
  ∀ i ∈ s, M < f i → ∀ j ∈ s, M < f j + d

/-- Loads only grow. -/
theorem Fills.le (h : Fills s d f f') (hd : 0 ≤ d) (i : ι) : f i ≤ f' i := by
  obtain ⟨k, -, -, rfl⟩ := h
  by_cases hi : i = k
  · subst hi
    simpa using le_add_of_nonneg_right hd
  · simp [hi]

theorem Fills.spread (h : Fills s d f f') (hd : 0 ≤ d) (hD : d ≤ D) (hf : Spread s D f) :
    Spread s D f' := by
  obtain ⟨k, hk, hmin, rfl⟩ := h
  intro i hi j hj
  by_cases hik : i = k
  · -- the load that grows was a least one
    subst hik
    by_cases hji : j = i
    · subst hji
      exact le_add_of_nonneg_right (hd.trans hD)
    · rw [update_self, update_of_ne hji]
      exact add_le_add (hmin j hj) hD
  · rw [update_of_ne hik]
    by_cases hjk : j = k
    · subst hjk
      rw [update_self]
      calc f i ≤ f j + D := hf i hi j hj
        _ ≤ f j + d + D := add_le_add_left (le_add_of_nonneg_right hd) D
    · rw [update_of_ne hjk]
      exact hf i hi j hj

omit [DecidableEq ι] [IsOrderedAddMonoid α] in
theorem Reached.of_le (h : ∀ i ∈ s, f i ≤ M) : Reached s d M f :=
  fun i hi hM => absurd hM (h i hi).not_gt

/-- Where a load passes `M`, no load was `d` below `M` before. -/
theorem Fills.passes (h : Fills s d f f') (hf : Reached s d M f) {i : ι} (hi : i ∈ s)
    (hM : M < f' i) : ∀ j ∈ s, M < f j + d := by
  obtain ⟨k, hk, hmin, rfl⟩ := h
  intro j hj
  by_cases hik : i = k
  · subst hik
    rw [update_self] at hM
    exact hM.trans_le (add_le_add_left (hmin j hj) d)
  · rw [update_of_ne hik] at hM
    exact hf i hi hM j hj

theorem Fills.reached (h : Fills s d f f') (hd : 0 ≤ d) (hf : Reached s d M f) :
    Reached s d M f' := fun _ hi hM j hj =>
  (h.passes hf hi hM j hj).trans_le (add_le_add_left (h.le hd j) d)

end LeastLoaded
