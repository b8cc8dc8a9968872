import MinkowskiBounds.Proofs.Scalar.Growing
import MinkowskiBounds.Space

/-!
# Sums cut short at a limit

A norm stops at the first total above its limit, whatever the differences still to come. Nobody who
compares the result with the limit, or with anything below it, can tell (`Space.distance_of_limit`):
a distance within the limit is found in full, and of any other a part that is above the limit already.

Of the arithmetic this takes what holds of machine numbers as well as of exact ones: totals never
shrink (`Scalar.Growing`). As what is not a number stays in a sum, only the whole is asked to be one.

* `Norm.sumFrom_eq_or_lt` — in any arithmetic, a sum is whole or above the limit
* `Scalar.Growing.sumFrom_le` — a part of a sum is not above the whole
-/

namespace MinkowskiBounds

open Scalar Extended

variable {α : Type} [Scalar α] {n : Norm α} {limit total : α}

/-! ## Sums of differences -/

/-- Zero, or a total that a difference was taken into. -/
def Norm.IsTotal (n : Norm α) (total : α) : Prop := total = 0 ∨ ∃ t δ, total = n.accumulate t δ

/-- **A sum is whole or above the limit**, whatever the arithmetic. -/
theorem Norm.sumFrom_eq_or_lt (n : Norm α) (limit : α) : ∀ (total : α) (δs : List α),
    n.sumFrom limit total δs = δs.foldl n.accumulate total ∨ limit < n.sumFrom limit total δs
  | _, [] => .inl rfl
  | total, δ :: δs => by
    by_cases hlt : limit < n.accumulate total δ
    · rw [sumFrom_cons_of_lt δs hlt]
      exact .inr hlt
    · rw [sumFrom_cons_of_not_lt δs hlt, List.foldl_cons]
      exact sumFrom_eq_or_lt n limit _ δs

namespace Scalar.Growing

/-- In all norms but one a difference adds something that is not below zero. -/
theorem exists_accumulate_eq_add (h : Growing α) (hn : n ≠ .chebyshev) (δ : α) :
    ∃ s, (∀ total, n.accumulate total δ = total + s) ∧ (IsDefined s → 0 ≤ s) := by
  cases n with
  | euclidean => exact ⟨_, fun _ => rfl, h.mul_self_nonneg⟩
  | chebyshev => exact absurd rfl hn
  | manhattan => exact ⟨_, fun _ => rfl, h.abs_nonneg⟩
  | general p => exact ⟨_, fun _ => rfl, h.pow_abs_nonneg⟩

theorem isSum_of_isTotal (h : Growing α) (hn : n ≠ .chebyshev) (ht : n.IsTotal total) :
    IsSum total := by
  rcases ht with rfl | ⟨t, δ, rfl⟩
  · exact .inl rfl
  · obtain ⟨s, hs, -⟩ := h.exists_accumulate_eq_add hn δ
    exact .inr ⟨t, s, hs t⟩

/-- Taking in one more difference does not shrink a total. -/
theorem le_accumulate (h : Growing α) (ht : n.IsTotal total) (hdef : IsDefined total) {δ : α}
    (hnext : IsDefined (n.accumulate total δ)) : total ≤ n.accumulate total δ := by
  by_cases hn : n = .chebyshev
  · subst hn
    exact h.le_max hdef (Scalar.abs δ)
  · obtain ⟨s, hs, hnonneg⟩ := h.exists_accumulate_eq_add hn δ
    rw [hs] at hnext ⊢
    exact h.le_add (h.isSum_of_isTotal hn ht) (hnonneg (h.defined_of_add hnext).2) hnext

/-- What is not a number stays in a sum, and the larger of two is a number if the first one is. -/
theorem defined_accumulate (h : Growing α) (hdef : IsDefined total) {δ : α} {δs : List α}
    (hsum : IsDefined (δs.foldl n.accumulate (n.accumulate total δ))) :
    IsDefined (n.accumulate total δ) := by
  by_cases hn : n = .chebyshev
  · subst hn
    exact (h.defined_of_le (h.le_max hdef (Scalar.abs δ))).2
  · have hback : ∀ t, IsDefined (δs.foldl n.accumulate t) → IsDefined t := by
      clear hsum
      induction δs with
      | nil => exact fun t ht => ht
      | cons ε δs ih =>
        intro t ht
        obtain ⟨s, hs, -⟩ := h.exists_accumulate_eq_add hn ε
        have hts := ih _ ht
        rw [hs] at hts
        exact (h.defined_of_add hts).1
    exact hback _ hsum

/-- No total is above the whole sum. -/
theorem le_foldl_accumulate (h : Growing α) {δs : List α} (ht : n.IsTotal total)
    (hdef : IsDefined total) (hsum : IsDefined (δs.foldl n.accumulate total)) :
    total ≤ δs.foldl n.accumulate total := by
  induction δs generalizing total with
  | nil => exact h.le_refl hdef
  | cons δ δs ih =>
    have hnext := h.defined_accumulate hdef hsum
    exact h.le_trans (h.le_accumulate ht hdef hnext) (ih (.inr ⟨total, δ, rfl⟩) hnext hsum)

/-- **A part of a sum is not above the whole.** -/
theorem sumFrom_le (h : Growing α) {δs : List α} (ht : n.IsTotal total) (hdef : IsDefined total)
    (hsum : IsDefined (δs.foldl n.accumulate total)) :
    n.sumFrom limit total δs ≤ δs.foldl n.accumulate total := by
  induction δs generalizing total with
  | nil => exact h.le_refl hdef
  | cons δ δs ih =>
    have hnext := h.defined_accumulate hdef hsum
    have htotal : n.IsTotal (n.accumulate total δ) := .inr ⟨total, δ, rfl⟩
    by_cases hlt : limit < n.accumulate total δ
    · rw [Norm.sumFrom_cons_of_lt δs hlt]
      exact h.le_foldl_accumulate htotal hnext hsum
    · rw [Norm.sumFrom_cons_of_not_lt δs hlt]
      exact ih htotal hnext hsum

/-- The whole sum is not below zero. -/
theorem sum_nonneg (h : Growing α) {δs : List α} (hsum : IsDefined (n.sum infinity δs)) :
    0 ≤ n.sum infinity δs := by
  rw [Norm.sum, Norm.sumFrom_eq_foldl h.not_infinity_lt] at hsum ⊢
  exact h.le_foldl_accumulate (.inl rfl) h.defined_zero hsum

/-! ## Distances -/

variable {space : Space α} {x y : List α}

/-- A distance within the limit is found in full. -/
theorem distance_eq (h : Growing α) (hle : space.distance n infinity x y ≤ limit) :
    space.distance n limit x y = space.distance n infinity x y := by
  have hdef := (h.defined_of_le hle).1
  simp only [Space.distance, Norm.sum, Norm.sumFrom_eq_foldl h.not_infinity_lt] at hdef hle ⊢
  refine (n.sumFrom_eq_or_lt limit 0 _).resolve_right ?_
  exact h.not_lt_of_le (h.le_trans (h.sumFrom_le (.inl rfl) h.defined_zero hdef) hle)

/-- **Whether a distance is within anything up to the limit** can be told from the part of it that is
looked at, even if the distance is not a number. -/
theorem distance_le_iff (h : Growing α) {r : α} (hr : r ≤ limit) :
    space.distance n limit x y ≤ r ↔ space.distance n infinity x y ≤ r := by
  constructor
  · intro hle
    have hwhole : space.distance n limit x y = space.distance n infinity x y := by
      have hor := n.sumFrom_eq_or_lt limit 0 (space.differences x y)
      rw [← Norm.sumFrom_eq_foldl h.not_infinity_lt] at hor
      exact hor.resolve_right (h.not_lt_of_le (h.le_trans hle hr))
    rwa [← hwhole]
  · intro hle
    rwa [h.distance_eq (h.le_trans hle hr)]

end Scalar.Growing

/--
**A limit never changes a decision.**

In any arithmetic in which totals do not shrink, in any space and any norm, and for points with any
numbers of coordinates: a distance within the limit is found in full; of any other a part is found
that is above the limit and not above the distance, unless the distance or the limit is not a number.
So the result is within anything up to the limit exactly if the distance is.
-/
theorem Space.distance_of_limit (h : Scalar.Growing α) (space : Space α) (n : Norm α) (limit : α)
    (x y : List α) :
    (space.distance n infinity x y ≤ limit →
      space.distance n limit x y = space.distance n infinity x y) ∧
    (IsDefined (space.distance n infinity x y) → IsDefined limit →
      ¬ space.distance n infinity x y ≤ limit →
      limit < space.distance n limit x y ∧
        space.distance n limit x y ≤ space.distance n infinity x y) ∧
    ∀ r, r ≤ limit →
      (space.distance n limit x y ≤ r ↔ space.distance n infinity x y ≤ r) := by
  refine ⟨h.distance_eq, ?_, fun r => h.distance_le_iff⟩
  intro hdef hlimit hgt
  have hlt := (h.not_le hdef hlimit).mp hgt
  simp only [distance, Norm.sum, Norm.sumFrom_eq_foldl h.not_infinity_lt] at hdef hlt ⊢
  refine ⟨?_, h.sumFrom_le (.inl rfl) h.defined_zero hdef⟩
  rcases n.sumFrom_eq_or_lt limit 0 (space.differences x y) with hwhole | hpart
  · rwa [hwhole]
  · exact hpart

/-- Two limits for a distance of which double precision rounds off two ones: the distance itself, and
one that its first coordinate is above. -/
theorem Space.distance_of_limit_double :
    let x : List (Binary 53) := [.of _ (2 ^ 53), .of _ 1, .of _ 1]
    let y : List (Binary 53) := [.of _ 0, .of _ 0, .of _ 0]
    let distance (limit : Binary 53) := Space.unbounded.distance .manhattan limit x y
    Growing (Binary 53) ∧ distance infinity = .of _ (2 ^ 53) ∧
    distance (.of _ (2 ^ 53)) = distance infinity ∧
    (.of _ 5 < distance (.of _ 5) ∧ distance (.of _ 5) ≤ distance infinity) ∧
    (distance (.of _ 5) ≤ .of _ 3 ↔ distance infinity ≤ .of _ 3) := by
  intro x y distance
  have h : Growing (Binary 53) :=
    Rounded.growing (isRounding_roundTo (by decide)) powersNonneg_rat
  have hwhole : distance infinity = .of _ (2 ^ 53) := by decide +kernel
  obtain ⟨hwithin, -, -⟩ := distance_of_limit h .unbounded .manhattan (.of _ (2 ^ 53)) x y
  obtain ⟨-, hbeyond, hdecide⟩ := distance_of_limit h .unbounded .manhattan (.of _ 5) x y
  exact ⟨h, hwhole, hwithin (by decide +kernel),
    hbeyond (by decide +kernel) (by decide +kernel) (by decide +kernel), hdecide _ (by decide +kernel)⟩

end MinkowskiBounds
