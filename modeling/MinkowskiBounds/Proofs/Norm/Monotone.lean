import Mathlib.Data.List.Forall2
import Mathlib.Order.Interval.Set.Defs
import MinkowskiBounds.Proofs.Scalar.Extended
import MinkowskiBounds.Proofs.Space.Axes

/-!
# Norms that grow with their separations

Over exact numbers a norm folds the sizes of its differences, and bounds fold the separations of all
axes, with one operation on numbers: the larger of two in the Chebyshev norm, and a sum of raised
sizes in all others. Where raising is monotone, larger sizes fold to larger totals (`Norm.Folds`).

Nothing else is asked of powers, except where bounds must not be negative: there powers must not be
negative either (`Extended.IsExponent`). For squares and first powers neither needs an assumption.
-/

namespace MinkowskiBounds

open Extended

variable {K : Type} [Field K] [LinearOrder K] [FloorRing K] [Powers K]

/-- On numbers that are not negative, the power with exponent `q` is a monotone function to numbers. -/
def Extended.PowMonotone (q : K) : Prop :=
  ∃ f : K → K, MonotoneOn f (Set.Ici 0) ∧ ∀ s, 0 ≤ s → Scalar.pow (num s) (num q) = num (f s)

/-- An exponent to measure with: infinite, one or two, which take no power, or any other number whose
power is monotone, and not below zero, on numbers that are not negative. -/
def Extended.IsExponent (p : Extended K) : Prop :=
  p = Scalar.infinity ∨ p = 1 ∨ p = Scalar.two ∨
    ∃ q, p = num q ∧ PowMonotone q ∧ 0 ≤ Scalar.pow (num 0) (num q)

theorem Extended.powMonotone_natCast (k : ℕ) : PowMonotone (k : ℚ) := by
  refine ⟨fun s => s ^ k, ?_, fun s _ => pow_natCast s k⟩
  intro s hs s' _ hle
  exact pow_le_pow_left₀ hs hle k

namespace Norm

variable {n : Norm (Extended K)} {op : K → K → K}

/-- Each axis counts more for a larger separation. -/
def IsMonotone (n : Norm (Extended K)) : Prop :=
  n = .chebyshev ∨
    ∃ f : K → K, MonotoneOn f (Set.Ici 0) ∧ ∀ s, 0 ≤ s → n.term (num s) = num (f s)

/-- Differences and separations are taken into a total by `op`, which is monotone. -/
structure Folds (n : Norm (Extended K)) (op : K → K → K) : Prop where
  accumulate : ∀ t w, n.accumulate (num t) (num w) = num (op t |w|)
  join : ∀ a b l g, 0 ≤ l → 0 ≤ g →
    n.join ⟨num a, num b⟩ ⟨num l, num g⟩ = ⟨num (op a l), num (op b g)⟩
  mono : ∀ a b s s', a ≤ b → 0 ≤ s → s ≤ s' → op a s ≤ op b s'

/-! ## Folds over all axes -/

omit [Field K] [FloorRing K] [Powers K] in
theorem foldl_le_foldl [Zero K] (hmono : ∀ a b s s', a ≤ b → 0 ≤ s → s ≤ s' → op a s ≤ op b s')
    {ss ss' : List K} (h : List.Forall₂ (fun s s' => 0 ≤ s ∧ s ≤ s') ss ss') :
    ∀ {a b : K}, a ≤ b → ss.foldl op a ≤ ss'.foldl op b := by
  induction h with
  | nil => exact id
  | cons hs _ ih =>
    intro a b hab
    exact ih (hmono a b _ _ hab hs.1 hs.2)

/-- The bounds that two totals make fold in two separate folds. -/
theorem Folds.foldl_join (h : n.Folds op) {ss : List (K × K)}
    (hss : ∀ s ∈ ss, 0 ≤ s.1 ∧ 0 ≤ s.2) (a b : K) :
    (ss.map fun s => (⟨num s.1, num s.2⟩ : Bounds (Extended K))).foldl n.join ⟨num a, num b⟩
      = ⟨num ((ss.map Prod.fst).foldl op a), num ((ss.map Prod.snd).foldl op b)⟩ := by
  induction ss generalizing a b with
  | nil => rfl
  | cons s ss ih =>
    obtain ⟨h1, h2⟩ := hss s List.mem_cons_self
    simp only [List.map_cons, List.foldl_cons]
    rw [h.join a b s.1 s.2 h1 h2]
    exact ih (fun r hr => hss r (List.mem_cons_of_mem s hr)) _ _

/-- **The raised norm of differences of known sizes is the fold of the sizes.** -/
theorem Folds.sum_eq (h : n.Folds op) {δs : List (Extended K)} {ds : List K}
    (hds : List.Forall₂ (fun δ d => Scalar.abs δ = num d) δs ds) :
    n.sum Scalar.infinity δs = num (ds.foldl op 0) := by
  -- nothing is above the infinite limit, so that no difference is left out
  have hlimit : ∀ a : Extended K, ¬ Scalar.infinity < a := not_inf_lt
  have hfold : ∀ t : K, δs.foldl n.accumulate (num t) = num (ds.foldl op t) := by
    induction hds with
    | nil =>
      intro t
      rfl
    | cons hd _ ih =>
      intro t
      obtain ⟨w, rfl, rfl⟩ := abs_eq_num.mp hd
      rw [List.foldl_cons, List.foldl_cons, h.accumulate]
      exact ih _
  rw [sum, sumFrom_eq_foldl hlimit]
  exact hfold 0

/-- The raised norm of numbers is the fold of their sizes. -/
theorem Folds.sum_map_num (h : n.Folds op) (ws : List K) :
    n.sum Scalar.infinity (ws.map num) = num ((ws.map fun w => |w|).foldl op 0) := by
  refine h.sum_eq ?_
  rw [List.forall₂_map_left_iff, List.forall₂_map_right_iff, List.forall₂_same]
  intro w _
  exact abs_num w

/-- No total is below zero where differences of zero do not take one there. -/
theorem Folds.foldl_nonneg (h : n.Folds op) (hzero : 0 ≤ op 0 0) {ds : List K}
    (hds : ∀ d ∈ ds, 0 ≤ d) : 0 ≤ ds.foldl op 0 := by
  have hfold : ∀ t : K, 0 ≤ t → 0 ≤ ds.foldl op t := by
    induction ds with
    | nil => exact fun _ ht => ht
    | cons d ds ih =>
      intro t ht
      refine ih (fun e he => hds e (List.mem_cons_of_mem d he)) _ ?_
      exact hzero.trans (h.mono 0 t 0 d ht le_rfl (hds d List.mem_cons_self))
  exact hfold 0 le_rfl

/-! ## The four norms -/

theorem folds_chebyshev : (chebyshev : Norm (Extended K)).Folds max where
  accumulate t w := max_num t |w|
  join a b l g _ _ := congrArg₂ Bounds.mk (max_num a l) (max_num b g)
  mono _ _ _ _ hab _ hs := max_le_max hab hs

variable [IsStrictOrderedRing K]

theorem folds_of_term (hn : n ≠ .chebyshev) {f : K → K} (hf : MonotoneOn f (Set.Ici 0))
    (hterm : ∀ s, 0 ≤ s → n.term (num s) = num (f s)) : n.Folds fun t s => t + f s where
  accumulate t w := by
    have h : n.accumulate (num t) (num w) = num t + n.term (num |w|) := by
      cases n with
      | chebyshev => exact absurd rfl hn
      | euclidean =>
        show num (t + w * w) = num (t + |w| * |w|)
        rw [abs_mul_abs_self]
      | manhattan => rfl
      | general p => rfl
    rw [h, hterm _ (abs_nonneg w), num_add]
  join a b l g hl hg := by
    have h : n.join ⟨num a, num b⟩ ⟨num l, num g⟩
        = ⟨num a + n.term (num l), num b + n.term (num g)⟩ := by
      cases n with
      | chebyshev => exact absurd rfl hn
      | euclidean => rfl
      | manhattan => rfl
      | general p => rfl
    rw [h, hterm l hl, hterm g hg, num_add, num_add]
  mono a b s s' hab hs hs' := add_le_add hab (hf hs (hs.trans hs') hs')

theorem folds_manhattan : (manhattan : Norm (Extended K)).Folds (· + ·) :=
  folds_of_term (f := id) (by simp) monotoneOn_id fun _ _ => rfl

/-- A monotone norm folds its separations. -/
theorem IsMonotone.exists_folds (h : n.IsMonotone) : ∃ op, n.Folds op := by
  by_cases hn : n = .chebyshev
  · exact ⟨max, hn ▸ folds_chebyshev⟩
  · obtain ⟨f, hf, hterm⟩ := h.resolve_left hn
    exact ⟨_, folds_of_term hn hf hterm⟩

/-! ## Exponents -/

theorem isMonotone_euclidean : (euclidean : Norm (Extended K)).IsMonotone := by
  refine .inr ⟨fun s => s * s, ?_, fun s _ => num_mul s s⟩
  intro s hs s' _ hle
  exact mul_self_le_mul_self hs hle

omit [IsStrictOrderedRing K] in
theorem isMonotone_manhattan : (manhattan : Norm (Extended K)).IsMonotone :=
  .inr ⟨id, monotoneOn_id, fun _ _ => rfl⟩

omit [IsStrictOrderedRing K] in
theorem ofExponent_two : ofExponent (Scalar.two : Extended K) = euclidean := by
  unfold ofExponent
  rw [num_two, num_beq_num, decide_eq_true rfl, if_pos rfl]

theorem ofExponent_one : ofExponent (1 : Extended K) = manhattan := by
  unfold ofExponent
  rw [num_two, ← num_one, num_beq_num, num_beq_num, decide_eq_false one_lt_two.ne,
    decide_eq_true rfl]
  simp

omit [IsStrictOrderedRing K] in
/-- Any other number is an exponent that takes powers. -/
theorem ofExponent_num {q : K} (h1 : q ≠ 1) (h2 : q ≠ 2) :
    ofExponent (num q) = general (num q) := by
  unfold ofExponent
  rw [num_two, ← num_one, num_beq_num, num_beq_num, decide_eq_false h1, decide_eq_false h2]
  simp

theorem ofExponent_num_eq (q : K) : ofExponent (num q) = euclidean ∨
    ofExponent (num q) = manhattan ∨ ofExponent (num q) = general (num q) := by
  by_cases h2 : q = 2
  · exact .inl (by rw [h2, ← num_two, ofExponent_two])
  · by_cases h1 : q = 1
    · exact .inr (.inl (by rw [h1, num_one, ofExponent_one]))
    · exact .inr (.inr (ofExponent_num h1 h2))

/-- Only an infinite exponent selects the Chebyshev norm. -/
theorem ofExponent_num_ne_chebyshev (q : K) : ofExponent (num q) ≠ chebyshev := by
  rcases ofExponent_num_eq q with h | h | h <;>
  · rw [h]
    nofun

/-- **Every exponent whose power is monotone selects a monotone norm**, and so does an infinite one. -/
theorem isMonotone_ofExponent {p : Extended K}
    (hp : p = Scalar.infinity ∨ ∃ q, p = num q ∧ PowMonotone q) : (ofExponent p).IsMonotone := by
  rcases hp with rfl | ⟨q, rfl, f, hf, hpow⟩
  · exact .inl rfl
  · by_cases h2 : q = 2
    · rw [h2, ← num_two, ofExponent_two]
      exact isMonotone_euclidean
    · by_cases h1 : q = 1
      · rw [h1, num_one, ofExponent_one]
        exact isMonotone_manhattan
      · rw [ofExponent_num h1 h2]
        exact .inr ⟨f, hf, hpow⟩

theorem isMonotone_of_isExponent {p : Extended K} (hp : IsExponent p) :
    (ofExponent p).IsMonotone := by
  rcases hp with rfl | rfl | rfl | ⟨q, rfl, hpow, -⟩
  · exact .inl rfl
  · exact ofExponent_one (K := K) ▸ isMonotone_manhattan
  · exact ofExponent_two (K := K) ▸ isMonotone_euclidean
  · exact isMonotone_ofExponent (.inr ⟨q, rfl, hpow⟩)

/-- A difference of zero does not take a total below zero. -/
theorem accumulate_zero_nonneg {p : Extended K} (hp : IsExponent p) :
    0 ≤ (ofExponent p).accumulate (num 0) (num 0) := by
  have hmanhattan : (0 : Extended K) ≤ manhattan.accumulate (num 0) (num 0) := by
    simp [accumulate, ← num_zero]
  have heuclidean : (0 : Extended K) ≤ euclidean.accumulate (num 0) (num 0) := by
    simp [accumulate, ← num_zero]
  rcases hp with rfl | rfl | rfl | ⟨q, rfl, ⟨f, -, hpow⟩, hzero⟩
  · show 0 ≤ chebyshev.accumulate (num 0) (num 0)
    rw [folds_chebyshev.accumulate, ← num_zero, num_le_num]
    exact le_max_left 0 _
  · rwa [ofExponent_one]
  · rwa [ofExponent_two]
  · by_cases h2 : q = 2
    · rwa [h2, ← num_two, ofExponent_two]
    · by_cases h1 : q = 1
      · rwa [h1, num_one, ofExponent_one]
      · rw [ofExponent_num h1 h2, accumulate, abs_num, abs_zero, hpow 0 le_rfl, num_add, zero_add,
          ← hpow 0 le_rfl]
        exact hzero

end Norm

end MinkowskiBounds
