import MinkowskiBounds.Proofs.Axis.Extremes
import MinkowskiBounds.Proofs.Scalar.Rounded

/-!
# Separations in rounded arithmetic

Rounding once per operation keeps the order. So between boxes with their ends in order it leaves
least and greatest separations in order and not below zero, along each axis (`Interval.separation_of`)
and over all of them (`Bounds.inOrder_foldl_join`), in the norms that take no powers.
-/

namespace MinkowskiBounds

open Extended

variable {K : Type} [Field K] [LinearOrder K] [FloorRing K] [Powers K] {rnd : K → K}

/-! ## Bounds that are in order -/

namespace Bounds

/-- Both bounds are numbers, in order and not below zero, that rounding leaves where they are. -/
def InOrder (b : Bounds (Rounded rnd)) : Prop :=
  ∃ l g : K, 0 ≤ l ∧ l ≤ g ∧ b = ⟨.of rnd (rnd l), .of rnd (rnd g)⟩

variable {b s : Bounds (Rounded rnd)}

theorem of_add (l g l' g' : K) :
    (⟨.of rnd l, .of rnd g⟩ + ⟨.of rnd l', .of rnd g'⟩ : Bounds (Rounded rnd))
      = ⟨.of rnd (rnd (l + l')), .of rnd (rnd (g + g'))⟩ := rfl

theorem of_sub (l g l' g' : K) :
    (⟨.of rnd l, .of rnd g⟩ - ⟨.of rnd l', .of rnd g'⟩ : Bounds (Rounded rnd))
      = ⟨.of rnd (rnd (l - l')), .of rnd (rnd (g - g'))⟩ :=
  congrArg₂ Bounds.mk (Rounded.of_sub l l') (Rounded.of_sub g g')

theorem zero_eq_of : (zero : Bounds (Rounded rnd)) = ⟨.of rnd 0, .of rnd 0⟩ := rfl

theorem InOrder.le (hrnd : IsRounding rnd) (h : b.InOrder) : b.least ≤ b.greatest := by
  obtain ⟨l, g, -, hlg, rfl⟩ := h
  exact Rounded.of_le_of.mpr (hrnd.mono hlg)

theorem inOrder_zero (hrnd : IsRounding rnd) : (zero : Bounds (Rounded rnd)).InOrder := by
  refine ⟨0, 0, le_rfl, le_rfl, ?_⟩
  rw [hrnd.zero, zero_eq_of]

/-- A sum that starts at zero does not round its first summand again. -/
theorem InOrder.zero_add_eq (hrnd : IsRounding rnd) (h : s.InOrder) : zero + s = s := by
  obtain ⟨l, g, -, -, rfl⟩ := h
  rw [zero_eq_of, of_add, zero_add, zero_add, hrnd.idem, hrnd.idem]

/-- Bounds cancel themselves, however differences are rounded. -/
theorem InOrder.sub_eq_zero (hrnd : IsRounding rnd) (h : s.InOrder) : s - s = zero := by
  obtain ⟨l, g, -, -, rfl⟩ := h
  rw [of_sub, sub_self, sub_self, hrnd.zero, zero_eq_of]

variable [IsStrictOrderedRing K]

theorem InOrder.add (hrnd : IsRounding rnd) (hb : b.InOrder) (hs : s.InOrder) :
    (b + s).InOrder := by
  obtain ⟨l, g, hl, hlg, rfl⟩ := hb
  obtain ⟨l', g', hl', hlg', rfl⟩ := hs
  exact ⟨rnd l + rnd l', rnd g + rnd g', add_nonneg (hrnd.nonneg hl) (hrnd.nonneg hl'),
    add_le_add (hrnd.mono hlg) (hrnd.mono hlg'), rfl⟩

omit [IsStrictOrderedRing K] in
theorem InOrder.max (hrnd : IsRounding rnd) (hb : b.InOrder) (hs : s.InOrder) :
    (b.max s).InOrder := by
  obtain ⟨l, g, hl, hlg, rfl⟩ := hb
  obtain ⟨l', g', hl', hlg', rfl⟩ := hs
  refine ⟨_, _, le_max_of_le_left hl, max_le_max hlg hlg', ?_⟩
  rw [hrnd.mono.map_max, hrnd.mono.map_max]
  exact congrArg₂ Bounds.mk (Rounded.max_of _ _) (Rounded.max_of _ _)

/-- What an axis contributes is in order where its separation is. -/
theorem InOrder.map_term (hrnd : IsRounding rnd) {n : Norm (Rounded rnd)}
    (hn : n.IsElementary) (hs : s.InOrder) : (s.map n.term).InOrder := by
  obtain ⟨l, g, hl, hlg, rfl⟩ := hs
  rcases hn with rfl | rfl
  · exact ⟨rnd l * rnd l, rnd g * rnd g, mul_self_nonneg _,
      mul_self_le_mul_self (hrnd.nonneg hl) (hrnd.mono hlg), rfl⟩
  · exact ⟨l, g, hl, hlg, rfl⟩

/-- Taking in one more separation keeps the order. -/
theorem InOrder.join (hrnd : IsRounding rnd) {n : Norm (Rounded rnd)}
    (hn : n = .chebyshev ∨ n.IsElementary) (hb : b.InOrder) (hs : s.InOrder) :
    (n.join b s).InOrder := by
  rcases hn with rfl | rfl | rfl
  · exact hb.max hrnd hs
  · exact hb.add hrnd (hs.map_term hrnd (.inl rfl))
  · exact hb.add hrnd (hs.map_term hrnd (.inr rfl))

/-- **Separations in order have bounds in order**, in the norms that take no powers. -/
theorem inOrder_foldl_join (hrnd : IsRounding rnd) {n : Norm (Rounded rnd)}
    (hn : n = .chebyshev ∨ n.IsElementary) {ss : List (Bounds (Rounded rnd))} (hss : ∀ s ∈ ss, s.InOrder) :
    (ss.foldl n.join zero).InOrder := by
  induction ss using List.reverseRecOn with
  | nil => exact inOrder_zero hrnd
  | append_singleton ss s ih =>
    rw [List.foldl_append]
    exact (ih fun r hr => hss r (List.mem_append_left _ hr)).join hrnd hn (hss s (by simp))

end Bounds

/-! ## Exponents -/

namespace Norm

theorem two_eq_of (htwo : rnd 2 = 2) : (Scalar.two : Rounded rnd) = .of rnd 2 := by
  show (.of rnd (rnd (1 + 1)) : Rounded rnd) = _
  rw [one_add_one_eq_two, htwo]

theorem ofExponent_two_rounded (htwo : rnd 2 = 2) :
    ofExponent (Scalar.two : Rounded rnd) = .euclidean := by
  unfold ofExponent
  rw [two_eq_of htwo, Rounded.of_beq_of, decide_eq_true rfl, if_pos rfl]

theorem ofExponent_one_rounded [IsStrictOrderedRing K] (htwo : rnd 2 = 2) :
    ofExponent (1 : Rounded rnd) = .manhattan := by
  unfold ofExponent
  rw [two_eq_of htwo, ← Rounded.of_one, Rounded.of_beq_of, Rounded.of_beq_of,
    decide_eq_false one_lt_two.ne, decide_eq_true rfl]
  rfl

theorem ofExponent_infinity_rounded (htwo : rnd 2 = 2) :
    ofExponent (Scalar.infinity : Rounded rnd) = .chebyshev := by
  unfold ofExponent
  rw [two_eq_of htwo]
  rfl

end Norm

/-! ## Boxes -/

/-- Each raw separation is rounded, and nothing else is. -/
theorem Interval.separation_of (a b c d : K) :
    separation ⟨Rounded.of rnd a, .of rnd b⟩ ⟨.of rnd c, .of rnd d⟩
      = ⟨.of rnd (max 0 (max (rnd (a - d)) (rnd (c - b)))),
        .of rnd (max (rnd (b - c)) (rnd (d - a)))⟩ := by
  simp only [separation, gap, reach, Rounded.of_sub, Rounded.max_of, ← Rounded.of_zero]

namespace Space

variable {first second : Box (Rounded rnd)}

theorem exists_of_mem_separations_proper (hfirst : first.Proper) (hsecond : second.Proper) :
    ∀ s ∈ Space.unbounded.separations first second, ∃ a b c d : K, a ≤ b ∧ c ≤ d ∧
      s = ⟨.of rnd (max 0 (max (rnd (a - d)) (rnd (c - b)))),
        .of rnd (max (rnd (b - c)) (rnd (d - a)))⟩ := by
  intro s hs
  obtain ⟨i, hi⟩ := List.mem_iff_getElem?.mp hs
  obtain ⟨A, I, J, hA, hI, hJ, rfl⟩ := getElem?_separations.mp hi
  obtain rfl : A = .line := List.eq_of_mem_replicate (List.mem_of_getElem? hA)
  obtain ⟨a, b, rfl, hab⟩ := hfirst I (List.mem_of_getElem? hI)
  obtain ⟨c, d, rfl, hcd⟩ := hsecond J (List.mem_of_getElem? hJ)
  exact ⟨a, b, c, d, hab, hcd, Interval.separation_of a b c d⟩

variable [IsStrictOrderedRing K]

/-- Where rounding keeps the sign, no separation of boxes with ends in order is below zero. -/
theorem exists_nonneg_of_mem_separations (hrnd : ∀ x, 0 ≤ x → 0 ≤ rnd x) (hfirst : first.Proper)
    (hsecond : second.Proper) : ∀ s ∈ Space.unbounded.separations first second,
      ∃ l g : K, 0 ≤ l ∧ 0 ≤ g ∧ s = ⟨.of rnd l, .of rnd g⟩ := by
  intro s hs
  obtain ⟨a, b, c, d, hab, hcd, rfl⟩ := exists_of_mem_separations_proper hfirst hsecond s hs
  refine ⟨_, _, le_max_left 0 _, ?_, rfl⟩
  rcases le_total c b with h | h
  · exact le_max_of_le_left (hrnd _ (sub_nonneg.mpr h))
  · exact le_max_of_le_right (hrnd _ (sub_nonneg.mpr (hab.trans (h.trans hcd))))

/-- Where rounding keeps the order, the separations of boxes with ends in order are in order. -/
theorem inOrder_of_mem_separations (hrnd : IsRounding rnd) (hfirst : first.Proper)
    (hsecond : second.Proper) : ∀ s ∈ Space.unbounded.separations first second, s.InOrder := by
  intro s hs
  obtain ⟨a, b, c, d, hab, hcd, rfl⟩ := exists_of_mem_separations_proper hfirst hsecond s hs
  refine ⟨max 0 (max (a - d) (c - b)), max (b - c) (d - a), le_max_left 0 _,
    Interval.gap_le_reach hab hcd, ?_⟩
  simp only [hrnd.mono.map_max, hrnd.zero]

end Space

end MinkowskiBounds
