import MinkowskiBounds.Proofs.Space.Rounded
import MinkowskiBounds.Proofs.Tracker.Extremes

/-!
# The order of the bounds in rounded arithmetic

The bounds that a new tracker holds are in order however sums, differences and products are rounded,
because rounding keeps the order. A push that corrects them takes one summand out of two rounded
totals. Along a single axis this leaves nothing, and the bounds are what a new tracker would hold.
Along several axes a large contribution to the greatest bound has absorbed smaller ones, which the
least bound still has after both are corrected: the bounds may come out in the wrong order.

* `Tracker.orderedThroughout_iff` — the numbers of axes for which they never do
* `Tracker.not_ordered_after_one_push` — two boxes for which they do
-/

namespace MinkowskiBounds

open Extended

/-- The least bound is not above the greatest. -/
def Tracker.Ordered {α : Type} [Scalar α] (t : Tracker α) : Prop :=
  t.bounds.least ≤ t.bounds.greatest

instance {α : Type} [Scalar α] (t : Tracker α) : Decidable t.Ordered :=
  inferInstanceAs (Decidable (t.bounds.least ≤ t.bounds.greatest))

variable {K : Type} [Field K] [LinearOrder K] [IsStrictOrderedRing K] [FloorRing K] [Powers K]
  {rnd : K → K} {M T : K} {k : ℕ} {n : Norm (Rounded rnd)}

namespace Tracker

variable {t t' : Tracker (Rounded rnd)} {dims : Nat} {as : List (Action (Rounded rnd))}

/-! ## Bounds that are measured -/

theorem inOrder_of_mem_separations (hrnd : IsRounding rnd) (hspace : t.space = .unbounded)
    (hfirst : t.first.Proper) (hsecond : t.second.Proper) : ∀ s ∈ t.separations, s.InOrder := by
  rw [separations, hspace]
  exact Space.inOrder_of_mem_separations hrnd hfirst hsecond

/-- Measured bounds are in order. -/
theorem ordered_of_measured (hrnd : IsRounding rnd) (hspace : t.space = .unbounded)
    (hn : t.norm = .chebyshev ∨ t.norm.IsElementary) (hfirst : t.first.Proper)
    (hsecond : t.second.Proper) (hb : t.bounds = t.measured) : t.Ordered := by
  rw [Ordered, hb]
  exact (Bounds.inOrder_foldl_join hrnd hn
    (inOrder_of_mem_separations hrnd hspace hfirst hsecond)).le hrnd

/-! ## A single axis -/

/-- Along a single axis the bounds are what the axis contributes. -/
theorem measured_of_single (hrnd : IsRounding rnd) (hn : t.norm.IsElementary)
    {s : Bounds (Rounded rnd)} (hsep : t.separations = [s]) (hs : s.InOrder) :
    t.measured = s.map t.norm.term := by
  rw [measured_eq_sum hn.ne_chebyshev, hsep, List.map_singleton, List.foldl_cons, List.foldl_nil,
    (hs.map_term hrnd hn).zero_add_eq hrnd]

omit [IsStrictOrderedRing K] in
theorem exists_separations_eq_singleton (hs : t.Shaped dims) (hdims : dims ≤ 1) {axis : Nat}
    {s : Bounds (Rounded rnd)} (h : t.separations[axis]? = some s) : t.separations = [s] := by
  have hlen : t.separations.length = dims := (Space.length_separations hs.fits).trans hs.first
  obtain ⟨hlt, -⟩ := List.getElem?_eq_some_iff.mp h
  obtain ⟨r, hr⟩ := List.length_eq_one_iff.mp (show t.separations.length = 1 by omega)
  obtain rfl : axis = 0 := by omega
  rw [hr] at h ⊢
  exact congrArg (fun r => [r]) (Option.some.inj h)

/-- **Along a single axis a push keeps the bounds up to date**, however it rounds: what is taken out
of the bounds is all of them. -/
theorem bounds_of_push_single (hrnd : IsRounding rnd) (hs : t.Shaped dims) (hdims : dims ≤ 1)
    (hn : t.norm.IsElementary) (hb : t.bounds = t.measured) {side : Side} {half : Half}
    {cut : Cut (Rounded rnd)} (h : t.push side half cut = (.ok (), t')) (hold : ∀ s ∈ t.separations, s.InOrder)
    (hnew : ∀ s ∈ t'.separations, s.InOrder) : t'.bounds = t'.measured := by
  obtain ⟨I, bounds, ht', -, hcorrect⟩ := exists_of_push hs h
  obtain ⟨before, after, hbefore, hafter, hbounds⟩ := hcorrect hn.ne_chebyshev
  have hnorm : t'.norm = t.norm := by
    rw [ht', norm_pushed]
  have hseps := exists_separations_eq_singleton hs hdims hbefore
  have hseps' : t'.separations = [after] := by
    rw [ht', separations_pushed]
    exact exists_separations_eq_singleton (hs.narrow side half cut) hdims hafter
  have hinorder := hold before (by simp [hseps])
  have hinorder' := hnew after (by simp [hseps'])
  calc t'.bounds = bounds := by rw [ht']; rfl
    _ = before.map t.norm.term - before.map t.norm.term + after.map t.norm.term := by
        rw [hbounds, hb, measured_of_single hrnd hn hseps hinorder]
    _ = after.map t.norm.term := by
        rw [(hinorder.map_term hrnd hn).sub_eq_zero hrnd,
          (hinorder'.map_term hrnd hn).zero_add_eq hrnd]
    _ = t'.measured := by
        rw [measured_of_single hrnd (hnorm ▸ hn) hseps' hinorder', hnorm]

/-! ## Runs -/

omit [IsStrictOrderedRing K] in
/-- Cuts inside keep the ends of both boxes in order. -/
theorem proper_run (hs : t.Shaped dims) (hf : t.stack.frames = []) (hfirst : t.first.Proper)
    (hsecond : t.second.Proper) (has : t.CutsInside as) {bs : List (Action (Rounded rnd))}
    (hbs : bs <+: as) : (t.run bs).first.Proper ∧ (t.run bs).second.Proper :=
  boxes_run_inside hs hf (P := fun a b => a.Proper ∧ b.Proper)
    (fun h hcut half => ⟨h.1.narrow hcut half, h.2⟩)
    (fun h hcut half => ⟨h.1, h.2.narrow hcut half⟩) ⟨hfirst, hsecond⟩ has hbs

/-- Along a single axis the bounds are up to date after every run. -/
theorem bounds_run_single (hrnd : IsRounding rnd) (hs : t.Shaped dims) (hf : t.stack.frames = [])
    (hdims : dims ≤ 1) (hspace : t.space = .unbounded) (hn : t.norm.IsElementary)
    (hb : t.bounds = t.measured) (hfirst : t.first.Proper) (hsecond : t.second.Proper)
    (has : t.CutsInside as) :
    (t.run as).bounds = (t.run as).measured := by
  have hinorder : ∀ bs, bs <+: as → ∀ s ∈ (t.run bs).separations, s.InOrder := by
    intro bs hbs
    obtain ⟨hfirst', hsecond'⟩ := proper_run hs hf hfirst hsecond has hbs
    exact inOrder_of_mem_separations hrnd ((space_norm_run hs hf bs).1.trans hspace) hfirst'
      hsecond'
  refine run_induction hs hf (P := fun s => s.bounds = s.measured) (fun _ _ hP => hP) hb as ?_
  intro bs p s hbs hP hp
  have hnext : t.run (bs ++ [p.action]) = s := by
    rw [run_concat, Push.action, tracker_act_push, hp]
  refine bounds_of_push_single hrnd (hs.run bs) hdims ?_ hP hp ?_ ?_
  · rw [(space_norm_run hs hf bs).2]
    exact hn
  · exact hinorder bs ((List.prefix_append bs _).trans hbs)
  · exact hnext ▸ hinorder _ hbs

/-- **Bounds measured after every push are in order**, and so are those of a single axis. -/
theorem ordered_run (hrnd : IsRounding rnd) (hs : t.Shaped dims) (hf : t.stack.frames = [])
    (hspace : t.space = .unbounded) (hb : t.bounds = t.measured)
    (hn : t.norm = .chebyshev ∨ dims ≤ 1 ∧ t.norm.IsElementary)
    (hfirst : t.first.Proper) (hsecond : t.second.Proper) (has : t.CutsInside as) :
    (t.run as).Ordered := by
  obtain ⟨hspace', hnorm'⟩ := space_norm_run hs hf as
  obtain ⟨hfirst', hsecond'⟩ := proper_run hs hf hfirst hsecond has (List.prefix_refl as)
  refine ordered_of_measured hrnd (hspace'.trans hspace) ?_ hfirst' hsecond' ?_
  · rw [hnorm']
    exact hn.imp_right And.right
  · rcases hn with hn | ⟨hdims, hn⟩
    · exact bounds_run_chebyshev hs hf hn hb as
    · exact bounds_run_single hrnd hs hf hdims hspace hn hb hfirst hsecond has

end Tracker

/-! ## Several axes -/

namespace Box

/-- A side from zero to `M`, one that is a point at one, and others that are points at zero. -/
def tall (rnd : K → K) (M : K) (others : ℕ) : Box (Rounded rnd) :=
  ⟨⟨.of rnd 0, .of rnd M⟩ :: ⟨.of rnd 1, .of rnd 1⟩ ::
    List.replicate others ⟨.of rnd 0, .of rnd 0⟩⟩

/-- The point all of whose coordinates are zero. -/
def origin (rnd : K → K) (dims : ℕ) : Box (Rounded rnd) :=
  ⟨List.replicate dims ⟨.of rnd 0, .of rnd 0⟩⟩

end Box

/-- An interval is as far away from zero as its ends are. -/
theorem Interval.separation_zero (hrnd : IsRounding rnd) {a b : K} (ha : 0 ≤ a) (hab : a ≤ b)
    (hra : rnd a = a) (hrb : rnd b = b) :
    separation ⟨Rounded.of rnd a, .of rnd b⟩ ⟨.of rnd 0, .of rnd 0⟩ = ⟨.of rnd a, .of rnd b⟩ := by
  have hneg : ∀ {x : K}, 0 ≤ x → rnd (0 - x) ≤ 0 := fun hx =>
    (hrnd.mono (by rwa [zero_sub, neg_nonpos])).trans_eq hrnd.zero
  rw [separation_of, sub_zero, sub_zero, hra, hrb, max_eq_left ((hneg (ha.trans hab)).trans ha),
    max_eq_right ha, max_eq_left ((hneg ha).trans (ha.trans hab))]

theorem Space.separations_tall (hrnd : IsRounding rnd) (hone : rnd 1 = 1) (hM : 0 ≤ M)
    (hrM : rnd M = M) (k : ℕ) :
    Space.unbounded.separations (Box.tall rnd M k) (Box.origin rnd (k + 2))
      = ⟨.of rnd 0, .of rnd M⟩ :: ⟨.of rnd 1, .of rnd 1⟩ ::
        List.replicate k ⟨.of rnd 0, .of rnd 0⟩ := by
  have hzero := Interval.separation_zero hrnd le_rfl le_rfl hrnd.zero hrnd.zero
  rw [separations_unbounded, Box.tall, Box.origin, List.replicate_succ, List.replicate_succ,
    List.zipWith_cons_cons, List.zipWith_cons_cons,
    Interval.separation_zero hrnd le_rfl hM hrnd.zero hrM,
    Interval.separation_zero hrnd zero_le_one le_rfl hone hone, List.zipWith_replicate', hzero]

omit [IsStrictOrderedRing K] in
theorem Bounds.foldl_replicate_zero {b : Bounds (Rounded rnd)} (hb : b + .zero = b) (k : ℕ) :
    (List.replicate k (.zero : Bounds (Rounded rnd))).foldl (· + ·) b = b := by
  induction k with
  | zero => rfl
  | succ k ih => rw [List.replicate_succ, List.foldl_cons, hb, ih]

omit [IsStrictOrderedRing K] in
/-- Zero and one are their own squares. -/
theorem Norm.term_of_mul_self (hn : n.IsElementary) {x : K} (hx : x * x = x)
    (hr : rnd x = x) : n.term (.of rnd x) = .of rnd x := by
  rcases hn with rfl | rfl
  · exact (Rounded.of_mul x x).trans (by rw [hx, hr])
  · rfl

namespace Tracker

/-- **A large contribution absorbs a smaller one** into the greatest bound. -/
theorem bounds_start_tall (hrnd : IsRounding rnd) (hone : rnd 1 = 1) (hM : 0 ≤ M) (hrM : rnd M = M)
    (hn : n.IsElementary) (hT : n.term (.of rnd M) = .of rnd T)
    (habsorb : rnd (T + 1) = T) (k : ℕ) (ε limit : Rounded rnd) :
    (start .unbounded (Box.tall rnd M k) (Box.origin rnd (k + 2)) n ε limit).bounds
      = ⟨.of rnd 1, .of rnd T⟩ := by
  have hrT : rnd T = T := by
    rw [← habsorb, hrnd.idem]
  have hterm0 := Norm.term_of_mul_self hn (mul_zero 0) hrnd.zero
  have hterm1 := Norm.term_of_mul_self hn (mul_one 1) hone
  have hzero : Bounds.map n.term ⟨.of rnd 0, .of rnd 0⟩ = .zero := by
    rw [Bounds.map, hterm0]
    rfl
  have hseps := Space.separations_tall hrnd hone hM hrM k
  set t := start .unbounded (Box.tall rnd M k) (Box.origin rnd (k + 2)) n ε limit
  calc t.bounds = (t.separations.map (·.map n.term)).foldl (· + ·) .zero :=
        measured_eq_sum (t := t) hn.ne_chebyshev
    _ = (List.replicate k (.zero : Bounds (Rounded rnd))).foldl (· + ·)
          (⟨.of rnd 0, .of rnd 0⟩ + ⟨.of rnd 0, .of rnd T⟩ + ⟨.of rnd 1, .of rnd 1⟩) := by
        rw [show t.separations = _ from hseps, List.map_cons, List.map_cons, List.map_replicate,
          hzero, List.foldl_cons, List.foldl_cons, Bounds.map, Bounds.map, hterm0, hterm1, hT]
        rfl
    _ = (List.replicate k (.zero : Bounds (Rounded rnd))).foldl (· + ·)
          ⟨.of rnd 1, .of rnd T⟩ := by
        rw [Bounds.of_add, Bounds.of_add, add_zero, zero_add, hrnd.zero, hrT, zero_add, hone,
          habsorb]
    _ = ⟨.of rnd 1, .of rnd T⟩ := by
        refine Bounds.foldl_replicate_zero ?_ k
        rw [Bounds.zero_eq_of, Bounds.of_add, add_zero, add_zero, hone, hrT]

/-- **Bounds in the wrong order after one push**: what was absorbed is not in the greatest bound any
more, but still in the least. -/
theorem not_ordered_run_tall (hrnd : IsRounding rnd) (hone : rnd 1 = 1) (hM : 0 ≤ M)
    (hrM : rnd M = M) (hn : n.IsElementary) (hT : n.term (.of rnd M) = .of rnd T)
    (habsorb : rnd (T + 1) = T) (k : ℕ) (ε limit : Rounded rnd) :
    ¬ ((start .unbounded (Box.tall rnd M k) (Box.origin rnd (k + 2)) n ε limit).run
        [.push .first .lower ⟨0, .of rnd 0⟩]).Ordered := by
  have hfit : Space.unbounded.Fits (Box.tall rnd M k) (Box.origin rnd (k + 2)) :=
    ⟨by simp [Box.dims, Box.tall, Box.origin], rfl⟩
  have hlt : 0 < (Box.tall rnd M k).dims := Nat.succ_pos _
  have hstart := bounds_start_tall hrnd hone hM hrM hn hT habsorb k ε limit
  set t := start .unbounded (Box.tall rnd M k) (Box.origin rnd (k + 2)) n ε limit
  obtain ⟨I, bounds, -, hp, -, hcorrect⟩ :=
    push_of_lt (shaped_start hfit n ε limit) .first .lower
      (show (⟨0, .of rnd 0⟩ : Cut (Rounded rnd)).axis < _ from hlt)
  obtain ⟨before, after, hbefore, hafter, rfl⟩ := hcorrect hn.ne_chebyshev
  -- the push cuts the long side down to nothing
  have hnarrow : (t.narrow .first .lower ⟨0, .of rnd 0⟩).separations
      = Space.unbounded.separations (Box.tall rnd 0 k) (Box.origin rnd (k + 2)) := rfl
  rw [hnarrow, Space.separations_tall hrnd hone le_rfl hrnd.zero] at hafter
  rw [show t.separations = _ from Space.separations_tall hrnd hone hM hrM k] at hbefore
  cases hbefore
  cases hafter
  have hbounds : (t.run [.push .first .lower ⟨0, .of rnd 0⟩]).bounds
      = ⟨.of rnd 1, .of rnd 0⟩ := by
    rw [run_cons, run_nil, tracker_act_push, hp]
    show t.bounds - Bounds.map n.term _ + Bounds.map n.term _ = _
    rw [hstart, Bounds.map, Bounds.map, Norm.term_of_mul_self hn (mul_zero 0) hrnd.zero, hT,
      Bounds.of_sub, Bounds.of_add, sub_zero, sub_self, hone, hrnd.zero, add_zero, add_zero, hone,
      hrnd.zero]
  rw [Ordered, hbounds, Rounded.of_le_of]
  exact not_le_of_gt one_pos

end Tracker

/-! ## Numbers with so many bits -/

section

variable {bits : ℕ}

/-- All ends are numbers with at most so many significant bits, and in order. -/
def Box.Representable (b : Box (Binary bits)) : Prop :=
  ∀ I ∈ b.axes, ∃ lo hi : ℚ, I = ⟨.of _ lo, .of _ hi⟩ ∧ lo ≤ hi ∧ HasBits bits lo ∧ HasBits bits hi

theorem Box.Representable.proper {b : Box (Binary bits)} (h : b.Representable) : b.Proper := by
  intro I hI
  obtain ⟨lo, hi, rfl, hle, -⟩ := h I hI
  exact ⟨lo, hi, rfl, hle⟩

theorem Box.representable_origin (dims : ℕ) : (origin (roundTo bits) dims).Representable := by
  intro I hI
  obtain rfl := List.eq_of_mem_replicate hI
  exact ⟨0, 0, rfl, le_rfl, hasBits_zero bits, hasBits_zero bits⟩

theorem Box.representable_tall (k others : ℕ) :
    (tall (roundTo bits) (2 ^ k) others).Representable := by
  intro I hI
  rcases List.mem_cons.mp hI with rfl | hI
  · exact ⟨0, _, rfl, by positivity, hasBits_zero bits, hasBits_two_pow bits k⟩
  · rcases List.mem_cons.mp hI with rfl | hI
    · exact ⟨1, 1, rfl, le_rfl, hasBits_two_pow bits 0, hasBits_two_pow bits 0⟩
    · exact representable_origin others I hI

namespace Tracker

/-- Trackers for boxes with `dims` axes and ends of so many bits are built, and have bounds in order
after every run whose pushes cut inside, at numbers of so many bits. -/
def OrderedThroughout (bits dims : ℕ) (p : Binary bits) : Prop :=
  ∀ (first second : Box (Binary bits)) (ε limit : Binary bits), first.dims = dims →
    second.dims = dims → first.Representable → second.Representable →
    ∃ t, (build .unbounded first second (.ofExponent p) ε limit).result = .ok t ∧
      ∀ as, t.CutsInside as →
        (∀ q : Push (Binary bits), q.action ∈ as → ∃ v, q.cut.value = .of _ v ∧ HasBits bits v) →
        (t.run as).Ordered

/-- With two axes or more there are boxes for which the bounds come out in the wrong order. -/
theorem not_orderedThroughout (hbits : 0 < bits) {p : Binary bits}
    (hn : (Norm.ofExponent p).IsElementary) (k : ℕ) :
    ¬ OrderedThroughout bits (k + 2) p := by
  intro h
  have hrnd : IsRounding (roundTo bits) := isRounding_roundTo hbits
  have hpow : ∀ j : ℕ, roundTo bits (2 ^ j) = 2 ^ j :=
    fun j => roundTo_of_hasBits hbits (hasBits_two_pow bits j)
  have hM : (0 : ℚ) ≤ 2 ^ (bits + 1) := by positivity
  -- what the long side contributes is a power of two as well
  obtain ⟨j, hj, hT⟩ : ∃ j, bits < j ∧
      (Norm.ofExponent p).term (.of (roundTo bits) (2 ^ (bits + 1))) = .of _ (2 ^ j) := by
    rcases hn with hn | hn
    · refine ⟨2 * (bits + 1), by omega, ?_⟩
      have hsq : (2 ^ (bits + 1) * 2 ^ (bits + 1) : ℚ) = 2 ^ (2 * (bits + 1)) := by ring
      rw [hn, Norm.term, Rounded.of_mul, hsq, hpow]
    · exact ⟨bits + 1, by omega, by rw [hn]; rfl⟩
  obtain ⟨t, ht, hrun⟩ := h (Box.tall _ (2 ^ (bits + 1)) k) (Box.origin _ (k + 2)) 0 0
    (by simp [Box.dims, Box.tall]) (by simp [Box.dims, Box.origin]) (Box.representable_tall _ k)
    (Box.representable_origin _)
  obtain ⟨-, rfl⟩ := result_build_eq_ok_iff.mp ht
  refine not_ordered_run_tall hrnd (hpow 0) hM (hpow _) hn hT (roundTo_two_pow_add_one hbits hj) k
    0 0 (hrun _ ⟨?_, trivial⟩ ?_)
  · rintro I ⟨⟩
    exact ⟨Rounded.of_le_of.mpr le_rfl, Rounded.of_le_of.mpr hM⟩
  · rintro ⟨side, half, cut⟩ hmem
    cases List.mem_singleton.mp hmem
    exact ⟨0, rfl, hasBits_zero bits⟩

/-! ## Runs of new trackers -/

/--
**With several axes corrected bounds may be in the wrong order**, and only with several axes.

Every result is rounded to so many significant bits, to the nearest and ties to even. In the norms
with exponent one and two the bounds are in order at every state exactly if there is at most one axis.
In the Chebyshev norm, where bounds are measured again, they always are; and in all three they are
whenever no push is pending, whatever the boxes.
-/
theorem orderedThroughout_iff (hbits : 0 < bits) {p : Binary bits}
    (hp : p = 1 ∨ p = Scalar.two ∨ p = Scalar.infinity) (dims : ℕ) :
    (OrderedThroughout bits dims p ↔ dims ≤ 1 ∨ p = Scalar.infinity) ∧
    ∀ (first second : Box (Binary bits)) (ε limit : Binary bits) (t : Tracker (Binary bits)),
      (build .unbounded first second (.ofExponent p) ε limit).result = .ok t → first.Proper →
      second.Proper → ∀ as, pending first.dims as = [] → (t.run as).Ordered := by
  have hrnd : IsRounding (roundTo bits) := isRounding_roundTo hbits
  have htwo : roundTo bits 2 = 2 := roundTo_of_hasBits hbits (hasBits_two_pow bits 1)
  have hn : (p = Scalar.infinity ∧ Norm.ofExponent p = .chebyshev) ∨
      (Norm.ofExponent p).IsElementary := by
    rcases hp with rfl | rfl | rfl
    · exact .inr (.inr (Norm.ofExponent_one_rounded htwo))
    · exact .inr (.inl (Norm.ofExponent_two_rounded htwo))
    · exact .inl ⟨rfl, Norm.ofExponent_infinity_rounded htwo⟩
  refine ⟨⟨?_, ?_⟩, ?_⟩
  · intro h
    by_contra hneither
    obtain ⟨hdims, hinf⟩ := not_or.mp hneither
    obtain ⟨k, rfl⟩ := Nat.exists_eq_add_of_le' (show 2 ≤ dims by omega)
    exact not_orderedThroughout hbits (hn.resolve_left fun h => hinf h.1) k h
  · rintro h first second ε limit rfl hdims hfirst hsecond
    have hfit : Space.unbounded.Fits first second := ⟨hdims.symm, rfl⟩
    refine ⟨_, result_build_eq_ok_iff.mpr ⟨hfit, rfl⟩, ?_⟩
    intro as has _
    refine ordered_run hrnd (shaped_start hfit (.ofExponent p) ε limit) rfl rfl rfl ?_
      hfirst.proper hsecond.proper has
    rcases h with hone | rfl
    · exact hn.imp And.right fun hn => ⟨hone, hn⟩
    · exact .inl (Norm.ofExponent_infinity_rounded htwo)
  · intro first second ε limit t ht hfirst hsecond as has
    obtain ⟨hfit, ht⟩ := result_build_eq_ok_iff.mp ht
    have hnew : t.Ordered := by
      subst ht
      exact ordered_of_measured hrnd rfl (hn.imp_left And.right) hfirst hsecond rfl
    have hs : t.Shaped first.dims := ht ▸ shaped_start hfit (.ofExponent p) ε limit
    have hrun := uncapped_run hs (ht ▸ rfl) as
    rw [has] at hrun
    obtain ⟨c, hc⟩ := uncapped_eq_iff.mp hrun
    rw [hc]
    exact hnew

/-- With numbers of 53 bits: a single axis in the Euclidean norm, and two axes with exponent one. -/
theorem orderedThroughout_iff_double :
    OrderedThroughout 53 1 (Scalar.two : Binary 53) ∧ ¬ OrderedThroughout 53 2 (1 : Binary 53) := by
  have hone : (1 : Binary 53) ≠ Scalar.infinity := by decide
  have hbits : 0 < 53 := by decide
  have htwo := (orderedThroughout_iff hbits (.inr (.inl rfl)) 1).1
  have hmany := (orderedThroughout_iff hbits (.inl rfl) 2).1
  refine ⟨htwo.mpr (.inl le_rfl), fun h => ?_⟩
  rcases hmany.mp h with h | h
  · exact absurd h (by decide)
  · exact hone h

/-- A side of length 2 ^ 60 beside a side at one: after one cut of the long side the least distance is
one and the greatest zero, with exponent one and with squares. -/
theorem not_ordered_after_one_push :
    let first : Box (Binary 53) := ⟨[⟨.of _ 0, .of _ (2 ^ 60)⟩, ⟨.of _ 1, .of _ 1⟩]⟩
    let second : Box (Binary 53) := .ofPoint [.of _ 0, .of _ 0]
    let as : List (Action (Binary 53)) := [.push .first .lower ⟨0, .of _ 0⟩]
    first.Representable ∧ second.Representable ∧
    ∀ p : Binary 53, p = 1 ∨ p = Scalar.two →
      ∃ t, (build .unbounded first second (.ofExponent p) 0 Scalar.infinity).result = .ok t ∧
        t.CutsInside as ∧ (t.run as).bounds.least = 1 ∧ (t.run as).bounds.greatest = 0 ∧
        ¬ (t.run as).Ordered := by
  intro first second as
  have hfirst : first.Representable := Box.representable_tall 60 0
  have hsecond : second.Representable := Box.representable_origin 2
  have hfit : Space.unbounded.Fits first second := ⟨rfl, rfl⟩
  refine ⟨hfirst, hsecond, ?_⟩
  rintro p (rfl | rfl)
  · refine ⟨_, result_build_eq_ok_iff.mpr ⟨hfit, rfl⟩, ?_⟩
    decide +kernel
  · refine ⟨_, result_build_eq_ok_iff.mpr ⟨hfit, rfl⟩, ?_⟩
    decide +kernel

end Tracker

end

end MinkowskiBounds
