import MinkowskiBounds.Proofs.Scalar.Real
import MinkowskiBounds.Proofs.Space.Far
import MinkowskiBounds.Proofs.Torus.Unwrapped
import MinkowskiBounds.Proofs.Tracker.Halves

/-!
# What pushes take out of the bounds

In all norms but the Chebyshev norm a push takes out of the bounds what its axis contributes, and puts
in what the axis contributes from then on. A number can be taken out of any sum. What is infinite or
undefined cannot: nothing is left of the sum but an undefined value, and what is undefined stays so.

Either bound is therefore that of a new tracker if all that the pending pushes took out of it were
numbers, and undefined otherwise (`Tracker.bound_run`). Nothing is asked of the space, the boxes, the
cuts or the powers.

* `Tracker.upToDate_or_undefined_run` — for runs of new trackers, and where numbers are taken out only
* `Tracker.least_undefined_of_far` — boxes on a torus whose least bound is undefined throughout
-/

namespace MinkowskiBounds

open Extended

/-! ## Sums with a term exchanged -/

/-- A summand of a sum, and the rest. -/
theorem exists_rest {M : Type} [AddCommMonoid M] {rs : List M} {i : Nat} {r : M}
    (h : rs[i]? = some r) :
    ∃ rest, rs.sum = rest + r ∧ ∀ r', (rs.set i r').sum = rest + r' := by
  obtain ⟨hi, rfl⟩ := List.getElem?_eq_some_iff.mp h
  refine ⟨(rs.take i).sum + (rs.drop (i + 1)).sum, ?_, fun r' => ?_⟩
  · rw [add_right_comm, ← List.sum_take_succ _ _ hi, List.sum_take_add_sum_drop]
  · rw [List.sum_set, if_pos hi, add_right_comm]

section

variable {K : Type} [Field K] [LinearOrder K] [FloorRing K] [Powers K] {xs : List (Extended K)}

namespace Extended

/-- A term of a sum as it is folded, and the rest. -/
theorem exists_rest_foldl {i : Nat} {x : Extended K} (h : xs[i]? = some x) : ∃ rest : Extended K,
    xs.foldl (· + ·) 0 = rest + x ∧ ∀ y, (xs.set i y).foldl (· + ·) 0 = rest + y := by
  let _ : AddCommMonoid (Extended K) := addCommMonoid
  obtain ⟨rest, hsum, hset⟩ := exists_rest h
  exact ⟨rest, List.sum_eq_foldl.symm.trans hsum, fun y => List.sum_eq_foldl.symm.trans (hset y)⟩

/-- **Exchanging a term of a sum** leaves the other terms and the new one if the old one is a number,
and nothing that is defined otherwise. -/
theorem foldl_sub_add {i : Nat} {old : Extended K} (h : xs[i]? = some old) (new : Extended K) :
    xs.foldl (· + ·) 0 - old + new
      = if old.isNum then (xs.set i new).foldl (· + ·) 0 else nan := by
  obtain ⟨rest, hsum, hset⟩ := exists_rest_foldl h
  rw [hsum, add_sub_self, hset]
  split
  · rfl
  · exact nan_add new

/-- A sum with an undefined term is undefined. -/
theorem foldl_eq_nan (h : nan ∈ xs) : xs.foldl (· + ·) 0 = nan := by
  obtain ⟨i, hi⟩ := List.mem_iff_getElem?.mp h
  obtain ⟨rest, hsum, -⟩ := exists_rest_foldl hi
  rw [hsum, Extended.add_comm, nan_add]

end Extended

end

/-- Either bound adds up by itself. -/
theorem Bounds.bound_ops {α : Type} [Scalar α] {bound : Bounds α → α}
    (h : bound ∈ [Bounds.least, Bounds.greatest]) :
    (∀ b c, bound (b + c) = bound b + bound c) ∧ (∀ b c, bound (b - c) = bound b - bound c) ∧
      bound .zero = 0 := by
  rcases List.mem_pair.mp h with rfl | rfl
  · exact ⟨fun _ _ => rfl, fun _ _ => rfl, rfl⟩
  · exact ⟨fun _ _ => rfl, fun _ _ => rfl, rfl⟩

namespace Tracker

/-! ## New trackers for the boxes at hand -/

section

variable {α : Type} [Scalar α] {t new : Tracker α} {dims : Nat} {space : Space α} {n : Norm α}

/-- A new tracker for the boxes as narrowed so far is built, and holds the same bounds. -/
def UpToDate (space : Space α) (n : Norm α) (t : Tracker α) : Prop :=
  ∀ ε limit, ∃ t', (build space t.first t.second n ε limit).result = .ok t' ∧ t'.bounds = t.bounds

theorem upToDate_of_measured (hs : t.Shaped dims) (hspace : t.space = space ∧ t.norm = n)
    (hb : t.bounds = t.measured) : UpToDate space n t := by
  obtain ⟨rfl, rfl⟩ := hspace
  intro ε limit
  exact ⟨_, result_build_eq_ok_iff.mpr ⟨hs.fits, rfl⟩, hb.symm⟩

theorem not_upToDate_of_ne {ε limit : α}
    (h : (build space t.first t.second n ε limit).result = .ok new) (hne : new.bounds ≠ t.bounds) :
    ¬ UpToDate space n t := by
  intro hup
  obtain ⟨t', ht', hb⟩ := hup ε limit
  rw [h] at ht'
  cases ht'
  exact hne hb

/-- What pushes take out of the bounds, one after the other. -/
def takenOut : Tracker α → List (Push α) → List (Bounds α)
  | _, [] => []
  | t, p :: ps =>
    match t.share p.cut.axis with
    | .ok taken => taken :: (t.act p.action).tracker.takenOut ps
    | .error _ => (t.act p.action).tracker.takenOut ps

end

/-! ## Pending pushes -/

variable {K : Type} [Field K] [LinearOrder K] [FloorRing K] [Powers K]
  {t : Tracker (Extended K)} {dims : Nat} {ps : List (Push (Extended K))}
  {bound : Bounds (Extended K) → Extended K}

/-- The measured bound is the sum of what all axes contribute to it. -/
theorem bound_measured (hbound : bound ∈ [Bounds.least, Bounds.greatest])
    (hn : t.norm ≠ .chebyshev) : bound t.measured
      = (t.separations.map fun s => bound (s.map t.norm.term)).foldl (· + ·) 0 := by
  obtain ⟨hadd, -, hzero⟩ := Bounds.bound_ops hbound
  rw [measured_eq_sum hn, List.foldl_map, List.foldl_map, ← hzero]
  exact (List.foldl_hom bound fun b s => (hadd b _).symm).symm

/-- **What one push does to a bound**: up to date before it, the bound is so after it if a number is
taken out of it, and undefined otherwise. Undefined before it, it stays so. -/
theorem bound_act_push (hs : t.Shaped dims) (hn : t.norm ≠ .chebyshev)
    (hbound : bound ∈ [Bounds.least, Bounds.greatest]) {p : Push (Extended K)}
    (hlt : p.cut.axis < dims) : ∃ taken, t.share p.cut.axis = .ok taken ∧
      (bound t.bounds = bound t.measured → bound (t.act p.action).tracker.bounds
        = if (bound taken).isNum then bound (t.act p.action).tracker.measured else nan) ∧
      (bound t.bounds = nan → bound (t.act p.action).tracker.bounds = nan) := by
  obtain ⟨I, bounds, -, hpush, -, hcorrect⟩ := push_of_lt hs p.side p.half hlt
  obtain ⟨before, after, hbefore, hafter, rfl⟩ := hcorrect hn
  have hnext : (t.act p.action).tracker = t.pushed p.side p.half p.cut I _ :=
    congrArg Prod.snd hpush
  obtain ⟨hadd, hsub, -⟩ := Bounds.bound_ops hbound
  have hnorm := (space_norm_act hs hlt).2
  have hbounds : bound (t.act p.action).tracker.bounds
      = bound t.bounds - bound (before.map t.norm.term) + bound (after.map t.norm.term) := by
    rw [← hsub, ← hadd, hnext]
    rfl
  refine ⟨_, Space.axisBounds_of_getElem? hbefore, ?_, ?_⟩
  · intro hb
    have hterm : (t.separations.map fun s => bound (s.map t.norm.term))[p.cut.axis]?
        = some (bound (before.map t.norm.term)) := by
      rw [List.getElem?_map, hbefore]
      rfl
    rw [hbounds, hb, bound_measured hbound hn, foldl_sub_add hterm,
      bound_measured hbound (hnorm ▸ hn), hnorm, hnext, separations_pushed,
      separations_narrow hs hafter, List.map_set]
  · intro hb
    rw [hbounds, hb, nan_sub, nan_add]

/-- **A bound after pushes** is the measured one if all that they took out of it were numbers, and
undefined otherwise. -/
theorem bound_run_pushes (hs : t.Shaped dims) (hn : t.norm ≠ .chebyshev)
    (hbound : bound ∈ [Bounds.least, Bounds.greatest]) (hps : ∀ p ∈ ps, p.cut.axis < dims) :
    (bound t.bounds = bound t.measured → bound (t.run (ps.map Push.action)).bounds
      = if (t.takenOut ps).all fun taken => (bound taken).isNum
        then bound (t.run (ps.map Push.action)).measured else nan) ∧
    (bound t.bounds = nan → bound (t.run (ps.map Push.action)).bounds = nan) := by
  induction ps generalizing t with
  | nil => exact ⟨id, id⟩
  | cons p ps ih =>
    have hlt := hps p List.mem_cons_self
    obtain ⟨taken, hshare, hpush, hundefined⟩ := bound_act_push hs hn hbound hlt
    obtain ⟨hrun, hrun_undefined⟩ := ih (hs.act p.action) ((space_norm_act hs hlt).2 ▸ hn)
      fun q hq => hps q (List.mem_cons_of_mem p hq)
    refine ⟨?_, fun hb => hrun_undefined (hundefined hb)⟩
    intro hb
    rw [takenOut, hshare, List.all_cons]
    cases hnum : (bound taken).isNum with
    | true =>
      rw [hnum, if_pos rfl] at hpush
      exact hrun (hpush hb)
    | false =>
      rw [hnum, if_neg Bool.false_ne_true] at hpush
      exact hrun_undefined (hpush hb)

/-- **A bound after a run** depends on the pending pushes alone: it is the measured one if all that they
took out of it were numbers, and undefined otherwise. -/
theorem bound_run (hs : t.Shaped dims) (hf : t.stack.frames = []) (hn : t.norm ≠ .chebyshev)
    (hbound : bound ∈ [Bounds.least, Bounds.greatest]) (as : List (Action (Extended K))) :
    (bound t.bounds = bound t.measured → bound (t.run as).bounds
      = if (t.takenOut (pending dims as)).all fun taken => (bound taken).isNum
        then bound (t.run as).measured else nan) ∧
    (bound t.bounds = nan → bound (t.run as).bounds = nan) := by
  obtain ⟨c, hc⟩ := uncapped_eq_iff.mp (uncapped_run hs hf as)
  rw [hc]
  exact bound_run_pushes hs hn hbound (axis_lt_of_mem_pending as)

/-- The bounds of a new tracker for intervals on one circle. -/
theorem bounds_start_circle {n : Norm (Extended K)} (hn : n ≠ .chebyshev) (C : Circle (Extended K))
    (I J : Interval (Extended K)) (ε limit : Extended K) :
    (start (.periodic ⟨[C]⟩) ⟨[I]⟩ ⟨[J]⟩ n ε limit).bounds = (C.separation I J).map n.term := by
  have hsum : (start (.periodic ⟨[C]⟩) ⟨[I]⟩ ⟨[J]⟩ n ε limit).bounds
      = .zero + (C.separation I J).map n.term :=
    measured_eq_sum (t := start (.periodic ⟨[C]⟩) ⟨[I]⟩ ⟨[J]⟩ n ε limit) hn
  rw [hsum]
  exact congrArg₂ Bounds.mk (Extended.zero_add _) (Extended.zero_add _)

end Tracker

/-! ## Powers of what is below zero -/

/-- Over the real numbers the natural exponents keep numbers, and no others. -/
theorem Norm.keepsNumbers_ofExponent_real {q : ℝ} :
    (ofExponent (num q)).KeepsNumbers ↔ ∃ k : ℕ, q = k := by
  rw [keepsNumbers_ofExponent_iff, forall_pow_num_iff]
  constructor
  · rintro (rfl | rfl | h)
    · exact ⟨1, Nat.cast_one.symm⟩
    · exact ⟨2, Nat.cast_ofNat.symm⟩
    · exact h
  · exact fun h => .inr (.inr h)

theorem Extended.pow_mul_self_three_halves {a : ℝ} (ha : 0 ≤ a) :
    Scalar.pow (num (a * a)) (num (3 / 2)) = num (a ^ 3) := by
  rw [pow_num (mul_self_nonneg a) (by norm_num), ← sq, ← Real.rpow_natCast a 2, ← Real.rpow_mul ha,
    ← Real.rpow_natCast a 3]
  norm_num

namespace Tracker

/-- **Boxes that lie apart along an axis but reach beyond its period** have an undefined least bound at
every state, if the exponent is not whole: along the axis the least separation is below zero. -/
theorem least_undefined_of_far {torus : Torus (Extended ℝ)} {first second : Box (Extended ℝ)}
    (hfit : (Space.periodic torus).Fits first second) {i : Nat} {full a b c d q : ℝ}
    (hC : torus.axes[i]? = some (.ofPeriod (num full)))
    (hI : first.axes[i]? = some ⟨num a, num b⟩) (hJ : second.axes[i]? = some ⟨num c, num d⟩)
    (hside : b ≤ c ∨ d ≤ a) (hfar : full < |a - d| ∨ full < |b - c|) (hq : q ≠ ⌊q⌋)
    (ε limit : Extended ℝ) (as : List (Action (Extended ℝ))) :
    ((start (.periodic torus) first second (.ofExponent (num q)) ε limit).run as).bounds.least
      = nan := by
  have hs := shaped_start hfit (.ofExponent (num q)) ε limit
  have hn : (start (.periodic torus) first second (.ofExponent (num q)) ε limit).norm
      ≠ .chebyshev := Norm.ofExponent_num_ne_chebyshev q
  have hgeneral : Norm.ofExponent (num q) = .general (num q) := by
    refine Norm.ofExponent_num ?_ ?_
    · rintro rfl
      exact hq (by rw [Int.floor_one, Int.cast_one])
    · rintro rfl
      exact hq (by rw [Int.floor_ofNat, Int.cast_ofNat])
  obtain ⟨l, g, hl, hsep⟩ := Axis.exists_separation_least_neg hside hfar
  have hmem : (⟨num l, num g⟩ : Bounds (Extended ℝ))
      ∈ (start (.periodic torus) first second (.ofExponent (num q)) ε limit).separations := by
    refine List.mem_of_getElem? (i := i)
      (Space.getElem?_separations.mpr ⟨_, _, _, ?_, hI, hJ, hsep⟩)
    rw [start, Space.axes, List.getElem?_map, hC]
    rfl
  have hleast : (start (.periodic torus) first second (.ofExponent (num q)) ε limit).bounds.least
      = nan := by
    refine (bound_measured List.mem_cons_self hn).trans (foldl_eq_nan ?_)
    refine List.mem_map.mpr ⟨_, hmem, ?_⟩
    rw [start, hgeneral]
    exact pow_num_of_neg hl hq
  exact (bound_run hs rfl hn List.mem_cons_self as).2 hleast

/-! ## Runs of new trackers -/

/--
**Bounds are those of a new tracker, or undefined.**

After any run a new tracker for the boxes as narrowed so far is built, whatever its tolerance and limit.

* In the Chebyshev norm it holds the same bounds, whatever the arithmetic; in any norm it does where
  the arithmetic is that of a group.
* Over extended numbers, in any other norm and for any space, boxes and cuts, either bound is the new
  one if all that the pending pushes took out of it were numbers, and undefined otherwise.
* It was numbers for boxes of numbers cut at numbers, in order or not, where space and norm keep
  numbers. All tori made from their periods do (`Torus.keepsNumbers_ofPeriods`), and all exponents
  whose powers are numbers (`Norm.keepsNumbers_ofExponent_iff`).
* It was numbers for boxes in order, on a torus within one period of each other, cut inside, in any norm
  that grows with the separations.
-/
theorem upToDate_or_undefined_run {K : Type} [Field K] [LinearOrder K] [IsStrictOrderedRing K]
    [FloorRing K] [Powers K] {space : Space (Extended K)} {first second : Box (Extended K)}
    {n : Norm (Extended K)} {ε limit : Extended K} {t : Tracker (Extended K)}
    (h : (build space first second n ε limit).result = .ok t) :
    (∀ (α : Type) [Scalar α] (space : Space α) (first second : Box α) (n : Norm α) (ε limit : α)
      (t : Tracker α), (build space first second n ε limit).result = .ok t →
      n = .chebyshev ∨ Scalar.Exact α → ∀ as, UpToDate space n (t.run as)) ∧
    (n ≠ .chebyshev → ∀ as ε' limit', ∃ new,
      (build space (t.run as).first (t.run as).second n ε' limit').result = .ok new ∧
      ∀ bound ∈ [Bounds.least, Bounds.greatest], bound (t.run as).bounds
        = if (t.takenOut (pending first.dims as)).all fun taken => (bound taken).isNum
          then bound new.bounds else nan) ∧
    (space.KeepsNumbers → n.KeepsNumbers → first.IsNum → second.IsNum → ∀ as,
      (∀ p : Push (Extended K), p.action ∈ as → ∃ v : K, p.cut.value = num v) →
      UpToDate space n (t.run as)) ∧
    (space.OfNumbers → space.Suits first second → n.IsMonotone → ∀ as, t.CutsInside as →
      UpToDate space n (t.run as)) := by
  refine ⟨?_, ?_⟩
  · intro α _ space first second n ε limit t h hexact as
    obtain ⟨hfit, rfl⟩ := result_build_eq_ok_iff.mp h
    have hs := shaped_start hfit n ε limit
    refine upToDate_of_measured (hs.run as) (space_norm_run hs rfl as) ?_
    rcases hexact with hn | he
    · exact bounds_run_chebyshev hs rfl hn rfl as
    · exact bounds_run_of_exact he hs rfl rfl as
  obtain ⟨hfit, rfl⟩ := result_build_eq_ok_iff.mp h
  have hs := shaped_start hfit n ε limit
  have hsn := space_norm_run hs rfl
  refine ⟨?_, ?_, ?_⟩
  · intro hn as ε' limit'
    obtain ⟨new, hnew, hbounds⟩ := exists_build_measured (hs.run as) ε' limit'
    rw [(hsn as).1, (hsn as).2] at hnew
    refine ⟨new, hnew, fun bound hbound => ?_⟩
    rw [hbounds]
    exact (bound_run hs rfl hn hbound as).1 rfl
  · intro hspace hnorm hfirst hsecond as has
    exact upToDate_of_measured (hs.run as) (hsn as)
      (bounds_run_isNum hs rfl rfl hspace hnorm hfirst hsecond has)
  · intro hspace hsuits hn as has
    exact upToDate_of_measured (hs.run as) (hsn as) (bounds_run_orderly hs rfl rfl hn
      fun bs hbs => orderly_run hs rfl (hsuits.orderly hspace) has hbs)

/-- All readings at once: rational numbers with an infinite period, an inverted box and cubes; machine
numbers in the Chebyshev norm; rational numbers by themselves; cubes on a torus with boxes in order; and
a finite half of an infinite period, where infinity is taken out of infinity. -/
theorem upToDate_or_undefined_run_examples :
    (let first : Box (Extended ℚ) := ⟨[⟨num 0, num 1⟩, ⟨num 3, num 2⟩]⟩
      let second : Box (Extended ℚ) := ⟨[⟨num 8, num 9⟩, ⟨num 5, num 7⟩]⟩
      let torus : Torus (Extended ℚ) := ⟨[.ofPeriod (num 10), .ofPeriod (inf false)]⟩
      let n : Norm (Extended ℚ) := .ofExponent (num 3)
      let t := start (.periodic torus) first second n (num 0) (inf false);
      UpToDate (.periodic torus) n
        (t.run [.push .second .lower ⟨0, num 6⟩, .push .first .upper ⟨1, num 4⟩, .pop])) ∧
    (let t : Tracker Float := start .unbounded ⟨[⟨0, 1⟩]⟩ ⟨[⟨0 / 0, 9⟩]⟩ .chebyshev 0 (1 / 0);
      UpToDate .unbounded .chebyshev (t.run [.push .first .lower ⟨0, 1 / 2⟩])) ∧
    (let _ : Scalar ℚ := .ofField 1000 id fun a _ => a ^ 3;
      let t : Tracker ℚ := start .unbounded ⟨[⟨1, 0⟩]⟩ ⟨[⟨4, 9⟩]⟩ (.general 3) 0 1000;
      UpToDate .unbounded (.general 3) (t.run [.push .first .lower ⟨0, 1 / 2⟩])) ∧
    (let first : Box (Extended ℚ) := ⟨[⟨num 0, num 3⟩]⟩
      let second : Box (Extended ℚ) := ⟨[⟨num 6, num 9⟩]⟩
      let torus : Torus (Extended ℚ) := ⟨[.ofPeriod (num 10)]⟩
      let n : Norm (Extended ℚ) := .ofExponent (num 3)
      let t := start (.periodic torus) first second n (num 0) (inf false);
      UpToDate (.periodic torus) n (t.run [.push .second .lower ⟨0, num 7⟩])) ∧
    (let first : Box (Extended ℚ) := ⟨[⟨num 5, num 6⟩]⟩
      let second : Box (Extended ℚ) := ⟨[⟨num 0, num 0⟩]⟩
      let torus : Torus (Extended ℚ) := ⟨[⟨inf false, num 3⟩]⟩
      let n : Norm (Extended ℚ) := .ofExponent (num 1)
      let t := start (.periodic torus) first second n (num 0) (inf false)
      let cut : Action (Extended ℚ) := .push .first .upper ⟨0, num 1⟩;
      (t.run [cut]).bounds.least = nan ∧ ∃ new,
        (build (.periodic torus) (t.run [cut]).first (t.run [cut]).second n (num 0) (inf false)).result
          = .ok new ∧ new.bounds.least = num 1) := by
  have hempty : (build .unbounded ⟨[]⟩ ⟨[]⟩ .manhattan (num 0 : Extended ℚ) (num 0)).result
      = .ok (start .unbounded ⟨[]⟩ ⟨[]⟩ .manhattan (num 0) (num 0)) :=
    result_build_eq_ok_iff.mpr ⟨⟨rfl, rfl⟩, rfl⟩
  have hexact := (upToDate_or_undefined_run hempty).1
  refine ⟨?_, ?_, ?_, ?_, ?_⟩
  · intro first second torus n t
    have ht : (build (.periodic torus) first second n (num 0) (inf false)).result = .ok t :=
      result_build_eq_ok_iff.mpr ⟨⟨rfl, rfl⟩, rfl⟩
    have htorus : Torus.ofPeriods [num 10, inf false] = .ok torus :=
      Torus.ofPeriods_eq_ok_iff.mpr ⟨by decide +kernel, rfl⟩
    have hn : n.KeepsNumbers := Norm.keepsNumbers_ofExponent_iff.mpr
      (.inr (.inr fun s => ⟨s ^ 3, pow_natCast s 3⟩))
    obtain ⟨-, -, hkeeps, -⟩ := upToDate_or_undefined_run ht
    refine hkeeps (Torus.keepsNumbers_ofPeriods htorus) hn (Box.isNum_map [(0, 1), (3, 2)])
      (Box.isNum_map [(8, 9), (5, 7)]) _ ?_
    rintro ⟨side, half, cut⟩ hp
    simp only [Push.action, List.mem_cons, List.not_mem_nil, Action.push.injEq, reduceCtorEq,
      or_false] at hp
    rcases hp with ⟨-, -, rfl⟩ | ⟨-, -, rfl⟩
    · exact ⟨6, rfl⟩
    · exact ⟨4, rfl⟩
  · intro t
    have ht : (build .unbounded t.first t.second t.norm 0 (1 / 0)).result = .ok t :=
      result_build_eq_ok_iff.mpr ⟨⟨rfl, rfl⟩, rfl⟩
    exact hexact Float _ _ _ _ _ _ t ht (.inl rfl) _
  · intro _ t
    have ht : (build .unbounded t.first t.second t.norm 0 1000).result = .ok t :=
      result_build_eq_ok_iff.mpr ⟨⟨rfl, rfl⟩, rfl⟩
    exact hexact ℚ _ _ _ _ _ _ t ht (.inr (Scalar.exact_ofField ..)) _
  · intro first second torus n t
    have ht : (build (.periodic torus) first second n (num 0) (inf false)).result = .ok t :=
      result_build_eq_ok_iff.mpr ⟨⟨rfl, rfl⟩, rfl⟩
    have hspace : (Space.periodic torus).OfNumbers := by
      rintro _ ⟨⟩
      exact ⟨[10], Torus.ofPeriods_eq_ok_iff.mpr ⟨by decide +kernel, rfl⟩⟩
    have hsuits : (Space.periodic torus).Suits first second := by
      refine ⟨Box.proper_map [(0, 3)] (by decide +kernel), Box.proper_map [(6, 9)] (by decide +kernel),
        ?_⟩
      rintro _ ⟨⟩
      decide +kernel
    have hn : n.IsMonotone := Norm.isMonotone_ofExponent (.inr ⟨3, rfl, powMonotone_natCast 3⟩)
    obtain ⟨-, -, -, hinside⟩ := upToDate_or_undefined_run ht
    exact hinside hspace hsuits hn _ (by decide +kernel)
  · intro first second torus n t cut
    have ht : (build (.periodic torus) first second n (num 0) (inf false)).result = .ok t :=
      result_build_eq_ok_iff.mpr ⟨⟨rfl, rfl⟩, rfl⟩
    obtain ⟨-, hbound, -, -⟩ := upToDate_or_undefined_run ht
    obtain ⟨new, hnew, hbounds⟩ :=
      hbound (Norm.ofExponent_num_ne_chebyshev 1) [cut] (num 0) (inf false)
    refine ⟨?_, new, hnew, ?_⟩
    · rw [hbounds _ List.mem_cons_self, if_neg (by decide +kernel)]
    · obtain ⟨-, rfl⟩ := result_build_eq_ok_iff.mp hnew
      decide +kernel

/-- An interval that reaches beyond the period of a circle, with exponent three halves. After a cut that
takes it back within the period a new tracker holds numbers, and the least bound is still undefined. -/
theorem not_upToDate_beyond_period :
    let torus : Torus (Extended ℝ) := ⟨[.ofPeriod (num 32)]⟩
    let first : Box (Extended ℝ) := ⟨[⟨num 4, num 36⟩]⟩
    let second : Box (Extended ℝ) := ⟨[⟨num 0, num 0⟩]⟩
    let n : Norm (Extended ℝ) := .ofExponent (num (3 / 2))
    let cut : Action (Extended ℝ) := .push .first .lower ⟨0, num 9⟩
    Torus.ofPeriods [num 32] = .ok torus ∧
    ∃ t new, (build (.periodic torus) first second n (num 0) (inf false)).result = .ok t ∧
      t.CutsInside [cut] ∧ (t.run [cut]).bounds.least = nan ∧
      (build (.periodic torus) (t.run [cut]).first (t.run [cut]).second n (num 0) (inf false)).result
        = .ok new ∧ new.bounds = ⟨num 8, num 27⟩ ∧
      ¬ UpToDate (.periodic torus) n (t.run [cut]) := by
  intro torus first second n cut
  have htorus : Torus.ofPeriods [num 32] = .ok torus :=
    Torus.ofPeriods_eq_ok_iff.mpr ⟨by simp [← num_zero], rfl⟩
  have hn : n ≠ .chebyshev := Norm.ofExponent_num_ne_chebyshev _
  have hgeneral : n = .general (num (3 / 2)) := Norm.ofExponent_num (by norm_num) (by norm_num)
  have hfit : (Space.periodic torus).Fits first second := ⟨rfl, rfl⟩
  have hbuild : (build (.periodic torus) first second n (num 0) (inf false)).result
      = .ok (start (.periodic torus) first second n (num 0) (inf false)) :=
    result_build_eq_ok_iff.mpr ⟨hfit, rfl⟩
  have hinside : (start (.periodic torus) first second n (num 0) (inf false)).CutsInside [cut] := by
    refine ⟨?_, trivial⟩
    rintro _ ⟨⟩
    exact ⟨num_le_num.mpr (by norm_num), num_le_num.mpr (by norm_num)⟩
  have hleast := least_undefined_of_far hfit (q := 3 / 2) (i := 0) rfl rfl rfl
    (.inr (by norm_num)) (.inr (by norm_num)) (by norm_num) (num 0) (inf false) [cut]
  -- what is left after the cut is within half a period
  have hafter : (Circle.ofPeriod (num 32)).separation ⟨num 4, num 9⟩ ⟨num 0, num 0⟩
      = (⟨num 4, num 9⟩ : Bounds (Extended ℝ)) := by
    rw [(Circle.Unwrapped.short (by norm_num) (by norm_num) le_rfl (by norm_num)
      (by norm_num)).separation_eq, Interval.separation_num]
    norm_num
  have hnew : (start (.periodic torus) ⟨[⟨num 4, num 9⟩]⟩ second n (num 0) (inf false)).bounds
      = ⟨num 8, num 27⟩ := by
    rw [bounds_start_circle hn, hafter, hgeneral]
    have h4 := pow_mul_self_three_halves (show (0 : ℝ) ≤ 2 by norm_num)
    have h9 := pow_mul_self_three_halves (show (0 : ℝ) ≤ 3 by norm_num)
    norm_num at h4 h9
    exact congrArg₂ Bounds.mk h4 h9
  have hbox := box_act_push (p := ⟨.first, .lower, ⟨0, num 9⟩⟩)
    (shaped_start hfit n (num 0) (inf false)) Nat.one_pos
  have hfirst : ((start (.periodic torus) first second n (num 0) (inf false)).run [cut]).first
      = ⟨[⟨num 4, num 9⟩]⟩ := hbox .first
  have hsecond : ((start (.periodic torus) first second n (num 0) (inf false)).run [cut]).second
      = second := hbox .second
  have hbuild' : (build (.periodic torus)
      ((start (.periodic torus) first second n (num 0) (inf false)).run [cut]).first
      ((start (.periodic torus) first second n (num 0) (inf false)).run [cut]).second n (num 0)
      (inf false)).result
        = .ok (start (.periodic torus) ⟨[⟨num 4, num 9⟩]⟩ second n (num 0) (inf false)) := by
    rw [hfirst, hsecond]
    exact result_build_eq_ok_iff.mpr ⟨⟨rfl, rfl⟩, rfl⟩
  refine ⟨htorus, _, _, hbuild, hinside, hleast, hbuild', hnew, not_upToDate_of_ne hbuild' ?_⟩
  intro hb
  have hdefined := (congrArg Bounds.least (hb.symm.trans hnew)).symm.trans hleast
  cases hdefined

end Tracker

end MinkowskiBounds
