import MinkowskiBounds.Proofs.Circle.Wrap
import MinkowskiBounds.Proofs.Norm.Monotone

/-!
# Numbers in, numbers out

Over extended numbers an axis may contribute something infinite or undefined: where a half period is
not a number, or where an infinite period comes with a finite half. The spaces, norms and boxes that
are set apart here do not leave the numbers. All spaces made from periods alone are among them.
-/

namespace MinkowskiBounds

open Extended

variable {K : Type} [Field K] [LinearOrder K] [FloorRing K] [Powers K]

/-! ## What keeps numbers -/

/-- Both bounds are numbers. -/
def Bounds.IsNum (s : Bounds (Extended K)) : Prop := ∃ l g : K, s = ⟨num l, num g⟩

/-- Both ends are numbers. -/
def Interval.IsNum (I : Interval (Extended K)) : Prop := ∃ lo hi : K, I = ⟨num lo, num hi⟩

/-- All ends are numbers. -/
def Box.IsNum (b : Box (Extended K)) : Prop := ∀ I ∈ b.axes, I.IsNum

/-- The circle never wraps, or its sizes are numbers. -/
def Circle.KeepsNumbers (c : Circle (Extended K)) : Prop :=
  c.half = inf false ∨ ∃ full half : K, c = ⟨num full, num half⟩

/-- No axis leads out of the numbers. -/
def Space.KeepsNumbers (space : Space (Extended K)) : Prop :=
  ∀ torus, space = .periodic torus → ∀ c ∈ torus.axes, c.KeepsNumbers

/-- A separation that is a number counts as a number. -/
def Norm.KeepsNumbers (n : Norm (Extended K)) : Prop := ∀ s : K, ∃ r : K, n.term (num s) = num r

theorem Norm.IsElementary.keepsNumbers {n : Norm (Extended K)} (h : n.IsElementary) :
    n.KeepsNumbers := by
  rcases h with rfl | rfl
  · exact fun s => ⟨s * s, num_mul s s⟩
  · exact fun s => ⟨s, rfl⟩

/-- **Exponents one and two keep numbers**, and any other does if all its powers are numbers. -/
theorem Norm.keepsNumbers_ofExponent_iff [IsStrictOrderedRing K] {q : K} :
    (ofExponent (num q)).KeepsNumbers ↔
      q = 1 ∨ q = 2 ∨ ∀ s : K, ∃ r : K, Scalar.pow (num s) (num q) = num r := by
  by_cases h1 : q = 1
  · rw [h1, num_one, ofExponent_one]
    exact iff_of_true (IsElementary.keepsNumbers (.inr rfl)) (.inl rfl)
  · by_cases h2 : q = 2
    · rw [h2, ← num_two, ofExponent_two]
      exact iff_of_true (IsElementary.keepsNumbers (.inl rfl)) (.inr (.inl rfl))
    · rw [ofExponent_num h1 h2, or_iff_right h1, or_iff_right h2]
      rfl

/-! ## Separations -/

theorem Interval.separation_num (lo hi lo' hi' : K) :
    Interval.separation (⟨num lo, num hi⟩ : Interval (Extended K)) ⟨num lo', num hi'⟩
      = ⟨num (max 0 (max (lo - hi') (lo' - hi))), num (max (hi - lo') (hi' - lo))⟩ := by
  simp only [separation, gap, reach, num_sub, max_num, ← num_zero]

theorem Bounds.sorted_num (a b : K) :
    Bounds.sorted (num a : Extended K) (num b) = ⟨num (min a b), num (max a b)⟩ := by
  unfold sorted
  rcases lt_or_ge b a with h | h
  · rw [if_pos (num_lt_num.mpr h), min_eq_right h.le, max_eq_left h.le]
  · rw [if_neg (by rw [num_lt_num]; exact not_lt.mpr h), min_eq_left h, max_eq_right h]

theorem Circle.isNum_fold {c : Circle (Extended K)} (h : c.KeepsNumbers) (lo hi : K) :
    (c.fold (num lo) (num hi)).IsNum := by
  unfold fold
  rw [abs_num, abs_num, Bounds.sorted_num]
  rcases h with hhalf | ⟨full, half, rfl⟩
  · -- nothing is above an infinite half period, so nothing is folded
    split
    · rw [foldApart, hhalf, if_pos (num_lt_inf _)]
      exact ⟨_, _, rfl⟩
    · rw [foldAcross, hhalf, neg_num]
      split
      · rw [if_neg (not_inf_lt _)]
        exact ⟨0, -lo, rfl⟩
      · rw [if_neg (not_inf_lt _)]
        exact ⟨0, hi, rfl⟩
  · split
    · rw [foldApart, num_sub, num_sub, min_num]
      split
      · exact ⟨_, _, rfl⟩
      · split <;> exact ⟨_, _, rfl⟩
    · rw [foldAcross, neg_num]
      split <;> split <;> exact ⟨0, _, rfl⟩

theorem Axis.isNum_separation {A : Axis (Extended K)} {I J : Interval (Extended K)}
    (hA : ∀ c, A = .circle c → c.KeepsNumbers) (hI : I.IsNum) (hJ : J.IsNum) :
    (A.separation I J).IsNum := by
  obtain ⟨lo, hi, rfl⟩ := hI
  obtain ⟨lo', hi', rfl⟩ := hJ
  cases A with
  | line => exact ⟨_, _, Interval.separation_num lo hi lo' hi'⟩
  | circle c =>
    rw [separation, Circle.separation, num_sub, num_sub]
    exact Circle.isNum_fold (hA c rfl) _ _

omit [Field K] [LinearOrder K] [FloorRing K] [Powers K] in
theorem Space.KeepsNumbers.axis {space : Space (Extended K)} (h : space.KeepsNumbers)
    {dims i : Nat} {A : Axis (Extended K)} (hA : (space.axes dims)[i]? = some A) :
    ∀ c, A = .circle c → c.KeepsNumbers := by
  rintro c rfl
  cases space with
  | unbounded => exact absurd (List.eq_of_mem_replicate (List.mem_of_getElem? hA)) (by simp)
  | periodic torus =>
    obtain ⟨d, hd, hdc⟩ := List.mem_map.mp (List.mem_of_getElem? hA)
    cases hdc
    exact h torus rfl _ hd

/-- **Boxes of numbers have separations that are numbers.** -/
theorem Space.isNum_of_mem_separations {space : Space (Extended K)} {a b : Box (Extended K)}
    (hspace : space.KeepsNumbers) (ha : a.IsNum) (hb : b.IsNum) :
    ∀ s ∈ space.separations a b, s.IsNum := by
  intro s hs
  obtain ⟨i, hi⟩ := List.mem_iff_getElem?.mp hs
  obtain ⟨A, I, J, hA, hI, hJ, rfl⟩ := getElem?_separations.mp hi
  exact Axis.isNum_separation (hspace.axis hA) (ha I (List.mem_of_getElem? hI))
    (hb J (List.mem_of_getElem? hJ))

/-! ## Narrowing -/

omit [Field K] [LinearOrder K] [FloorRing K] [Powers K] in
theorem Interval.IsNum.part {I : Interval (Extended K)} (h : I.IsNum) {v : Extended K}
    (hv : ∃ x : K, v = num x) (half : Half) : (I.part v half).IsNum := by
  obtain ⟨lo, hi, rfl⟩ := h
  obtain ⟨x, rfl⟩ := hv
  cases half with
  | lower => exact ⟨lo, x, rfl⟩
  | upper => exact ⟨x, hi, rfl⟩

omit [Field K] [LinearOrder K] [FloorRing K] [Powers K] in
theorem Box.IsNum.narrow {b : Box (Extended K)} (h : b.IsNum) {half : Half} {cut : Cut (Extended K)}
    (hcut : ∃ v : K, cut.value = num v) : (b.narrow half cut).IsNum :=
  forall_mem_narrow h fun I hI => (h I (List.mem_of_getElem? hI)).part hcut half

omit [Field K] [LinearOrder K] [FloorRing K] [Powers K] in
theorem Box.isNum_map (ends : List (K × K)) :
    Box.IsNum ⟨ends.map fun e => ⟨num e.1, num e.2⟩⟩ := by
  intro I hI
  obtain ⟨e, -, rfl⟩ := List.mem_map.mp hI
  exact ⟨e.1, e.2, rfl⟩

omit [Field K] [LinearOrder K] [FloorRing K] [Powers K] in
theorem Box.IsNum.exists_ends {b : Box (Extended K)} (h : b.IsNum) {i : Nat} (hi : i < b.dims) :
    ∃ lo hi : K, b.axes[i]? = some ⟨num lo, num hi⟩ := by
  have hI := List.getElem?_eq_getElem hi
  obtain ⟨lo, hi, hends⟩ := h _ (List.mem_of_getElem? hI)
  exact ⟨lo, hi, hI.trans (congrArg some hends)⟩

/-! ## Ends in order -/

/-- All ends are numbers, and in order. -/
def Box.Proper (b : Box (Extended K)) : Prop :=
  ∀ I ∈ b.axes, ∃ lo hi : K, I = ⟨num lo, num hi⟩ ∧ lo ≤ hi

omit [Field K] [FloorRing K] [Powers K] in
theorem Box.proper_map (ends : List (K × K)) (h : ∀ e ∈ ends, e.1 ≤ e.2) :
    Box.Proper ⟨ends.map fun e => ⟨num e.1, num e.2⟩⟩ := by
  intro I hI
  obtain ⟨e, he, rfl⟩ := List.mem_map.mp hI
  exact ⟨e.1, e.2, rfl, h e he⟩

omit [Field K] [FloorRing K] [Powers K] in
theorem Box.Proper.isNum {b : Box (Extended K)} (h : b.Proper) : b.IsNum := by
  intro I hI
  obtain ⟨lo, hi, hI, -⟩ := h I hI
  exact ⟨lo, hi, hI⟩

omit [Field K] [FloorRing K] [Powers K] in
theorem Box.Proper.exists_ends {b : Box (Extended K)} (h : b.Proper) {i : Nat} (hi : i < b.dims) :
    ∃ lo hi : K, lo ≤ hi ∧ b.axes[i]? = some ⟨num lo, num hi⟩ := by
  have hI := List.getElem?_eq_getElem hi
  obtain ⟨lo, hi, hends, hle⟩ := h _ (List.mem_of_getElem? hI)
  exact ⟨lo, hi, hle, hI.trans (congrArg some hends)⟩

/-- Cutting inside keeps the ends in order. -/
theorem Box.Proper.narrow {b : Box (Extended K)} (h : b.Proper) {cut : Cut (Extended K)}
    (hcut : ∀ I ∈ b.axes[cut.axis]?, I.lo ≤ cut.value ∧ cut.value ≤ I.hi) (half : Half) :
    (b.narrow half cut).Proper := by
  refine forall_mem_narrow h ?_
  intro I hI
  obtain ⟨lo, hi, rfl, -⟩ := h I (List.mem_of_getElem? hI)
  obtain ⟨hlo, hhi⟩ := hcut _ hI
  obtain ⟨v, hv, hlov, hvhi⟩ := exists_num_of_mem hlo hhi
  rw [hv]
  cases half with
  | lower => exact ⟨lo, v, rfl, hlov⟩
  | upper => exact ⟨v, hi, rfl, hvhi⟩

/-! ## Tori made from periods -/

variable [IsStrictOrderedRing K]

/-- Half of an infinite period is infinite. -/
theorem Circle.half_ofPeriod_inf : (Circle.ofPeriod (inf false : Extended K)).half = inf false := by
  show (inf false : Extended K) / Scalar.two = inf false
  rw [num_two]
  show inf (false ^^ decide ((2 : K) < 0)) = inf false
  rw [decide_eq_false (not_lt.mpr zero_le_two)]
  rfl

/-- A period above zero is a number or infinite, and so is its half. -/
theorem Circle.keepsNumbers_ofPeriod {full : Extended K} (h : 0 < full) :
    (Circle.ofPeriod full).KeepsNumbers := by
  cases full with
  | num f => exact .inr ⟨f, f / 2, ofPeriod_num f⟩
  | inf s => cases s with
    | false => exact .inl half_ofPeriod_inf
    | true => exact absurd h Bool.false_ne_true
  | nan => exact absurd h Bool.false_ne_true

/-- **A torus made from its periods keeps numbers**, whichever of them are infinite. -/
theorem Torus.keepsNumbers_ofPeriods {periods : List (Extended K)} {torus : Torus (Extended K)}
    (h : Torus.ofPeriods periods = .ok torus) : (Space.periodic torus).KeepsNumbers := by
  obtain ⟨hall, rfl⟩ := ofPeriods_eq_ok_iff.mp h
  rintro _ ⟨⟩ c hc
  obtain ⟨full, hfull, rfl⟩ := List.mem_map.mp hc
  exact Circle.keepsNumbers_ofPeriod (hall full hfull)

end MinkowskiBounds
