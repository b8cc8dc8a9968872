import MinkowskiBounds.Box.Split
import MinkowskiBounds.Proofs.Box.Bounding

/-!
# Halves of a box

A cut inside a box leaves two halves that lie within it and hold its points between them, and no others.
Wherever the cut is, even outside, the volumes of the halves add up to that of the box: a volume is a
product in which the length along the axis of the cut is one factor
(`Box.IsNum.exists_volume_setInterval`), and the lengths of the parts of an interval add up to its own.
-/

namespace MinkowskiBounds

open Extended

variable {K : Type} [Field K] [LinearOrder K] [FloorRing K] [Powers K]

/-! ## Points -/

section

variable {I : Interval (Extended K)} {v x : Extended K} {half : Half}

theorem Interval.IsNum.exists_half_holds (hI : I.IsNum) (hlo : I.lo ≤ v) (hhi : v ≤ I.hi)
    (hx : I.Holds x) : ∃ half, (I.part v half).Holds x := by
  obtain ⟨a, b, rfl⟩ := hI
  obtain ⟨w, rfl, -, -⟩ := exists_num_of_mem hlo hhi
  obtain ⟨u, rfl, -, -⟩ := exists_num_of_mem hx.1 hx.2
  rcases le_total u w with h | h
  · exact ⟨.lower, hx.1, num_le_num.mpr h⟩
  · exact ⟨.upper, num_le_num.mpr h, hx.2⟩

theorem Interval.IsNum.holds_of_half (hI : I.IsNum) (hlo : I.lo ≤ v) (hhi : v ≤ I.hi)
    (hx : (I.part v half).Holds x) : I.Holds x := by
  obtain ⟨a, b, rfl⟩ := hI
  obtain ⟨w, rfl, haw, hwb⟩ := exists_num_of_mem hlo hhi
  cases half with
  | lower =>
    obtain ⟨u, rfl, hau, huw⟩ := exists_num_of_mem hx.1 hx.2
    exact ⟨hx.1, num_le_num.mpr (huw.trans hwb)⟩
  | upper =>
    obtain ⟨u, rfl, hwu, hub⟩ := exists_num_of_mem hx.1 hx.2
    exact ⟨num_le_num.mpr (haw.trans hwu), hx.2⟩

end

namespace Box

section

variable {b : Box (Extended K)} {cut : Cut (Extended K)} {half : Half} {x : List (Extended K)}

theorem IsNum.exists_half_holds (hb : b.IsNum)
    (hcut : ∀ I ∈ b.axes[cut.axis]?, I.lo ≤ cut.value ∧ cut.value ≤ I.hi) (hx : b.Holds x) :
    ∃ half, (b.narrow half cut).Holds x := by
  have hmodify : ∀ {Is : List (Interval (Extended K))} {x : List (Extended K)} {i : Nat},
      List.Forall₂ Interval.Holds Is x → (∀ I ∈ Is, I.IsNum) →
      (∀ I ∈ Is[i]?, I.lo ≤ cut.value ∧ cut.value ≤ I.hi) →
      ∃ half, List.Forall₂ Interval.Holds (Is.modify i (·.part cut.value half)) x := by
    intro Is x i h
    induction h generalizing i with
    | nil => exact fun _ _ => ⟨.lower, by simp⟩
    | cons hu hx ih =>
      intro hnum hcut
      cases i with
      | zero =>
        obtain ⟨hlo, hhi⟩ := hcut _ rfl
        obtain ⟨half, hhalf⟩ := (hnum _ List.mem_cons_self).exists_half_holds hlo hhi hu
        exact ⟨half, .cons hhalf hx⟩
      | succ i =>
        obtain ⟨half, hhalf⟩ := ih (fun I hI => hnum I (List.mem_cons_of_mem _ hI)) hcut
        exact ⟨half, .cons hu hhalf⟩
  exact hmodify hx hb hcut

theorem IsNum.holds_of_half (hb : b.IsNum)
    (hcut : ∀ I ∈ b.axes[cut.axis]?, I.lo ≤ cut.value ∧ cut.value ≤ I.hi)
    (hx : (b.narrow half cut).Holds x) : b.Holds x := by
  have hmodify : ∀ {Is : List (Interval (Extended K))} {x : List (Extended K)} {i : Nat},
      (∀ I ∈ Is, I.IsNum) → (∀ I ∈ Is[i]?, I.lo ≤ cut.value ∧ cut.value ≤ I.hi) →
      List.Forall₂ Interval.Holds (Is.modify i (·.part cut.value half)) x →
      List.Forall₂ Interval.Holds Is x := by
    intro Is
    induction Is with
    | nil =>
      intro x i _ _ h
      simpa using h
    | cons I Is ih =>
      intro x i hnum hcut h
      cases i with
      | zero =>
        cases h with
        | cons hu hx =>
          obtain ⟨hlo, hhi⟩ := hcut I rfl
          exact .cons ((hnum I List.mem_cons_self).holds_of_half hlo hhi hu) hx
      | succ i =>
        cases h with
        | cons hu hx => exact .cons hu (ih (fun J hJ => hnum J (List.mem_cons_of_mem I hJ)) hcut hx)
  exact hmodify hb hcut hx

end

variable {a b c : Box (Extended K)} {cut : Cut (Extended K)} {i : Nat} {lo hi v : K}

/-! ## Boxes within boxes -/

theorem Proper.within_self (hb : b.Proper) : b.Within b := by
  refine List.forall₂_same.mpr fun I hI => ?_
  obtain ⟨lo, hi, rfl, -⟩ := hb I hI
  exact ⟨num_le_num.mpr le_rfl, num_le_num.mpr le_rfl⟩

theorem Within.trans (hab : a.Within b) (hbc : b.Within c) : a.Within c := by
  obtain ⟨hlen, hends⟩ := forall₂_iff_getElem?.mp hab
  obtain ⟨hlen', hends'⟩ := forall₂_iff_getElem?.mp hbc
  refine forall₂_iff_getElem?.mpr ⟨hlen.trans hlen', ?_⟩
  intro i I L hI hL
  obtain ⟨J, hJ⟩ : ∃ J, b.axes[i]? = some J :=
    ⟨_, List.getElem?_eq_getElem (hlen ▸ (List.getElem?_eq_some_iff.mp hI).1)⟩
  obtain ⟨hlo, hhi⟩ := hends i I J hI hJ
  obtain ⟨hlo', hhi'⟩ := hends' i J L hJ hL
  exact ⟨ordered.le_trans hlo' hlo, ordered.le_trans hhi hhi'⟩

/-- A half lies within the box that was cut inside. -/
theorem Proper.within_narrow (hb : b.Proper)
    (hcut : ∀ I ∈ b.axes[cut.axis]?, I.lo ≤ cut.value ∧ cut.value ≤ I.hi) (half : Half) :
    (b.narrow half cut).Within b := by
  obtain ⟨-, hself⟩ := forall₂_iff_getElem?.mp hb.within_self
  refine forall₂_iff_getElem?.mpr ⟨dims_narrow b half cut, ?_⟩
  intro i I' J hI' hJ
  obtain ⟨I, hI, rfl⟩ := getElem?_narrow.mp hI'
  obtain rfl : I = J := Option.some.inj (hI.symm.trans hJ)
  obtain ⟨hlo, hhi⟩ := hself i I I hI hI
  split
  · next hi =>
    subst hi
    obtain ⟨hlov, hvhi⟩ := hcut I hI
    cases half with
    | lower => exact ⟨hlo, hvhi⟩
    | upper => exact ⟨hlov, hhi⟩
  · exact ⟨hlo, hhi⟩

/-! ## Volumes -/

omit [Field K] [LinearOrder K] [FloorRing K] [Powers K] in
theorem narrow_eq_setInterval {half : Half} {I : Interval (Extended K)}
    (h : b.axes[cut.axis]? = some I) :
    b.narrow half cut = b.setInterval cut.axis (I.part cut.value half) := by
  rw [narrow, setInterval, List.modify_eq_set_getElem?, h]
  rfl

omit [Field K] [LinearOrder K] [FloorRing K] [Powers K] in
theorem setInterval_self {I : Interval (Extended K)} (h : b.axes[i]? = some I) :
    b.setInterval i I = b := by
  obtain ⟨hlt, rfl⟩ := List.getElem?_eq_some_iff.mp h
  exact congrArg Box.mk (List.set_getElem_self hlt)

/-- Lengths that are numbers multiply to one. -/
theorem exists_foldl_lengths {Is : List (Interval (Extended K))} (h : ∀ I ∈ Is, I.IsNum) :
    ∃ r : K, ∀ v : K, Is.foldl (fun v I => v * (I.hi - I.lo)) (num v) = num (v * r) := by
  induction Is with
  | nil => exact ⟨1, fun v => by rw [List.foldl_nil, mul_one]⟩
  | cons I Is ih =>
    obtain ⟨lo, hi, rfl⟩ := h I List.mem_cons_self
    obtain ⟨r, hr⟩ := ih fun J hJ => h J (List.mem_cons_of_mem _ hJ)
    refine ⟨(hi - lo) * r, fun v => ?_⟩
    rw [List.foldl_cons, num_sub, num_mul, hr, mul_assoc]

/-- **The length of one side is a factor of the volume.** -/
theorem IsNum.exists_volume_setInterval (hb : b.IsNum) (hi : i < b.dims) :
    ∃ r : K, ∀ lo hi : K, (b.setInterval i ⟨num lo, num hi⟩).volume = num (r * (hi - lo)) := by
  have hfoldl : ∀ (Is : List (Interval (Extended K))) (i : Nat), (∀ I ∈ Is, I.IsNum) →
      i < Is.length → ∃ r : K, ∀ v lo hi : K, (Is.set i ⟨num lo, num hi⟩).foldl
        (fun v I => v * (I.hi - I.lo)) (num v) = num (v * (r * (hi - lo))) := by
    intro Is
    induction Is with
    | nil =>
      intro i _ hi
      cases hi
    | cons I Is ih =>
      intro i hnum hi
      have htail : ∀ J ∈ Is, J.IsNum := fun J hJ => hnum J (List.mem_cons_of_mem I hJ)
      cases i with
      | zero =>
        obtain ⟨r, hr⟩ := exists_foldl_lengths htail
        refine ⟨r, fun v lo hi => ?_⟩
        rw [List.set_cons_zero, List.foldl_cons, num_sub, num_mul, hr, mul_comm r, mul_assoc]
      | succ i =>
        obtain ⟨lo', hi', rfl⟩ := hnum I List.mem_cons_self
        obtain ⟨r, hr⟩ := ih i htail (Nat.lt_of_succ_lt_succ hi)
        refine ⟨(hi' - lo') * r, fun v lo hi => ?_⟩
        rw [List.set_cons_succ, List.foldl_cons, num_sub, num_mul, hr, mul_assoc, mul_assoc]
  obtain ⟨r, hr⟩ := hfoldl b.axes i hb hi
  exact ⟨r, fun lo hi => (hr 1 lo hi).trans (by rw [one_mul])⟩

theorem IsNum.exists_volume (hb : b.IsNum) : ∃ v : K, b.volume = num v := by
  obtain ⟨r, hr⟩ := exists_foldl_lengths hb
  exact ⟨1 * r, hr 1⟩

/-- **A cut divides the volume as it divides the length along its axis**, wherever it is. -/
theorem IsNum.exists_volumes_halves (hb : b.IsNum)
    (hI : b.axes[cut.axis]? = some ⟨num lo, num hi⟩) (hv : cut.value = num v) :
    ∃ r : K, b.volume = num (r * (hi - lo)) ∧
      (b.narrow .lower cut).volume = num (r * (v - lo)) ∧
      (b.narrow .upper cut).volume = num (r * (hi - v)) := by
  obtain ⟨r, hr⟩ := hb.exists_volume_setInterval (List.getElem?_eq_some_iff.mp hI).1
  refine ⟨r, ?_, ?_, ?_⟩
  · rw [← hr, setInterval_self hI]
  · rw [← hr, narrow_eq_setInterval hI, hv]
    rfl
  · rw [← hr, narrow_eq_setInterval hI, hv]
    rfl

end Box

end MinkowskiBounds
