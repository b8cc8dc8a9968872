import MinkowskiBounds.Proofs.Scalar.Growing
import MinkowskiBounds.Proofs.Space.Extremes

/-!
# Bounding boxes

A bounding box is stretched point by point, starting from the first. At each stage it is *tight*: it
holds all points so far, and each of its ends is a coordinate of one of them (`Box.Tight`). A tight box
lies within every other box that holds the points, so there is only one, whatever the order of the
points and however often they come (`Box.bounding_least`).

No arithmetic is done on coordinates. They are taken from any set of scalars on which comparisons are
those of a linear order (`Scalar.LinearOn`), such as the extended numbers without what is not a number.
-/

namespace MinkowskiBounds

open Scalar

variable {α : Type} [Scalar α]

/-! ## Linear orders among the scalars -/

/-- On the values in `D` comparisons are those of a linear order. -/
structure Scalar.LinearOn (D : Set α) : Prop where
  le_total : ∀ {a b : α}, a ∈ D → b ∈ D → a ≤ b ∨ b ≤ a
  le_trans : ∀ {a b c : α}, a ∈ D → b ∈ D → c ∈ D → a ≤ b → b ≤ c → a ≤ c
  le_antisymm : ∀ {a b : α}, a ∈ D → b ∈ D → a ≤ b → b ≤ a → a = b
  lt_iff_not_le : ∀ {a b : α}, a ∈ D → b ∈ D → (a < b ↔ ¬ b ≤ a)

namespace Scalar.LinearOn

variable {D : Set α} {a b : α}

theorem le_refl (h : LinearOn D) (ha : a ∈ D) : a ≤ a := (h.le_total ha ha).elim id id

theorem le_of_not_lt (h : LinearOn D) (ha : a ∈ D) (hb : b ∈ D) (hab : ¬ a < b) : b ≤ a :=
  not_not.mp fun hnot => hab ((h.lt_iff_not_le ha hb).mpr hnot)

theorem le_of_lt (h : LinearOn D) (ha : a ∈ D) (hb : b ∈ D) (hab : a < b) : a ≤ b :=
  (h.le_total ha hb).resolve_right ((h.lt_iff_not_le ha hb).mp hab)

end Scalar.LinearOn

/-- Extended numbers are in a linear order but for what is not a number. -/
theorem Extended.linearOn {K : Type} [Field K] [LinearOrder K] [FloorRing K] [Powers K] :
    LinearOn {x : Extended K | IsDefined x} where
  le_total {a b} ha hb := by
    by_cases h : a ≤ b
    · exact .inl h
    · exact .inr (ordered.le_of_lt ((ordered.not_le ha hb).mp h))
  le_trans _ _ _ hab hbc := ordered.le_trans hab hbc
  le_antisymm _ _ hab hba := eq_of_le_of_ge hab hba
  lt_iff_not_le ha hb := (ordered.not_le hb ha).symm

variable {D : Set α}

/-! ## Stretching intervals -/

namespace Interval

variable {I : Interval α} {x y e : α}

/-- The lower and the upper end. -/
def ends (I : Interval α) : List α := [I.lo, I.hi]

omit [Scalar α] in
@[simp] theorem lo_mem_ends (I : Interval α) : I.lo ∈ I.ends := List.mem_cons_self

omit [Scalar α] in
@[simp] theorem hi_mem_ends (I : Interval α) : I.hi ∈ I.ends :=
  List.mem_cons_of_mem _ (List.mem_singleton_self _)

/-- The ends of a stretched interval are old ones, or what it was stretched to. -/
theorem mem_ends_extend (he : e ∈ (I.extend x).ends) : e ∈ I.ends ∨ e = x := by
  simp only [ends, extend, List.mem_cons, List.not_mem_nil, or_false] at he ⊢
  rcases he with rfl | rfl
  · split
    · exact .inr rfl
    · exact .inl (.inl rfl)
  · split
    · exact .inr rfl
    · exact .inl (.inr rfl)

/-- A stretched interval holds what it was stretched to. -/
theorem holds_extend_self (h : LinearOn D) (hlo : I.lo ∈ D) (hhi : I.hi ∈ D) (hx : x ∈ D) :
    (I.extend x).Holds x := by
  constructor
  · show (if x < I.lo then x else I.lo) ≤ x
    split
    · exact h.le_refl hx
    · next hge => exact h.le_of_not_lt hx hlo hge
  · show x ≤ if I.hi < x then x else I.hi
    split
    · exact h.le_refl hx
    · next hge => exact h.le_of_not_lt hhi hx hge

/-- A stretched interval holds what it held before. -/
theorem Holds.extend (h : LinearOn D) (hlo : I.lo ∈ D) (hhi : I.hi ∈ D) (hx : x ∈ D) (hy : y ∈ D)
    (hold : I.Holds y) : (I.extend x).Holds y := by
  constructor
  · show (if x < I.lo then x else I.lo) ≤ y
    split
    · next hlt => exact h.le_trans hx hlo hy (h.le_of_lt hx hlo hlt) hold.1
    · exact hold.1
  · show y ≤ if I.hi < x then x else I.hi
    split
    · next hlt => exact h.le_trans hy hhi hx hold.2 (h.le_of_lt hhi hx hlt)
    · exact hold.2

end Interval

/-! ## Boxes, interval by interval -/

theorem forall₂_iff_getElem? {β γ : Type} {R : β → γ → Prop} {bs : List β} {cs : List γ} :
    List.Forall₂ R bs cs ↔ bs.length = cs.length ∧
      ∀ (i : Nat) b c, bs[i]? = some b → cs[i]? = some c → R b c := by
  rw [List.forall₂_iff_zip]
  refine and_congr_right fun _ => ⟨fun h i b c hb hc => ?_, fun h b c hbc => ?_⟩
  · exact h (List.mem_of_getElem? (List.getElem?_zip_eq_some.mpr ⟨hb, hc⟩))
  · obtain ⟨i, hi⟩ := List.mem_iff_getElem?.mp hbc
    obtain ⟨hb, hc⟩ := List.getElem?_zip_eq_some.mp hi
    exact h i b c hb hc

/-- The points have `dims` coordinates each, all of them in `D`. -/
def PointsIn (D : Set α) (dims : Nat) (ps : List (List α)) : Prop :=
  ∀ p ∈ ps, p.length = dims ∧ ∀ v ∈ p, v ∈ D

namespace Box

variable {a b c : Box α} {ps qs : List (List α)} {x : List α} {v : α} {dims i : Nat}
  {I J : Interval α}

/-- All ends are in `D`. -/
def EndsIn (D : Set α) (b : Box α) : Prop := ∀ I ∈ b.axes, ∀ e ∈ I.ends, e ∈ D

/-- Each interval of the box lies within that of the other. -/
def Within (a c : Box α) : Prop :=
  List.Forall₂ (fun I J : Interval α => J.lo ≤ I.lo ∧ I.hi ≤ J.hi) a.axes c.axes

omit [Scalar α] in
theorem EndsIn.of_getElem? (hb : b.EndsIn D) (hI : b.axes[i]? = some I) : I.lo ∈ D ∧ I.hi ∈ D :=
  ⟨hb I (List.mem_of_getElem? hI) _ I.lo_mem_ends, hb I (List.mem_of_getElem? hI) _ I.hi_mem_ends⟩

theorem Holds.length_eq_dims (h : b.Holds x) : x.length = b.dims := (List.Forall₂.length_eq h).symm

theorem Holds.getElem? (h : b.Holds x) (hI : b.axes[i]? = some I) (hv : x[i]? = some v) :
    I.Holds v :=
  (forall₂_iff_getElem?.mp h).2 i I v hI hv

/-- Where no coordinate is missing or left over, stretching goes axis by axis. -/
theorem extendAxes_eq_zipWith {Is : List (Interval α)} {x : List α} (hx : x.length = Is.length) :
    extendAxes Is x = List.zipWith Interval.extend Is x := by
  induction Is generalizing x with
  | nil => cases x <;> rfl
  | cons I Is ih =>
    cases x with
    | nil => cases hx
    | cons v x => exact congrArg (_ :: ·) (ih (Nat.succ.inj hx))

theorem getElem?_extend (hx : x.length = b.dims) : (b.extend x).axes[i]? = some J ↔
    ∃ I v, b.axes[i]? = some I ∧ x[i]? = some v ∧ I.extend v = J := by
  rw [extend, extendAxes_eq_zipWith hx, List.getElem?_zipWith_eq_some]

/-! ## Boxes within boxes -/

/-- What a box holds, a box around it holds. -/
theorem Within.holds (h : LinearOn D) (hac : a.Within c) (ha : a.EndsIn D) (hc : c.EndsIn D)
    (hx : a.Holds x) (hxD : ∀ v ∈ x, v ∈ D) : c.Holds x := by
  obtain ⟨hlen, hends⟩ := forall₂_iff_getElem?.mp hac
  refine forall₂_iff_getElem?.mpr ⟨hlen.symm.trans hx.length_eq_dims.symm, ?_⟩
  intro i J v hJ hv
  obtain ⟨I, hI⟩ : ∃ I, a.axes[i]? = some I :=
    ⟨_, List.getElem?_eq_getElem (hlen ▸ (List.getElem?_eq_some_iff.mp hJ).1)⟩
  obtain ⟨hlo, hhi⟩ := hends i I J hI hJ
  obtain ⟨hvlo, hvhi⟩ := hx.getElem? hI hv
  obtain ⟨hIlo, hIhi⟩ := ha.of_getElem? hI
  obtain ⟨hJlo, hJhi⟩ := hc.of_getElem? hJ
  have hvD := hxD v (List.mem_of_getElem? hv)
  exact ⟨h.le_trans hJlo hIlo hvD hlo hvlo, h.le_trans hvD hIhi hJhi hvhi hhi⟩

/-- Two boxes within each other are the same. -/
theorem Within.antisymm (h : LinearOn D) (hac : a.Within c) (hca : c.Within a) (ha : a.EndsIn D)
    (hc : c.EndsIn D) : a = c := by
  obtain ⟨hlen, hends⟩ := forall₂_iff_getElem?.mp hac
  obtain ⟨-, hends'⟩ := forall₂_iff_getElem?.mp hca
  have haxes : a.axes = c.axes := by
    rw [← List.forall₂_eq_eq_eq, forall₂_iff_getElem?]
    refine ⟨hlen, ?_⟩
    intro i I J hI hJ
    obtain ⟨hIlo, hIhi⟩ := ha.of_getElem? hI
    obtain ⟨hJlo, hJhi⟩ := hc.of_getElem? hJ
    obtain ⟨hlo, hhi⟩ := hends i I J hI hJ
    obtain ⟨hlo', hhi'⟩ := hends' i J I hJ hI
    exact congrArg₂ Interval.mk (h.le_antisymm hIlo hJlo hlo' hlo)
      (h.le_antisymm hIhi hJhi hhi hhi')
  exact congrArg Box.mk haxes

/-- A box lies around another exactly when it holds the lower and the upper ends of the other, as two
points. -/
theorem holds_ends_iff (h : LinearOn D) (ha : a.EndsIn D) (hc : c.EndsIn D)
    (hle : ∀ I ∈ a.axes, I.lo ≤ I.hi) : (c.Holds a.lows ∧ c.Holds a.highs) ↔ a.Within c := by
  rw [Holds, Holds, lows, highs, List.forall₂_map_right_iff, List.forall₂_map_right_iff]
  constructor
  · rintro ⟨hlows, hhighs⟩
    refine forall₂_iff_getElem?.mpr ⟨hlows.length_eq.symm, ?_⟩
    intro i I J hI hJ
    exact ⟨((forall₂_iff_getElem?.mp hlows).2 i J I hJ hI).1,
      ((forall₂_iff_getElem?.mp hhighs).2 i J I hJ hI).2⟩
  · intro hac
    obtain ⟨hlen, hends⟩ := forall₂_iff_getElem?.mp hac
    have hboth : List.Forall₂ (fun J I => J.Holds I.lo ∧ J.Holds I.hi) c.axes a.axes := by
      refine forall₂_iff_getElem?.mpr ⟨hlen.symm, ?_⟩
      intro i J I hJ hI
      obtain ⟨hlo, hhi⟩ := hends i I J hI hJ
      obtain ⟨hIlo, hIhi⟩ := ha.of_getElem? hI
      obtain ⟨hJlo, hJhi⟩ := hc.of_getElem? hJ
      have hIle := hle I (List.mem_of_getElem? hI)
      exact ⟨⟨hlo, h.le_trans hIlo hIhi hJhi hIle hhi⟩, ⟨h.le_trans hJlo hIlo hIhi hlo hIle, hhi⟩⟩
    exact ⟨hboth.imp fun _ _ => And.left, hboth.imp fun _ _ => And.right⟩

/-! ## Tight boxes -/

/-- The box holds all of the points, and each of its ends is a coordinate of one of them. -/
structure Tight (b : Box α) (ps : List (List α)) : Prop where
  holds : ∀ p ∈ ps, b.Holds p
  attained : ∀ {i : Nat} {I : Interval α} {e : α}, b.axes[i]? = some I → e ∈ I.ends →
    ∃ p ∈ ps, p[i]? = some e

namespace Tight

theorem endsIn (ht : b.Tight ps) (hps : PointsIn D dims ps) : b.EndsIn D := by
  intro I hI e he
  obtain ⟨i, hi⟩ := List.mem_iff_getElem?.mp hI
  obtain ⟨p, hp, hget⟩ := ht.attained hi he
  exact (hps p hp).2 e (List.mem_of_getElem? hget)

theorem dims_eq (ht : b.Tight ps) (hne : ps ≠ []) (hps : PointsIn D dims ps) : b.dims = dims := by
  obtain ⟨p, hp⟩ := List.exists_mem_of_ne_nil ps hne
  exact (ht.holds p hp).length_eq_dims.symm.trans (hps p hp).1

/-- The ends of a tight box are in order, because a point lies between them. -/
theorem lo_le_hi (ht : b.Tight ps) (h : LinearOn D) (hne : ps ≠ []) (hps : PointsIn D dims ps) :
    ∀ I ∈ b.axes, I.lo ≤ I.hi := by
  intro I hI
  obtain ⟨p, hp⟩ := List.exists_mem_of_ne_nil ps hne
  obtain ⟨i, hi⟩ := List.mem_iff_getElem?.mp hI
  have hlt : i < p.length := (ht.holds p hp).length_eq_dims ▸ (List.getElem?_eq_some_iff.mp hi).1
  obtain ⟨hlo, hhi⟩ := (ht.holds p hp).getElem? hi (List.getElem?_eq_getElem hlt)
  obtain ⟨hIlo, hIhi⟩ := (ht.endsIn hps).of_getElem? hi
  exact h.le_trans hIlo ((hps p hp).2 _ (List.getElem_mem hlt)) hIhi hlo hhi

/-- **A tight box lies within every box that holds the points.** -/
theorem within (ht : b.Tight ps) (hne : ps ≠ []) (hc : ∀ p ∈ ps, c.Holds p) : b.Within c := by
  obtain ⟨p, hp⟩ := List.exists_mem_of_ne_nil ps hne
  refine forall₂_iff_getElem?.mpr
    ⟨(ht.holds p hp).length_eq_dims.symm.trans (hc p hp).length_eq_dims, ?_⟩
  intro i I J hI hJ
  obtain ⟨q, hq, hlo⟩ := ht.attained hI I.lo_mem_ends
  obtain ⟨r, hr, hhi⟩ := ht.attained hI I.hi_mem_ends
  exact ⟨((hc q hq).getElem? hJ hlo).1, ((hc r hr).getElem? hJ hhi).2⟩

/-- There is one tight box only for points, however they are listed. -/
theorem unique (h : LinearOn D) (hne : ps ≠ []) (hps : PointsIn D dims ps) (hb : b.Tight ps)
    (hc : c.Tight qs) (hsame : ∀ p, p ∈ qs ↔ p ∈ ps) : c = b := by
  have hc' : c.Tight ps := by
    refine ⟨fun p hp => hc.holds p ((hsame p).mpr hp), ?_⟩
    intro i I e hI he
    obtain ⟨p, hp, hget⟩ := hc.attained hI he
    exact ⟨p, (hsame p).mp hp, hget⟩
  exact (hc'.within hne hb.holds).antisymm h (hb.within hne hc'.holds) (hc'.endsIn hps)
    (hb.endsIn hps)

/-! ## Stretching boxes -/

theorem ofPoint (h : LinearOn D) (hx : ∀ v ∈ x, v ∈ D) : (Box.ofPoint x).Tight [x] := by
  refine ⟨?_, ?_⟩
  · intro p hp
    obtain rfl := List.mem_singleton.mp hp
    rw [Holds, Box.ofPoint, List.forall₂_map_left_iff, List.forall₂_same]
    exact fun v hv => ⟨h.le_refl (hx v hv), h.le_refl (hx v hv)⟩
  · intro i I e hI he
    rw [Box.ofPoint, List.getElem?_map, Option.map_eq_some_iff] at hI
    obtain ⟨v, hv, rfl⟩ := hI
    obtain rfl : e = v := by simpa [Interval.ends, Interval.ofPoint] using he
    exact ⟨x, List.mem_singleton_self x, hv⟩

/-- **Stretched to one more point, a tight box is tight.** -/
theorem extend (ht : b.Tight ps) (h : LinearOn D) (hps : PointsIn D dims ps)
    (hx : x.length = b.dims) (hxD : ∀ v ∈ x, v ∈ D) : (b.extend x).Tight (ps ++ [x]) := by
  refine ⟨?_, ?_⟩
  · intro p hp
    have hlen : b.dims = p.length := by
      rcases List.mem_append.mp hp with hp | hp
      · exact (ht.holds p hp).length_eq_dims.symm
      · rw [List.mem_singleton.mp hp, hx]
    refine forall₂_iff_getElem?.mpr ⟨(dims_extend b x).trans hlen, ?_⟩
    intro i J v hJ hv
    obtain ⟨I, w, hI, hw, rfl⟩ := (getElem?_extend hx).mp hJ
    obtain ⟨hIlo, hIhi⟩ := (ht.endsIn hps).of_getElem? hI
    have hwD := hxD w (List.mem_of_getElem? hw)
    rcases List.mem_append.mp hp with hp | hp
    · exact ((ht.holds p hp).getElem? hI hv).extend h hIlo hIhi hwD
        ((hps p hp).2 v (List.mem_of_getElem? hv))
    · obtain rfl := List.mem_singleton.mp hp
      obtain rfl : w = v := Option.some.inj (hw.symm.trans hv)
      exact Interval.holds_extend_self h hIlo hIhi hwD
  · intro i J e hJ he
    obtain ⟨I, w, hI, hw, rfl⟩ := (getElem?_extend hx).mp hJ
    rcases Interval.mem_ends_extend he with he | rfl
    · obtain ⟨p, hp, hget⟩ := ht.attained hI he
      exact ⟨p, List.mem_append_left _ hp, hget⟩
    · exact ⟨x, List.mem_append_right _ (List.mem_singleton_self x), hw⟩

end Tight

/-- One more point at the end stretches the bounding box of the others. -/
theorem bounding_concat (hne : ps ≠ []) (x : List α) :
    bounding (ps ++ [x]) = (bounding ps).extend x := by
  cases ps with
  | nil => exact absurd rfl hne
  | cons p ps => simp [bounding, List.foldl_append]

/-- **A bounding box is tight.** -/
theorem tight_bounding (h : LinearOn D) (hne : ps ≠ []) (hps : PointsIn D dims ps) :
    (bounding ps).Tight ps := by
  induction ps using List.reverseRecOn with
  | nil => exact absurd rfl hne
  | append_singleton ps x ih =>
    obtain ⟨hx, hxD⟩ := hps x (List.mem_append_right _ (List.mem_singleton_self x))
    by_cases hfirst : ps = []
    · subst hfirst
      exact .ofPoint h hxD
    · have hps' : PointsIn D dims ps := fun p hp => hps p (List.mem_append_left _ hp)
      have ht := ih hfirst hps'
      rw [bounding_concat hfirst]
      exact ht.extend h hps' (hx.trans (ht.dims_eq hfirst hps').symm) hxD

/-! ## Bounding boxes of bounding boxes -/

/-- The lower and the upper ends of both boxes, as points. -/
def corners (a b : Box α) : List (List α) := [a.lows, a.highs, b.lows, b.highs]

omit [Scalar α] in
/-- Corners have as many coordinates as their boxes have axes, all of them ends. -/
theorem EndsIn.pointsIn_corners (ha : a.EndsIn D) (hb : b.EndsIn D) (hda : a.dims = dims)
    (hdb : b.dims = dims) : PointsIn D dims (corners a b) := by
  have hends : ∀ {c : Box α}, c.EndsIn D → c.dims = dims → ∀ f : Interval α → α,
      (∀ I, f I ∈ I.ends) → (c.axes.map f).length = dims ∧ ∀ v ∈ c.axes.map f, v ∈ D := by
    intro c hc hdc f hf
    refine ⟨(List.length_map _).trans hdc, ?_⟩
    intro v hv
    obtain ⟨I, hI, rfl⟩ := List.mem_map.mp hv
    exact hc I hI _ (hf I)
  intro p hp
  simp only [corners, List.mem_cons, List.not_mem_nil, or_false] at hp
  rcases hp with rfl | rfl | rfl | rfl
  · exact hends ha hda _ Interval.lo_mem_ends
  · exact hends ha hda _ Interval.hi_mem_ends
  · exact hends hb hdb _ Interval.lo_mem_ends
  · exact hends hb hdb _ Interval.hi_mem_ends

/-- A box holds the corners of two others exactly when both lie within it. -/
theorem holds_corners_iff (h : LinearOn D) (ha : a.EndsIn D) (hb : b.EndsIn D) (hc : c.EndsIn D)
    (hale : ∀ I ∈ a.axes, I.lo ≤ I.hi) (hble : ∀ I ∈ b.axes, I.lo ≤ I.hi) :
    (∀ x ∈ corners a b, c.Holds x) ↔ a.Within c ∧ b.Within c := by
  rw [← holds_ends_iff h ha hc hale, ← holds_ends_iff h hb hc hble]
  simp only [corners, List.forall_mem_cons, List.not_mem_nil, false_imp_iff, implies_true,
    and_true, and_assoc]

/-- **The bounding box of two lists of points bounds the corners of their bounding boxes.** -/
theorem bounding_append (h : LinearOn D) (hpne : ps ≠ []) (hps : PointsIn D dims ps)
    (hqne : qs ≠ []) (hqs : PointsIn D dims qs) :
    bounding (ps ++ qs) = bounding (corners (bounding ps) (bounding qs)) := by
  have hall : PointsIn D dims (ps ++ qs) := List.forall_mem_append.mpr ⟨hps, hqs⟩
  have hne : ps ++ qs ≠ [] := List.append_ne_nil_of_left_ne_nil hpne qs
  have hp := tight_bounding h hpne hps
  have hq := tight_bounding h hqne hqs
  have he := tight_bounding h hne hall
  have hcornersIn : PointsIn D dims (corners (bounding ps) (bounding qs)) :=
    (hp.endsIn hps).pointsIn_corners (hq.endsIn hqs) (hp.dims_eq hpne hps) (hq.dims_eq hqne hqs)
  have hc := tight_bounding h (List.cons_ne_nil _ _) hcornersIn
  have hcorners {d : Box α} (hd : d.EndsIn D) := holds_corners_iff h (hp.endsIn hps)
    (hq.endsIn hqs) hd (hp.lo_le_hi h hpne hps) (hq.lo_le_hi h hqne hqs)
  -- the box around the corners is around both boxes, so it holds what they hold
  obtain ⟨hpc, hqc⟩ := (hcorners (hc.endsIn hcornersIn)).mp hc.holds
  have hholds : ∀ x ∈ ps ++ qs, (bounding (corners (bounding ps) (bounding qs))).Holds x := by
    intro x hx
    have hxD := (hall x hx).2
    rcases List.mem_append.mp hx with hx | hx
    · exact hpc.holds h (hp.endsIn hps) (hc.endsIn hcornersIn) (hp.holds x hx) hxD
    · exact hqc.holds h (hq.endsIn hqs) (hc.endsIn hcornersIn) (hq.holds x hx) hxD
  -- the box around all points is around both boxes, so it holds their corners
  have hpe := hp.within hpne fun x hx => he.holds x (List.mem_append_left qs hx)
  have hqe := hq.within hqne fun x hx => he.holds x (List.mem_append_right ps hx)
  exact (he.within hne hholds).antisymm h
    (hc.within (List.cons_ne_nil _ _) ((hcorners (he.endsIn hall)).mpr ⟨hpe, hqe⟩))
    (he.endsIn hall) (hc.endsIn hcornersIn)

/--
**A bounding box is the least box that holds its points.**

For points, at least one, with equally many coordinates in a linear order, the bounding box has as many
axes, ends in order, holds all of the points with each end a coordinate of one of them, and lies within
every other box that holds them. So it is the same for every list of the same points, in any order and
with any of them repeated, and the points of two lists are bounded by what bounds the corners of their
bounding boxes.
-/
theorem bounding_least (h : LinearOn D) (hne : ps ≠ []) (hps : PointsIn D dims ps) :
    (bounding ps).dims = dims ∧
    (∀ I ∈ (bounding ps).axes, I.lo ≤ I.hi) ∧
    (bounding ps).Tight ps ∧
    (∀ c : Box α, (∀ p ∈ ps, c.Holds p) → (bounding ps).Within c) ∧
    (∀ qs : List (List α), (∀ p, p ∈ qs ↔ p ∈ ps) → bounding qs = bounding ps) ∧
    ∀ qs : List (List α), qs ≠ [] → PointsIn D dims qs →
      bounding (ps ++ qs) = bounding [(bounding ps).lows, (bounding ps).highs, (bounding qs).lows,
        (bounding qs).highs] := by
  have ht := tight_bounding h hne hps
  refine ⟨ht.dims_eq hne hps, ht.lo_le_hi h hne hps, ht, fun c hc => ht.within hne hc, ?_, ?_⟩
  · intro qs hsame
    obtain ⟨p, hp⟩ := List.exists_mem_of_ne_nil ps hne
    have hqne : qs ≠ [] := List.ne_nil_of_mem ((hsame p).mpr hp)
    have hqs : PointsIn D dims qs := fun q hq => hps q ((hsame q).mp hq)
    exact Tight.unique h hne hps ht (tight_bounding h hqne hqs) hsame
  · intro qs hqne hqs
    exact bounding_append h hne hps hqne hqs

/-- Points with one coordinate twice and one at infinity, then in another order with one repeated, and
with another point beside them. -/
theorem bounding_least_ties :
    let D : Set (Extended ℚ) := {x | IsDefined x}
    let ps : List (List (Extended ℚ)) := [[.num 1, .num 5], [.num 3, .inf false], [.num 1, .num 2]]
    let around : Box (Extended ℚ) := ⟨[⟨.num 0, .num 3⟩, ⟨.inf true, .inf false⟩]⟩
    LinearOn D ∧ ps ≠ [] ∧ PointsIn D 2 ps ∧
    (bounding ps).lows = [.num 1, .num 2] ∧ (bounding ps).highs = [.num 3, .inf false] ∧
    (bounding ps).dims = 2 ∧ (bounding ps).Within around ∧
    bounding ([.num 1, .num 5] :: ps.reverse) = bounding ps ∧
    bounding (ps ++ [[.num 4, .num 3]]) = bounding [[.num 1, .num 2], [.num 3, .inf false],
      [.num 4, .num 3], [.num 4, .num 3]] := by
  intro D ps around
  have hps : PointsIn D 2 ps := by simp [ps, D, PointsIn, Extended.isDefined_iff]
  have hq : PointsIn D 2 [[.num 4, .num 3]] := by simp [D, PointsIn, Extended.isDefined_iff]
  have hne : ps ≠ [] := List.cons_ne_nil _ _
  obtain ⟨hdims, -, -, hleast, hsame, happend⟩ := bounding_least Extended.linearOn hne hps
  have hlows : (bounding ps).lows = [.num 1, .num 2] := by decide +kernel
  have hhighs : (bounding ps).highs = [.num 3, .inf false] := by decide +kernel
  have haround : ∀ p ∈ ps, around.Holds p := by
    simp only [ps, around, Holds, List.forall_mem_cons, List.forall₂_cons, Interval.Holds,
      List.Forall₂.nil, List.not_mem_nil, false_imp_iff, implies_true, and_true]
    decide +kernel
  have hreverse : ∀ p, p ∈ [.num 1, .num 5] :: ps.reverse ↔ p ∈ ps := by
    intro p
    rw [List.mem_cons, List.mem_reverse]
    exact or_iff_right_of_imp fun hp => hp ▸ List.mem_cons_self
  have hlast := happend [[.num 4, .num 3]] (List.cons_ne_nil _ _) hq
  rw [hlows, hhighs] at hlast
  exact ⟨Extended.linearOn, hne, hps, hlows, hhighs, hdims, hleast around haround, hsame _ hreverse,
    hlast⟩

end Box

end MinkowskiBounds
