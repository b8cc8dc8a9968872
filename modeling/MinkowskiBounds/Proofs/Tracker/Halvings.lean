import Mathlib.Data.Int.CardIntervalMod
import MinkowskiBounds.Proofs.Box.Halves
import MinkowskiBounds.Proofs.Tracker.Extremes

/-!
# Halving a box again and again

`Box.halvings` cuts a box through the middle, then its lower half, and so on, and the axes take turns.
Where a cut is depends on all cuts before it across the same axis. Of a side that was halved `m` times
the lowest part of `1 / 2 ^ m` of its length is left, and an axis whose turn it is at level `k` was
halved once in each of the `k / dims` rounds before.

* `Box.HalvedTo` — what is left of a box after some of its halvings
* `Tracker.first_run_halvings` — the cuts in closed form, and what they leave to a tracker
-/

namespace MinkowskiBounds

open Extended

/-! ## Turns -/

/-- How many of the first `level` cuts are across `axis`, if `dims` axes take turns. -/
def turns (dims level axis : Nat) : Nat := level.count (· % dims = axis)

theorem turns_succ (dims level axis : Nat) :
    turns dims (level + 1) axis = turns dims level axis + if level % dims = axis then 1 else 0 :=
  Nat.count_succ (· % dims = axis) level

/-- The axis whose turn it is had one turn in every round before. -/
theorem turns_mod {dims : Nat} (h : 0 < dims) (level : Nat) :
    turns dims level (level % dims) = level / dims := by
  have hcount := Nat.count_modEq_card level h level
  rw [if_neg (lt_irrefl _), add_zero] at hcount
  exact hcount

variable {K : Type} [Field K] [LinearOrder K] [FloorRing K] [Powers K]

namespace Box

/-! ## Cuts and what is below them -/

section

variable {α : Type} [Scalar α]

/-- The lower half of a box, the lower half of that, and so on. -/
def lowerHalves (b : Box α) (cuts : List (Cut α)) : Except Failure (Box α) :=
  cuts.foldlM (fun c cut => return (← c.split cut).1) b

/-- Each cut is inside the interval that it splits of the lower half that those before it leave. -/
def SplitsInside : Box α → List (Cut α) → Prop
  | _, [] => True
  | b, cut :: cuts => (∀ I ∈ b.axes[cut.axis]?, I.lo ≤ cut.value ∧ cut.value ≤ I.hi) ∧
      (b.narrow .lower cut).SplitsInside cuts

omit [Scalar α] in
theorem lowerHalves_cons {b : Box α} {cut : Cut α} {cuts : List (Cut α)} (h : cut.axis < b.dims) :
    b.lowerHalves (cut :: cuts) = (b.narrow .lower cut).lowerHalves cuts := by
  rw [lowerHalves, List.foldlM_cons, split_of_lt h]
  rfl

theorem halvingsFrom_succ {b : Box α} {level count : Nat} {I : Interval α} {cut : Cut α}
    {cuts : List (Cut α)} (haxis : cut.axis = level % b.dims) (hI : b.axes[cut.axis]? = some I)
    (hvalue : (I.lo + I.hi) / Scalar.two = cut.value)
    (hcuts : (b.narrow .lower cut).halvingsFrom (level + 1) count = .ok cuts) :
    b.halvingsFrom level (count + 1) = .ok (cut :: cuts) := by
  have hdims : b.dims ≠ 0 := Nat.ne_zero_of_lt (List.getElem?_eq_some_iff.mp hI).1
  obtain ⟨axis, value⟩ := cut
  obtain rfl : axis = level % b.dims := haxis
  obtain rfl : (I.lo + I.hi) / Scalar.two = value := hvalue
  rw [halvingsFrom, if_neg hdims, interval_eq_ok_iff.mpr hI]
  show (do return _ :: (← (b.narrow .lower _).halvingsFrom (level + 1) count)) = _
  rw [hcuts]
  rfl

end

/-! ## What halvings leave -/

/-- What is left of a box after `level` cuts through the middle of which each left the lower half. -/
structure HalvedTo (b : Box (Extended K)) (level : Nat) (c : Box (Extended K)) : Prop where
  dims : c.dims = b.dims
  ends : ∀ (i : Nat) (lo hi : K), b.axes[i]? = some ⟨num lo, num hi⟩ →
    c.axes[i]? = some ⟨num lo, num (lo + (hi - lo) / 2 ^ turns b.dims level i)⟩
  volume : ∀ v : K, b.volume = num v → c.volume = num (v / 2 ^ level)

/-- The cut through the middle of what is left of a box at some level, across the axis whose turn it
is. -/
inductive IsHalving (b : Box (Extended K)) (level : Nat) : Cut (Extended K) → Prop
  | of_ends (lo hi : K) (hle : lo ≤ hi) (hI : b.axes[level % b.dims]? = some ⟨num lo, num hi⟩) :
    IsHalving b level ⟨level % b.dims, num (lo + (hi - lo) / 2 ^ (level / b.dims + 1))⟩

variable {b c : Box (Extended K)} {level : Nat} {cut : Cut (Extended K)}

omit [FloorRing K] [Powers K] in
theorem IsHalving.axis_eq (h : b.IsHalving level cut) : cut.axis = level % b.dims := by
  cases h
  rfl

omit [FloorRing K] [Powers K] in
theorem IsHalving.axis_lt (h : b.IsHalving level cut) : cut.axis < b.dims := by
  obtain ⟨lo, hi, -, hI⟩ := h
  exact (List.getElem?_eq_some_iff.mp hI).1

omit [FloorRing K] [Powers K] in
theorem Proper.exists_halving (hb : b.Proper) (hdims : 0 < b.dims) (level : Nat) :
    ∃ cut, b.IsHalving level cut := by
  obtain ⟨lo, hi, hle, hI⟩ := hb.exists_ends (Nat.mod_lt level hdims)
  exact ⟨_, .of_ends lo hi hle hI⟩

theorem HalvedTo.refl (b : Box (Extended K)) : b.HalvedTo 0 b where
  dims := rfl
  ends := by
    intro i lo hi hI
    rw [turns, Nat.count_zero, pow_zero, div_one, add_sub_cancel]
    exact hI
  volume := by
    intro v hv
    rw [pow_zero, div_one]
    exact hv

theorem HalvedTo.isNum (h : b.HalvedTo level c) (hb : b.IsNum) : c.IsNum := by
  intro I hI
  obtain ⟨i, hi⟩ := List.mem_iff_getElem?.mp hI
  have hlt : i < b.dims := h.dims ▸ (List.getElem?_eq_some_iff.mp hi).1
  obtain ⟨lo, hi', hJ⟩ := hb.exists_ends hlt
  exact ⟨_, _, Option.some.inj (hi.symm.trans (h.ends i lo hi' hJ))⟩

variable [IsStrictOrderedRing K]

/-- The interval that is halved, as it is by then. -/
theorem HalvedTo.exists_interval (h : b.HalvedTo level c) (hcut : b.IsHalving level cut) :
    ∃ lo w : K, 0 ≤ w ∧ c.axes[cut.axis]? = some ⟨num lo, num (lo + w)⟩ ∧
      cut.value = num (lo + w / 2) := by
  have hdims : 0 < b.dims := Nat.zero_lt_of_lt hcut.axis_lt
  obtain ⟨lo, hi, hle, hI⟩ := hcut
  have hends := h.ends _ lo hi hI
  rw [turns_mod hdims] at hends
  refine ⟨lo, (hi - lo) / 2 ^ (level / b.dims), ?_, hends, ?_⟩
  · exact div_nonneg (sub_nonneg.mpr hle) (by positivity)
  · rw [pow_succ, ← div_div]

/-- A halving cuts inside the interval that it splits. -/
theorem HalvedTo.cut_inside (h : b.HalvedTo level c) (hcut : b.IsHalving level cut) :
    ∀ I ∈ c.axes[cut.axis]?, I.lo ≤ cut.value ∧ cut.value ≤ I.hi := by
  obtain ⟨lo, w, hw, hends, hvalue⟩ := h.exists_interval hcut
  intro I hI
  obtain rfl := Option.some.inj (hends.symm.trans hI)
  rw [hvalue, num_le_num, num_le_num]
  exact ⟨le_add_of_nonneg_right (div_nonneg hw zero_le_two), by gcongr; exact half_le_self hw⟩

/-- **One more halving.** -/
theorem HalvedTo.narrow (h : b.HalvedTo level c) (hb : b.IsNum) (hcut : b.IsHalving level cut) :
    b.HalvedTo (level + 1) (c.narrow .lower cut) where
  dims := (dims_narrow ..).trans h.dims
  ends := by
    intro i lo hi hI
    have hdims : 0 < b.dims := Nat.zero_lt_of_lt hcut.axis_lt
    rw [getElem?_narrow]
    refine ⟨_, h.ends i lo hi hI, ?_⟩
    obtain ⟨lo', hi', -, hI'⟩ := hcut
    by_cases haxis : level % b.dims = i
    · subst haxis
      obtain ⟨rfl, rfl⟩ : lo' = lo ∧ hi' = hi := by simpa using hI'.symm.trans hI
      rw [if_pos rfl, turns_succ, if_pos rfl, turns_mod hdims]
      rfl
    · rw [if_neg haxis, turns_succ, if_neg haxis, add_zero]
  volume := by
    intro v hv
    obtain ⟨lo, w, -, hends, hvalue⟩ := h.exists_interval hcut
    obtain ⟨r, hwhole, hlower, -⟩ := (h.isNum hb).exists_volumes_halves hends hvalue
    have hv' : r * w = v / 2 ^ level := by
      simpa using hwhole.symm.trans (h.volume v hv)
    rw [hlower, add_sub_cancel_left, mul_div_assoc', hv', div_div, ← pow_succ]

/-! ## The cuts in closed form -/

/-- **Halvings from some level on are in closed form.** -/
theorem Proper.exists_halvingsFrom (hb : b.Proper) (hdims : 0 < b.dims) (count : Nat)
    (h : b.HalvedTo level c) :
    ∃ cuts, c.halvingsFrom level count = .ok cuts ∧ cuts.length = count ∧
      ∀ k cut, cuts[k]? = some cut → b.IsHalving (level + k) cut := by
  -- the closed form is in the ends of `b`, so the box that is cut further stays apart from it
  induction count generalizing level c with
  | zero =>
    refine ⟨[], rfl, rfl, ?_⟩
    intro k cut hk
    cases hk
  | succ count ih =>
    obtain ⟨cut, hcut⟩ := hb.exists_halving hdims level
    obtain ⟨cuts, hcuts, hlen, hclosed⟩ := ih (h.narrow hb.isNum hcut)
    refine ⟨cut :: cuts, ?_, congrArg (· + 1) hlen, ?_⟩
    · obtain ⟨lo, w, -, hends, hvalue⟩ := h.exists_interval hcut
      refine halvingsFrom_succ (h.dims ▸ hcut.axis_eq) hends ?_ hcuts
      have hmiddle : (lo + (lo + w)) / 2 = lo + w / 2 := by ring
      rw [hvalue, num_add, num_two, num_div _ two_ne_zero, hmiddle]
    · intro k cut' hk
      cases k with
      | zero => exact Option.some.inj hk ▸ hcut
      | succ k => exact Nat.add_right_comm level 1 k ▸ hclosed k cut' hk

/-- **What halvings in closed form leave.** -/
theorem HalvedTo.exists_lowerHalves {cuts : List (Cut (Extended K))} (hb : b.IsNum)
    (h : b.HalvedTo level c) (hcuts : ∀ k cut, cuts[k]? = some cut → b.IsHalving (level + k) cut) :
    c.SplitsInside cuts ∧
      ∃ d, c.lowerHalves cuts = .ok d ∧ b.HalvedTo (level + cuts.length) d := by
  induction cuts generalizing level c with
  | nil => exact ⟨trivial, c, rfl, h⟩
  | cons cut cuts ih =>
    have hcut : b.IsHalving level cut := hcuts 0 cut rfl
    have hrest : ∀ k cut, cuts[k]? = some cut → b.IsHalving (level + 1 + k) cut := by
      intro k cut' hk
      exact Nat.add_right_comm level 1 k ▸ hcuts (k + 1) cut' hk
    obtain ⟨hinside, d, hd, hhalved⟩ := ih (h.narrow hb hcut) hrest
    refine ⟨⟨h.cut_inside hcut, hinside⟩, d, ?_, ?_⟩
    · rw [lowerHalves_cons (h.dims ▸ hcut.axis_lt), hd]
    · rw [List.length_cons, ← Nat.succ_add_eq_add_succ]
      exact hhalved

end Box

/-! ## Pushing the cuts -/

namespace Tracker

/-- **A tracker that pushes cuts takes the lower halves.** -/
theorem run_lowerHalves {α : Type} [Scalar α] {t : Tracker α} {dims : Nat} {cuts : List (Cut α)}
    (hs : t.Shaped dims) (hcuts : ∀ cut ∈ cuts, cut.axis < dims) (hinside : t.first.SplitsInside cuts) :
    t.CutsInside (cuts.map (.push .first .lower)) ∧
      (t.run (cuts.map (.push .first .lower))).depth = t.depth + cuts.length ∧
      t.first.lowerHalves cuts = .ok (t.run (cuts.map (.push .first .lower))).first := by
  induction cuts generalizing t with
  | nil => exact ⟨trivial, rfl, rfl⟩
  | cons cut cuts ih =>
    have hlt : cut.axis < dims := hcuts cut List.mem_cons_self
    obtain ⟨s, hp⟩ := (exists_push_iff hs .first .lower cut).mpr hlt
    have hact : (t.act (.push .first .lower cut)).tracker = s := congrArg Prod.snd hp
    have hfirst : s.first = t.first.narrow .lower cut := (boxes_of_push hs hp).1
    obtain ⟨hins, hdepth, hhalves⟩ := ih (hact ▸ hs.act _)
      (fun cut' h => hcuts cut' (List.mem_cons_of_mem cut h)) (hfirst ▸ hinside.2)
    rw [List.map_cons, run_cons, hact]
    refine ⟨⟨hinside.1, hact ▸ hins⟩, ?_, ?_⟩
    · rw [hdepth, depth_of_push hs hp, List.length_cons, Nat.succ_add_eq_add_succ]
    · rw [Box.lowerHalves_cons (hs.first ▸ hlt), ← hfirst, hhalves]

variable [IsStrictOrderedRing K]

/--
**Halvings in closed form**, and what they leave to a tracker.

A box with an axis and its ends in order is halved to any depth. The cut with number `k` is across
axis `k` modulo the number of axes, and above the lower end of the box by the length of that side
divided by two to the power of the rounds begun by then. Every cut is inside the interval that it
splits. A tracker that pushes the cuts on its first box keeps the lower half of the lower half and so
on, of which the volume is halved with each cut.
-/
theorem first_run_halvings {b : Box (Extended K)} (hb : b.Proper) (hdims : 0 < b.dims) (depth : Nat) :
    ∃ cuts, b.halvings depth = .ok cuts ∧ cuts.length = depth ∧
      (∀ k < depth, ∃ lo hi : K, b.axes[k % b.dims]? = some ⟨num lo, num hi⟩ ∧
        cuts[k]? = some ⟨k % b.dims, num (lo + (hi - lo) / 2 ^ (k / b.dims + 1))⟩) ∧
      b.SplitsInside cuts ∧
      ∀ (space : Space (Extended K)) (second : Box (Extended K)) (n : Norm (Extended K))
        (ε limit : Extended K) (t : Tracker (Extended K)),
        (build space b second n ε limit).result = .ok t →
          t.CutsInside (cuts.map (.push .first .lower)) ∧
          (t.run (cuts.map (.push .first .lower))).depth = depth ∧
          b.lowerHalves cuts = .ok (t.run (cuts.map (.push .first .lower))).first ∧
          ∃ v : K, b.volume = num v ∧
            (t.run (cuts.map (.push .first .lower))).first.volume = num (v / 2 ^ depth) := by
  obtain ⟨cuts, hhalvings, hlen, hclosed⟩ :=
    hb.exists_halvingsFrom hdims depth (Box.HalvedTo.refl b)
  simp only [Nat.zero_add] at hclosed
  obtain ⟨hinside, d, hd, hhalved⟩ :=
    (Box.HalvedTo.refl b).exists_lowerHalves hb.isNum fun k cut hk => by
      rw [Nat.zero_add]
      exact hclosed k cut hk
  rw [Nat.zero_add, hlen] at hhalved
  have haxes : ∀ cut ∈ cuts, cut.axis < b.dims := by
    intro cut hcut
    obtain ⟨k, hk⟩ := List.mem_iff_getElem?.mp hcut
    exact (hclosed k cut hk).axis_lt
  refine ⟨cuts, hhalvings, hlen, ?_, hinside, ?_⟩
  · intro k hk
    obtain ⟨cut, hcut⟩ : ∃ cut, cuts[k]? = some cut := ⟨_, List.getElem?_eq_getElem (hlen ▸ hk)⟩
    obtain ⟨lo, hi, -, hI⟩ := hclosed k cut hcut
    exact ⟨lo, hi, hI, hcut⟩
  · intro space second n ε limit t ht
    obtain ⟨hfit, rfl⟩ := result_build_eq_ok_iff.mp ht
    obtain ⟨hcutsInside, hdepth, hlower⟩ :=
      run_lowerHalves (shaped_start hfit n ε limit) haxes hinside
    obtain ⟨v, hv⟩ := hb.isNum.exists_volume
    have hfirst : d = ((start space b second n ε limit).run (cuts.map (.push .first .lower))).first :=
      Except.ok.inj (hd.symm.trans hlower)
    refine ⟨hcutsInside, ?_, hlower, v, hv, hfirst ▸ hhalved.volume v hv⟩
    rw [hdepth, hlen]
    exact Nat.zero_add depth

/-- Five halvings of a box with two axes, of which the last but one is the second across its axis, and
the tracker that pushes them on a torus. -/
theorem first_run_halvings_five :
    let b : Box (Extended ℚ) := ⟨[⟨num 0, num 8⟩, ⟨num (-2), num 10⟩]⟩
    let torus : Torus (Extended ℚ) := ⟨[.ofPeriod (num 10), .ofPeriod (num 7)]⟩
    let second : Box (Extended ℚ) := .ofPoint [num 3, num 1]
    b.Proper ∧ 0 < b.dims ∧ ∃ cuts, b.halvings 5 = .ok cuts ∧ cuts.length = 5 ∧
      cuts[3]? = some ⟨1, num 1⟩ ∧ b.SplitsInside cuts ∧
      ∃ t, (build (.periodic torus) b second .euclidean (num 0) (.inf false)).result = .ok t ∧
        t.CutsInside (cuts.map (.push .first .lower)) ∧
        b.lowerHalves cuts = .ok (t.run (cuts.map (.push .first .lower))).first ∧
        (t.run (cuts.map (.push .first .lower))).first.volume = num 3 := by
  intro b torus second
  have hb : b.Proper := Box.proper_map [(0, 8), (-2, 10)] (by decide +kernel)
  have hdims : 0 < b.dims := Nat.two_pos
  obtain ⟨cuts, hhalvings, hlen, hclosed, hinside, htracker⟩ := first_run_halvings hb hdims 5
  have ht := result_build_eq_ok_iff.mpr
    ⟨(⟨rfl, rfl⟩ : (Space.periodic torus).Fits b second),
      (rfl : start (.periodic torus) b second .euclidean (num 0) (.inf false) = _)⟩
  obtain ⟨hcuts, -, hlower, v, hv, hvolume⟩ := htracker _ _ _ _ _ _ ht
  refine ⟨hb, hdims, cuts, hhalvings, hlen, ?_, hinside, _, ht, hcuts, hlower, ?_⟩
  · obtain ⟨lo, hi, hI, hcut⟩ := hclosed 3 (by decide)
    obtain ⟨rfl, rfl⟩ : -2 = lo ∧ 10 = hi := by simpa [b, Box.dims] using hI
    rw [hcut]
    norm_num [b, Box.dims]
  · have hwhole : b.volume = num 96 := by
      decide +kernel
    obtain rfl : v = 96 := num.inj (hv.symm.trans hwhole)
    rw [hvolume]
    norm_num

end Tracker

end MinkowskiBounds
