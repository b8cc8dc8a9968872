import MinkowskiBounds.Proofs.Box.Halves

/-!
# Dissections

A box is cut in two, its halves are cut again, and so on: what a search tree does to the region of its
root. The boxes at the leaves are the *parts*. Their volumes add up to that of the box, wherever the
cuts are; and if each cut is inside the box that it cuts, the parts lie within the box, hold all of its
points, and share none of their inner ones (`Dissection.parts_partition`).

All of this is by induction on the dissection, with one step for one cut: the volumes of two halves add
up, halves hold the points between them, and the plane of a cut keeps what is inside a part on one side
of it apart from what is inside a part on the other.
-/

namespace MinkowskiBounds

open Extended

/-- How a box is cut up. -/
inductive Dissection (α : Type) where
  /-- The box stays whole. -/
  | whole
  /-- The box is cut across a plane, and its halves are dissected further. -/
  | halves (plane : Cut α) (lower upper : Dissection α)
deriving Repr

namespace Dissection

section

variable {α : Type}

/-- The boxes that are left in the end, those below a cut before those above it. -/
def parts : Dissection α → Box α → Except Failure (List (Box α))
  | .whole, b => .ok [b]
  | .halves plane lower upper, b => do
    let (below, above) ← b.split plane
    return (← lower.parts below) ++ (← upper.parts above)

/-- All planes that the dissection cuts across. -/
def planes : Dissection α → List (Cut α)
  | .whole => []
  | .halves plane lower upper => plane :: (lower.planes ++ upper.planes)

/-- The boxes that are left in the end, where the box has an axis for each cut. -/
def pieces : Dissection α → Box α → List (Box α)
  | .whole, b => [b]
  | .halves plane lower upper, b =>
    lower.pieces (b.narrow .lower plane) ++ upper.pieces (b.narrow .upper plane)

/-- **The parts are found if the box has an axis for each cut.** -/
theorem parts_eq_pieces {d : Dissection α} {b : Box α} (h : ∀ c ∈ d.planes, c.axis < b.dims) :
    d.parts b = .ok (d.pieces b) := by
  induction d generalizing b with
  | whole => rfl
  | halves plane lower upper ihl ihu =>
    obtain ⟨hplane, hrest⟩ := List.forall_mem_cons.mp h
    obtain ⟨hlower, hupper⟩ := List.forall_mem_append.mp hrest
    have hl := ihl (b := b.narrow .lower plane) (by rwa [Box.dims_narrow])
    have hu := ihu (b := b.narrow .upper plane) (by rwa [Box.dims_narrow])
    simp only [parts, Box.split_of_lt hplane, bind, Except.bind, hl, hu, pieces]
    rfl

/-- Each cut is inside the box that it cuts. -/
def Inside [LE α] : Dissection α → Box α → Prop
  | .whole, _ => True
  | .halves plane lower upper, b =>
    (∀ I ∈ b.axes[plane.axis]?, I.lo ≤ plane.value ∧ plane.value ≤ I.hi) ∧
      lower.Inside (b.narrow .lower plane) ∧ upper.Inside (b.narrow .upper plane)

end

end Dissection

/-- The point is in the box and on none of its faces. -/
def Box.Surrounds {α : Type} [LT α] (b : Box α) (x : List α) : Prop :=
  List.Forall₂ (fun I v => I.lo < v ∧ v < I.hi) b.axes x

variable {K : Type} [Field K] [LinearOrder K] [FloorRing K] [Powers K] {b c : Box (Extended K)}

namespace Dissection

variable {d : Dissection (Extended K)} {plane : Cut (Extended K)}

/-! ## Volumes -/

/-- **The volumes of the pieces add up to that of the box.** -/
theorem exists_volumes_pieces (hb : b.IsNum)
    (h : ∀ c ∈ d.planes, c.axis < b.dims ∧ ∃ v : K, c.value = num v) :
    ∃ vs : List K, (d.pieces b).map Box.volume = vs.map num ∧ b.volume = num vs.sum := by
  induction d generalizing b with
  | whole =>
    obtain ⟨v, hv⟩ := hb.exists_volume
    exact ⟨[v], by rw [pieces, List.map_singleton, hv, List.map_singleton], by
      rw [hv, List.sum_singleton]⟩
  | halves plane lower upper ihl ihu =>
    obtain ⟨⟨hlt, v, hv⟩, hrest⟩ := List.forall_mem_cons.mp h
    obtain ⟨hlower, hupper⟩ := List.forall_mem_append.mp hrest
    have hnums : ∀ half, (b.narrow half plane).IsNum := fun half => hb.narrow ⟨v, hv⟩
    obtain ⟨vs, hvs, hvol⟩ := ihl (hnums .lower) (by rwa [Box.dims_narrow])
    obtain ⟨ws, hws, hvol'⟩ := ihu (hnums .upper) (by rwa [Box.dims_narrow])
    obtain ⟨lo, hi, hI⟩ := hb.exists_ends hlt
    obtain ⟨r, hr, hrlower, hrupper⟩ := hb.exists_volumes_halves hI hv
    rw [hvol, num.injEq] at hrlower
    rw [hvol', num.injEq] at hrupper
    refine ⟨vs ++ ws, ?_, ?_⟩
    · rw [pieces, List.map_append, hvs, hws, List.map_append]
    · rw [hr, List.sum_append, hrlower, hrupper, ← mul_add, sub_add_sub_cancel']

theorem sum_map_num (vs : List K) : (vs.map num).sum = num vs.sum := by
  induction vs with
  | nil => rfl
  | cons v vs ih => rw [List.map_cons, List.sum_cons, ih, num_add, List.sum_cons]

/-! ## Points -/

/-- **Each point of the box is in some piece.** -/
theorem exists_mem_pieces (hb : b.Proper) (hd : d.Inside b) {x : List (Extended K)}
    (hx : b.Holds x) : ∃ c ∈ d.pieces b, c.Holds x := by
  induction d generalizing b with
  | whole => exact ⟨b, List.mem_singleton_self b, hx⟩
  | halves plane lower upper ihl ihu =>
    obtain ⟨hplane, hlower, hupper⟩ := hd
    obtain ⟨half, hhalf⟩ := hb.isNum.exists_half_holds hplane hx
    cases half with
    | lower =>
      obtain ⟨c, hc, hcx⟩ := ihl (hb.narrow hplane .lower) hlower hhalf
      exact ⟨c, List.mem_append_left _ hc, hcx⟩
    | upper =>
      obtain ⟨c, hc, hcx⟩ := ihu (hb.narrow hplane .upper) hupper hhalf
      exact ⟨c, List.mem_append_right _ hc, hcx⟩

/-- **Each piece lies within the box**, with its ends in order. -/
theorem within_of_mem_pieces (hb : b.Proper) (hd : d.Inside b) :
    ∀ c ∈ d.pieces b, c.Proper ∧ c.Within b := by
  induction d generalizing b with
  | whole =>
    intro c hc
    rw [List.mem_singleton.mp hc]
    exact ⟨hb, hb.within_self⟩
  | halves plane lower upper ihl ihu =>
    obtain ⟨hplane, hlower, hupper⟩ := hd
    intro c hc
    rcases List.mem_append.mp hc with hc | hc
    · obtain ⟨hproper, hwithin⟩ := ihl (hb.narrow hplane .lower) hlower c hc
      exact ⟨hproper, hwithin.trans (hb.within_narrow hplane .lower)⟩
    · obtain ⟨hproper, hwithin⟩ := ihu (hb.narrow hplane .upper) hupper c hc
      exact ⟨hproper, hwithin.trans (hb.within_narrow hplane .upper)⟩

/-- What lies within the lower half surrounds no point that something within the upper half does. -/
theorem not_surrounds_of_within (hplane : plane.axis < b.dims) {a : Box (Extended K)}
    (ha : a.Within (b.narrow .lower plane)) (hc : c.Within (b.narrow .upper plane))
    (x : List (Extended K)) : ¬ (a.Surrounds x ∧ c.Surrounds x) := by
  rintro ⟨hax, hcx⟩
  obtain ⟨hlena, hends⟩ := forall₂_iff_getElem?.mp ha
  obtain ⟨hlenc, hends'⟩ := forall₂_iff_getElem?.mp hc
  obtain ⟨hlenx, hinner⟩ := forall₂_iff_getElem?.mp hax
  obtain ⟨-, hinner'⟩ := forall₂_iff_getElem?.mp hcx
  have hlower : (b.narrow .lower plane).axes.length = b.dims := Box.dims_narrow ..
  have hupper : (b.narrow .upper plane).axes.length = b.dims := Box.dims_narrow ..
  have hI := List.getElem?_eq_getElem hplane
  have hA := List.getElem?_eq_getElem (hlena.trans hlower ▸ hplane)
  have hC := List.getElem?_eq_getElem (hlenc.trans hupper ▸ hplane)
  have hv := List.getElem?_eq_getElem (hlenx ▸ hlena.trans hlower ▸ hplane)
  -- along the axis of the plane the point is below it and above it
  have hbelow := (hends _ _ _ hA (Box.getElem?_narrow.mpr ⟨_, hI, if_pos rfl⟩)).2
  have habove := (hends' _ _ _ hC (Box.getElem?_narrow.mpr ⟨_, hI, if_pos rfl⟩)).1
  have hle := ordered.le_trans (ordered.le_trans hbelow habove)
    (ordered.le_of_lt (hinner' _ _ _ hC hv).1)
  exact ordered.not_lt_of_le hle (hinner _ _ _ hA hv).2

/-- **No two pieces share a point that both surround.** -/
theorem pairwise_pieces (hb : b.Proper) (hd : d.Inside b) (hplanes : ∀ c ∈ d.planes, c.axis < b.dims) :
    (d.pieces b).Pairwise fun a c => ∀ x, ¬ (a.Surrounds x ∧ c.Surrounds x) := by
  induction d generalizing b with
  | whole => exact List.pairwise_singleton _ _
  | halves plane lower upper ihl ihu =>
    obtain ⟨hplane, hrest⟩ := List.forall_mem_cons.mp hplanes
    obtain ⟨hlower, hupper⟩ := List.forall_mem_append.mp hrest
    obtain ⟨hcut, hdl, hdu⟩ := hd
    have hbl := hb.narrow hcut .lower
    have hbu := hb.narrow hcut .upper
    refine List.pairwise_append.mpr ⟨ihl hbl hdl (by rwa [Box.dims_narrow]),
      ihu hbu hdu (by rwa [Box.dims_narrow]), ?_⟩
    intro a ha c hc
    exact not_surrounds_of_within hplane (within_of_mem_pieces hbl hdl a ha).2
      (within_of_mem_pieces hbu hdu c hc).2

/-! ## Parts -/

/--
**A dissection partitions a box.**

A box of numbers, cut at numbers across axes that it has, is cut up into parts whose volumes add up to
its own. If its ends are in order and each cut is inside the box that it cuts, then each point of the box
is in some part, each part lies within the box with its ends in order, and no point is strictly inside
two of the parts.
-/
theorem parts_partition (hb : b.IsNum)
    (hplanes : ∀ c ∈ d.planes, c.axis < b.dims ∧ ∃ v : K, c.value = num v) :
    ∃ cs, d.parts b = .ok cs ∧ (cs.map Box.volume).sum = b.volume ∧
      (b.Proper → d.Inside b →
        (∀ x, b.Holds x → ∃ c ∈ cs, c.Holds x) ∧
        (∀ c ∈ cs, c.Proper ∧ c.Within b) ∧
        cs.Pairwise fun a c => ∀ x, ¬ (a.Surrounds x ∧ c.Surrounds x)) := by
  have haxes : ∀ c ∈ d.planes, c.axis < b.dims := fun c hc => (hplanes c hc).1
  obtain ⟨vs, hvs, hvol⟩ := exists_volumes_pieces hb hplanes
  refine ⟨d.pieces b, parts_eq_pieces haxes, ?_, ?_⟩
  · rw [hvs, sum_map_num, hvol]
  · intro hproper hd
    exact ⟨fun x hx => exists_mem_pieces hproper hd hx, within_of_mem_pieces hproper hd,
      pairwise_pieces hproper hd haxes⟩

/-- A square cut in two, the lower part cut at its very end, the upper one cut along the other axis and
then once more along the first: four parts, one of them without volume. -/
theorem parts_partition_square :
    let b : Box (Extended ℚ) := ⟨[⟨num 0, num 4⟩, ⟨num 0, num 4⟩]⟩
    let d : Dissection (Extended ℚ) := .halves ⟨1, num (3 / 2)⟩
      (.halves ⟨1, num (3 / 2)⟩ .whole .whole)
      (.halves ⟨0, num 1⟩ .whole (.halves ⟨1, num 2⟩ .whole .whole))
    b.IsNum ∧ (∀ c ∈ d.planes, c.axis < b.dims ∧ ∃ v : ℚ, c.value = num v) ∧ b.Proper ∧ d.Inside b ∧
    ∃ cs, d.parts b = .ok cs ∧ cs.map Box.volume = [num 6, num 0, num (5 / 2), num (3 / 2), num 6] ∧
      (cs.map Box.volume).sum = num 16 ∧
      (∃ c ∈ cs, c.Holds [num 1, num 2]) ∧
      cs.Pairwise fun a c => ∀ x, ¬ (a.Surrounds x ∧ c.Surrounds x) := by
  intro b d
  have hb : b.Proper := Box.proper_map [(0, 4), (0, 4)] (by decide +kernel)
  have hplanes : ∀ c ∈ d.planes, c.axis < b.dims ∧ ∃ v : ℚ, c.value = num v := by
    simp only [d, planes, List.nil_append, List.append_nil, List.cons_append, List.forall_mem_cons]
    exact ⟨⟨Nat.one_lt_two, _, rfl⟩, ⟨Nat.one_lt_two, _, rfl⟩, ⟨Nat.two_pos, _, rfl⟩,
      ⟨Nat.one_lt_two, _, rfl⟩, fun _ h => nomatch h⟩
  have hinside : d.Inside b := by
    simp only [d, b, Inside, Box.narrow, and_true]
    decide +kernel
  have hx : b.Holds [num 1, num 2] := by
    simp only [b, Box.Holds, List.forall₂_cons, Interval.Holds, List.Forall₂.nil, and_true]
    decide +kernel
  obtain ⟨cs, hparts, hsum, hproper⟩ := parts_partition hb.isNum hplanes
  obtain ⟨hcover, -, hapart⟩ := hproper hb hinside
  have hvolumes : cs.map Box.volume = [num 6, num 0, num (5 / 2), num (3 / 2), num 6] := by
    rw [← Except.ok.inj ((parts_eq_pieces fun c hc => (hplanes c hc).1).symm.trans hparts)]
    decide +kernel
  have hvolume : b.volume = num 16 := by decide +kernel
  exact ⟨hb.isNum, hplanes, hb, hinside, cs, hparts, hvolumes, hsum.trans hvolume,
    hcover _ hx, hapart⟩

end Dissection

end MinkowskiBounds
