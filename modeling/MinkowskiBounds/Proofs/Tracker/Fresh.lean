import Mathlib.Algebra.BigOperators.Group.List.Basic
import Mathlib.Algebra.Group.Prod
import Mathlib.Data.Set.List
import Mathlib.Tactic.Abel
import MinkowskiBounds.Proofs.Space.Numbers
import MinkowskiBounds.Proofs.Tracker.Rollback

/-!
# Bounds kept up to date

A push corrects the bounds for one axis, or measures them again in the Chebyshev norm; a pop puts old
ones back. Either way a tracker holds the bounds that a new tracker for its boxes would hold. In the
Chebyshev norm this needs no law of the arithmetic. In all others it needs that what the axes
contribute is added and subtracted exactly: that it lies in the image of a commutative group on which
scalar addition and subtraction are those of the group (`Scalar.ExactSum`).
-/

namespace MinkowskiBounds

/-- Scalars that are added and subtracted as the elements of a commutative group are. -/
structure Scalar.ExactSum {G α : Type} [AddCommGroup G] [Scalar α] (e : G → α) : Prop where
  zero : e 0 = 0
  add : ∀ g h, e (g + h) = e g + e h
  sub : ∀ g h, e (g - h) = e g - e h

variable {α : Type} [Scalar α] {G : Type} [AddCommGroup G] {e : G → α}

/-! ## Exact totals -/

namespace Bounds

/-- The bounds that a pair of group elements stands for. -/
def image (e : G → α) (g : G × G) : Bounds α := ⟨e g.1, e g.2⟩

theorem image_add (he : Scalar.ExactSum e) (g h : G × G) :
    image e (g + h) = image e g + image e h := by
  show (⟨e (g.1 + h.1), e (g.2 + h.2)⟩ : Bounds α) = ⟨e g.1 + e h.1, e g.2 + e h.2⟩
  rw [he.add, he.add]

theorem image_sub (he : Scalar.ExactSum e) (g h : G × G) :
    image e (g - h) = image e g - image e h := by
  show (⟨e (g.1 - h.1), e (g.2 - h.2)⟩ : Bounds α) = ⟨e g.1 - e h.1, e g.2 - e h.2⟩
  rw [he.sub, he.sub]

theorem foldl_image (he : Scalar.ExactSum e) (gs : List (G × G)) :
    (gs.map (image e)).foldl (· + ·) .zero = image e gs.sum := by
  have hzero : image e (0 : G × G) = .zero := by
    show (⟨e 0, e 0⟩ : Bounds α) = ⟨0, 0⟩
    rw [he.zero]
  induction gs using List.reverseRecOn with
  | nil => exact hzero.symm
  | append_singleton gs g ih =>
    rw [List.map_append, List.foldl_append, ih, List.sum_append, List.sum_singleton, image_add he]
    rfl

/-- **Exchanging one entry of an exact total** takes the old one out and adds the new one. -/
theorem foldl_set (he : Scalar.ExactSum e) {bs : List (Bounds α)} {i : Nat} {old new : Bounds α}
    (hbs : ∀ b ∈ bs, ∃ g, image e g = b) (hold : bs[i]? = some old) (hnew : ∃ g, image e g = new) :
    (bs.set i new).foldl (· + ·) .zero = bs.foldl (· + ·) .zero - old + new := by
  obtain ⟨gs, rfl⟩ : bs ∈ Set.range (List.map (image e)) := by
    rw [Set.range_list_map]
    exact hbs
  obtain ⟨g, rfl⟩ := hnew
  rw [List.getElem?_map, Option.map_eq_some_iff] at hold
  obtain ⟨g₀, hg₀, rfl⟩ := hold
  obtain ⟨hi, hg₀⟩ := List.getElem?_eq_some_iff.mp hg₀
  rw [← List.map_set, foldl_image he, foldl_image he, ← image_sub he, ← image_add he,
    List.sum_set', dif_pos hi, hg₀]
  congr 1
  abel

end Bounds

/-! ## One push -/

namespace Tracker

variable {t t' : Tracker α} {dims : Nat} {side : Side} {half : Half} {cut : Cut α}

/-- What each axis contributes is exact. -/
def ExactShares (e : G → α) (t : Tracker α) : Prop :=
  ∀ s ∈ t.separations, ∃ g, Bounds.image e g = s.map t.norm.term

theorem measured_eq_sum (hn : t.norm ≠ .chebyshev) :
    t.measured = (t.separations.map (·.map t.norm.term)).foldl (· + ·) .zero := by
  rw [List.foldl_map, measured]
  cases h : t.norm with
  | chebyshev => exact absurd h hn
  | euclidean => rfl
  | manhattan => rfl
  | general p => rfl

/-- A push exchanges the separation along its axis. -/
theorem separations_narrow (hs : t.Shaped dims) {after : Bounds α}
    (hafter : (t.narrow side half cut).separations[cut.axis]? = some after) :
    (t.narrow side half cut).separations = t.separations.set cut.axis after := by
  have hs' := hs.narrow side half cut
  have hother : ∀ (b : Box α) (i : Nat), i ≠ cut.axis → (b.narrow half cut).axes[i]? = b.axes[i]? :=
    fun b i hi => List.getElem?_modify_ne _ _ (Ne.symm hi)
  have hdims : (t.narrow side half cut).first.dims = t.first.dims := hs'.first.trans hs.first.symm
  cases side with
  | first =>
    exact Space.separations_eq_set hs.fits hs'.fits hdims (hother t.first) (fun _ _ => rfl) hafter
  | second =>
    exact Space.separations_eq_set hs.fits hs'.fits hdims (fun _ _ => rfl) (hother t.second) hafter

theorem separations_pushed (t : Tracker α) (side : Side) (half : Half) (cut : Cut α)
    (I : Interval α) (bounds : Bounds α) :
    (t.pushed side half cut I bounds).separations = (t.narrow side half cut).separations := by
  cases side <;> rfl

omit [Scalar α] in
theorem norm_narrow (t : Tracker α) (side : Side) (half : Half) (cut : Cut α) :
    (t.narrow side half cut).norm = t.norm := by
  cases side <;> rfl

omit [Scalar α] in
theorem norm_pushed (t : Tracker α) (side : Side) (half : Half) (cut : Cut α)
    (I : Interval α) (bounds : Bounds α) : (t.pushed side half cut I bounds).norm = t.norm := by
  cases side <;> rfl

/-- A push leaves space and norm as they are. -/
theorem space_norm_act (hs : t.Shaped dims) {p : Push α} (hlt : p.cut.axis < dims) :
    (t.act p.action).tracker.space = t.space ∧ (t.act p.action).tracker.norm = t.norm := by
  obtain ⟨I, bounds, -, hpush, -⟩ := push_of_lt hs p.side p.half hlt
  rw [Push.action, tracker_act_push, hpush]
  cases p.side with
  | first => exact ⟨rfl, rfl⟩
  | second => exact ⟨rfl, rfl⟩

/-- In the Chebyshev norm a push measures again. -/
theorem bounds_of_push_chebyshev (hs : t.Shaped dims) (hn : t.norm = .chebyshev)
    (h : t.push side half cut = (.ok (), t')) : t'.bounds = t'.measured := by
  obtain ⟨I, bounds, ht', hmeasure, -⟩ := exists_of_push hs h
  have hsep : t'.separations = (t.narrow side half cut).separations := by
    rw [ht', separations_pushed]
  have hnorm : t'.norm = (t.narrow side half cut).norm := by
    rw [ht', norm_pushed, norm_narrow]
  have hbounds : t'.bounds = bounds := by
    rw [ht']
    rfl
  rw [hbounds, hmeasure hn, measured, measured, hsep, hnorm]

/-- **In all other norms a push keeps the bounds up to date** where what the axes contribute before
and after it is exact. -/
theorem bounds_of_push_exact (he : Scalar.ExactSum e) (hs : t.Shaped dims)
    (hn : t.norm ≠ .chebyshev) (hb : t.bounds = t.measured)
    (h : t.push side half cut = (.ok (), t')) (hold : t.ExactShares e) (hnew : t'.ExactShares e) :
    t'.bounds = t'.measured := by
  obtain ⟨I, bounds, ht', -, hcorrect⟩ := exists_of_push hs h
  obtain ⟨before, after, hbefore, hafter, hbounds⟩ := hcorrect hn
  have hsep : t'.separations = (t.narrow side half cut).separations := by
    rw [ht', separations_pushed]
  have hnorm : t'.norm = t.norm := by
    rw [ht', norm_pushed]
  rw [ExactShares, hsep, hnorm] at hnew
  have hshares : ∀ b ∈ t.separations.map (·.map t.norm.term), ∃ g, Bounds.image e g = b := by
    intro b hb'
    obtain ⟨s, hs', rfl⟩ := List.mem_map.mp hb'
    exact hold s hs'
  have hshare : (t.separations.map (·.map t.norm.term))[cut.axis]? = some (before.map t.norm.term) := by
    rw [List.getElem?_map, hbefore]
    rfl
  calc t'.bounds = bounds := by rw [ht']; rfl
    _ = t.measured - before.map t.norm.term + after.map t.norm.term := by rw [hbounds, hb]
    _ = ((t.separations.map (·.map t.norm.term)).set cut.axis (after.map t.norm.term)).foldl
          (· + ·) .zero := by
        rw [measured_eq_sum hn,
          Bounds.foldl_set he hshares hshare (hnew after (List.mem_of_getElem? hafter))]
    _ = t'.measured := by
        rw [measured_eq_sum (hnorm ▸ hn), hsep, hnorm, separations_narrow hs hafter, List.map_set]

/-- **Pushes that find the same leave the same.** Along the same axis of boxes that lie alike, before
the push and after it, two trackers save the same interval and come to the same bounds. -/
theorem exists_pushed_of_alike {u : Tracker α} {other : Side} (hs : t.Shaped dims)
    (hu : u.Shaped dims) (hnorm : u.norm = t.norm) (hbounds : u.bounds = t.bounds)
    (hbox : u.box other = t.box side) (hbefore : u.separations = t.separations)
    (hafter : (u.narrow other half cut).separations = (t.narrow side half cut).separations)
    (hlt : cut.axis < dims) :
    ∃ I bounds, t.push side half cut = (.ok (), t.pushed side half cut I bounds) ∧
      u.push other half cut = (.ok (), u.pushed other half cut I bounds) := by
  obtain ⟨I, bounds, hI, hp, hmeasure, hcorrect⟩ := push_of_lt hs side half hlt
  obtain ⟨I', bounds', hI', hp', hmeasure', hcorrect'⟩ := push_of_lt hu other half hlt
  rw [hbox, hI] at hI'
  cases hI'
  refine ⟨I, bounds, hp, ?_⟩
  suffices hsame : bounds' = bounds by rw [hp', hsame]
  by_cases hn : t.norm = .chebyshev
  · rw [hmeasure hn, hmeasure' (hnorm.trans hn), measured, measured, hafter, norm_narrow, norm_narrow,
      hnorm]
  · obtain ⟨before, after, hold, hnew, hb⟩ := hcorrect hn
    obtain ⟨before', after', hold', hnew', hb'⟩ := hcorrect' (hnorm ▸ hn)
    rw [hbefore, hold] at hold'
    rw [hafter, hnew] at hnew'
    cases hold'
    cases hnew'
    rw [hb, hb', hbounds, hnorm]

/-! ## Whole runs -/

theorem space_norm_run (hs : t.Shaped dims) (hf : t.stack.frames = []) (as : List (Action α)) :
    (t.run as).space = t.space ∧ (t.run as).norm = t.norm := by
  constructor
  · refine run_keeps (·.space) hs hf (fun _ _ => rfl) ?_ as
    intro s side half cut I bounds
    cases side <;> rfl
  · exact run_keeps (·.norm) hs hf (fun _ _ => rfl) norm_pushed as

/-- **In the Chebyshev norm the bounds are always up to date.** -/
theorem bounds_run_chebyshev (hs : t.Shaped dims) (hf : t.stack.frames = [])
    (hn : t.norm = .chebyshev) (hb : t.bounds = t.measured) (as : List (Action α)) :
    (t.run as).bounds = (t.run as).measured := by
  refine run_induction hs hf (P := fun s => s.bounds = s.measured) (fun _ _ hP => hP) hb as ?_
  intro bs p s _ _ hp
  exact bounds_of_push_chebyshev (hs.run bs) ((space_norm_run hs hf bs).2.trans hn) hp

/-- **The bounds are up to date** after every run in the Chebyshev norm, and in all others after a run
on which all contributions were exact. -/
theorem bounds_run_exact (he : Scalar.ExactSum e) (hs : t.Shaped dims) (hf : t.stack.frames = [])
    (hb : t.bounds = t.measured) (as : List (Action α))
    (hexact : t.norm = .chebyshev ∨ ∀ bs, bs <+: as → (t.run bs).ExactShares e) :
    (t.run as).bounds = (t.run as).measured := by
  by_cases hn : t.norm = .chebyshev
  · exact bounds_run_chebyshev hs hf hn hb as
  replace hexact := hexact.resolve_left hn
  refine run_induction hs hf (P := fun s => s.bounds = s.measured) (fun _ _ hP => hP) hb as ?_
  intro bs p s hbs hP hp
  have hnext : t.run (bs ++ [p.action]) = s := by
    rw [run_concat, Push.action, tracker_act_push, hp]
  refine bounds_of_push_exact he (hs.run bs) ?_ hP hp ?_ ?_
  · rw [(space_norm_run hs hf bs).2]
    exact hn
  · exact hexact bs ((List.prefix_append bs _).trans hbs)
  · exact hnext ▸ hexact _ hbs

end Tracker

/-! ## Exact arithmetic -/

/-- Arithmetic whose addition and subtraction are those of a commutative group. -/
structure Scalar.Exact (α : Type) [Scalar α] : Prop where
  add_assoc : ∀ a b c : α, a + b + c = a + (b + c)
  add_comm : ∀ a b : α, a + b = b + a
  zero_add : ∀ a : α, 0 + a = a
  sub_add_cancel : ∀ a b : α, a - b + b = a

/-- The group of all scalars. -/
abbrev Scalar.Exact.group (h : Scalar.Exact α) : AddCommGroup α where
  add := (· + ·)
  zero := 0
  neg a := 0 - a
  sub := (· - ·)
  add_assoc := h.add_assoc
  add_comm := h.add_comm
  zero_add := h.zero_add
  add_zero a := (h.add_comm a 0).trans (h.zero_add a)
  neg_add_cancel a := h.sub_add_cancel 0 a
  sub_eq_add_neg a b := by
    have hb : b + (0 - b) = 0 := (h.add_comm b (0 - b)).trans (h.sub_add_cancel 0 b)
    have ha : a - b + 0 = a - b := (h.add_comm (a - b) 0).trans (h.zero_add (a - b))
    calc a - b = a - b + (b + (0 - b)) := by rw [hb, ha]
      _ = a + (0 - b) := by rw [← h.add_assoc, h.sub_add_cancel]
  nsmul := @nsmulRec α ⟨0⟩ ⟨(· + ·)⟩
  zsmul := @zsmulRec α ⟨0⟩ ⟨(· + ·)⟩ ⟨fun a => 0 - a⟩ (@nsmulRec α ⟨0⟩ ⟨(· + ·)⟩)

theorem Scalar.Exact.exactSum (h : Scalar.Exact α) : @Scalar.ExactSum α α h.group _ id :=
  letI := h.group
  ⟨rfl, fun _ _ => rfl, fun _ _ => rfl⟩

/-- The numbers of a field by themselves; `top` stands in for the infinite one. -/
abbrev Scalar.ofField {K : Type} [Field K] [LinearOrder K] [FloorRing K] (top : K) (sqrt : K → K)
    (pow : K → K → K) : Scalar K where
  infinity := top
  abs a := |a|
  round a := Extended.roundAway a
  sqrt := sqrt
  pow := pow
  beq a b := decide (a = b)
  decideLT := inferInstance
  decideLE := inferInstance

/-- The numbers of a field are exact. -/
theorem Scalar.exact_ofField {K : Type} [Field K] [LinearOrder K] [FloorRing K] (top : K)
    (sqrt : K → K) (pow : K → K → K) : @Scalar.Exact K (Scalar.ofField top sqrt pow) :=
  let _ := Scalar.ofField top sqrt pow
  ⟨add_assoc, add_comm, zero_add, sub_add_cancel⟩

/-- Where the arithmetic is exact the bounds are up to date after every run. -/
theorem Tracker.bounds_run_of_exact (he : Scalar.Exact α) {t : Tracker α} {dims : Nat}
    (hs : t.Shaped dims) (hf : t.stack.frames = []) (hb : t.bounds = t.measured)
    (as : List (Action α)) : (t.run as).bounds = (t.run as).measured := by
  -- all scalars are the elements of one group, so that every contribution is exact
  let _ := he.group
  exact bounds_run_exact he.exactSum hs hf hb as (.inr fun _ _ _ _ => ⟨(_, _), rfl⟩)

theorem Extended.exactSum {K : Type} [Field K] [LinearOrder K] [FloorRing K] [Powers K] :
    Scalar.ExactSum (num : K → Extended K) :=
  ⟨rfl, fun _ _ => rfl, fun g h => (num_sub g h).symm⟩

namespace Tracker

variable {K : Type} [Field K] [LinearOrder K] [FloorRing K] [Powers K] {t : Tracker (Extended K)}
  {dims : Nat}

/-- Boxes of numbers, cut at numbers, stay boxes of numbers. -/
theorem isNum_run (hs : t.Shaped dims) (hf : t.stack.frames = []) (hfirst : t.first.IsNum)
    (hsecond : t.second.IsNum) {as : List (Action (Extended K))}
    (has : ∀ p : Push (Extended K), p.action ∈ as → ∃ v : K, p.cut.value = .num v) :
    (t.run as).first.IsNum ∧ (t.run as).second.IsNum := by
  refine run_induction hs hf (P := fun s => s.first.IsNum ∧ s.second.IsNum) (fun _ _ hP => hP)
    ⟨hfirst, hsecond⟩ as ?_
  intro bs p s hbs hP hp
  have hv := has p (hbs.subset (by simp))
  obtain ⟨h1, h2⟩ := boxes_of_push (hs.run bs) hp
  rw [h1, h2]
  cases p.side with
  | first => exact ⟨hP.1.narrow hv, hP.2⟩
  | second => exact ⟨hP.1, hP.2.narrow hv⟩

/-- **Boxes of numbers contribute exactly** where space and norm keep numbers. -/
theorem exactShares_of_isNum (hspace : t.space.KeepsNumbers) (hnorm : t.norm.KeepsNumbers)
    (hfirst : t.first.IsNum) (hsecond : t.second.IsNum) : t.ExactShares .num := by
  intro s hmem
  obtain ⟨l, g, rfl⟩ := Space.isNum_of_mem_separations hspace hfirst hsecond s hmem
  obtain ⟨l', hl⟩ := hnorm l
  obtain ⟨g', hg⟩ := hnorm g
  exact ⟨(l', g'), congrArg₂ Bounds.mk hl.symm hg.symm⟩

/-- So they do at every state of a run cut at numbers. -/
theorem exactShares_run_isNum (hs : t.Shaped dims) (hf : t.stack.frames = [])
    (hspace : t.space.KeepsNumbers) (hnorm : t.norm.KeepsNumbers) (hfirst : t.first.IsNum)
    (hsecond : t.second.IsNum) {as : List (Action (Extended K))}
    (has : ∀ p : Push (Extended K), p.action ∈ as → ∃ v : K, p.cut.value = .num v) :
    ∀ bs, bs <+: as → (t.run bs).ExactShares .num := by
  intro bs hbs
  obtain ⟨hspace', hnorm'⟩ := space_norm_run hs hf bs
  obtain ⟨hfirst', hsecond'⟩ := isNum_run hs hf hfirst hsecond fun p hp => has p (hbs.subset hp)
  exact exactShares_of_isNum (hspace' ▸ hspace) (hnorm' ▸ hnorm) hfirst' hsecond'

/-- Boxes of numbers have bounds that are up to date where space and norm keep numbers. -/
theorem bounds_run_isNum (hs : t.Shaped dims) (hf : t.stack.frames = [])
    (hb : t.bounds = t.measured) (hspace : t.space.KeepsNumbers) (hnorm : t.norm.KeepsNumbers)
    (hfirst : t.first.IsNum) (hsecond : t.second.IsNum) {as : List (Action (Extended K))}
    (has : ∀ p : Push (Extended K), p.action ∈ as → ∃ v : K, p.cut.value = .num v) :
    (t.run as).bounds = (t.run as).measured :=
  bounds_run_exact Extended.exactSum hs hf hb as
    (.inr (exactShares_run_isNum hs hf hspace hnorm hfirst hsecond has))

end Tracker

end MinkowskiBounds
