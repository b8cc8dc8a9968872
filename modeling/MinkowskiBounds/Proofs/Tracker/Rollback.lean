import MinkowskiBounds.Proofs.Tracker.Step
import MinkowskiBounds.Scalar.Machine

/-!
# Rollback

Every pop undoes the push that it belongs to, so that after any run a tracker is in the state that
the pushes still pending lead to by themselves. Only the room on its stack remembers more.

A state is compared by `Tracker.uncapped`, which forgets that room. Actions never look at it, so they
take states alike but for the room to states alike but for the room; and undoing a push gives back
the state before but for the room. The pending pushes of a run are therefore found by an induction
along the run, with no look at what the pushes computed: no law of the arithmetic is used.

* `Tracker.uncapped_run` — a run is replaced by its pending pushes
* `Tracker.run_induction` — what pushes preserve holds after every run
-/

namespace MinkowskiBounds

variable {α : Type} [Scalar α] {space : Space α} {n : Norm α} {first second : Box α} {ε limit : α}
  {t t' : Tracker α} {dims : Nat}

namespace Tracker

/-! ## Forgetting the room on the stack -/

/-- The state with room for `capacity` frames. -/
def withCapacity (t : Tracker α) (capacity : Nat) : Tracker α :=
  { t with stack := { t.stack with capacity } }

/-- All of the state but the room on the stack. -/
def uncapped (t : Tracker α) : Tracker α := t.withCapacity 0

omit [Scalar α] in
theorem uncapped_eq_iff : t'.uncapped = t.uncapped ↔ ∃ c, t' = t.withCapacity c := by
  constructor
  · intro h
    refine ⟨t'.capacity, ?_⟩
    show t'.uncapped.withCapacity t'.capacity = t.uncapped.withCapacity t'.capacity
    rw [h]
  · rintro ⟨c, rfl⟩
    rfl

omit [Scalar α] in
@[simp] theorem norm_withCapacity (t : Tracker α) (c : Nat) : (t.withCapacity c).norm = t.norm := rfl

omit [Scalar α] in
@[simp] theorem uncapped_reserve (t : Tracker α) : t.reserve.uncapped = t.uncapped := rfl

omit [Scalar α] in
theorem box_eq_of_uncapped (h : t'.uncapped = t.uncapped) (side : Side) :
    t'.box side = t.box side := by
  obtain ⟨c, rfl⟩ := uncapped_eq_iff.mp h
  cases side <;> rfl

/-- Two outcomes of a piece of work that differ in the room on the stack at most. -/
def Alike (r r' : Except Failure Unit × Tracker α) : Prop :=
  r.1 = r'.1 ∧ r.2.uncapped = r'.2.uncapped

omit [Scalar α] in
theorem alike_proceed {β : Type} {found : Except Failure β}
    {next next' : β → Except Failure Unit × Tracker α} (ht : t'.uncapped = t.uncapped)
    (h : ∀ b, Alike (next' b) (next b)) : Alike (t'.proceed found next') (t.proceed found next) := by
  cases found with
  | error cause => exact ⟨rfl, ht⟩
  | ok b => exact h b

theorem alike_narrowAndMeasure (t : Tracker α) (c : Nat) (side : Side) (half : Half) (cut : Cut α) :
    Alike ((t.withCapacity c).narrowAndMeasure side half cut) (t.narrowAndMeasure side half cut) := by
  unfold narrowAndMeasure
  cases side with
  | first => exact alike_proceed rfl fun bounds => ⟨rfl, rfl⟩
  | second => exact alike_proceed rfl fun bounds => ⟨rfl, rfl⟩

theorem alike_narrowAndCorrect (t : Tracker α) (c : Nat) (side : Side) (half : Half) (cut : Cut α) :
    Alike ((t.withCapacity c).narrowAndCorrect side half cut) (t.narrowAndCorrect side half cut) := by
  unfold narrowAndCorrect
  refine alike_proceed rfl fun before => ?_
  cases side with
  | first => exact alike_proceed rfl fun after => ⟨rfl, rfl⟩
  | second => exact alike_proceed rfl fun after => ⟨rfl, rfl⟩

/-- A push never looks at the room on the stack. -/
theorem alike_push (h : t'.uncapped = t.uncapped) (side : Side) (half : Half) (cut : Cut α) :
    Alike (t'.push side half cut) (t.push side half cut) := by
  have hr : t'.reserve.uncapped = t.reserve.uncapped := h
  obtain ⟨c, hc⟩ := uncapped_eq_iff.mp hr
  unfold push
  rw [hc]
  generalize t.reserve = u
  have hbox : (u.withCapacity c).box side = u.box side := box_eq_of_uncapped rfl side
  dsimp only
  rw [hbox]
  refine alike_proceed rfl fun I => ?_
  have hs : (u.withCapacity c).save side cut.axis I = (u.save side cut.axis I).withCapacity c := rfl
  rw [hs, norm_withCapacity]
  split
  · exact alike_narrowAndMeasure ..
  · exact alike_narrowAndCorrect ..

omit [Scalar α] in
theorem uncapped_undo (h : t'.uncapped = t.uncapped) : t'.undo.uncapped = t.undo.uncapped := by
  obtain ⟨c, rfl⟩ := uncapped_eq_iff.mp h
  have hf : (t.withCapacity c).stack.frames = t.stack.frames := rfl
  unfold undo
  rw [hf]
  cases t.stack.frames with
  | nil => rfl
  | cons f frames =>
    simp only [restore, mapBox]
    cases f.side with
    | first => rfl
    | second => rfl

/-- Actions take states alike but for the room on the stack to states alike but for the room. -/
theorem uncapped_act (h : t'.uncapped = t.uncapped) (a : Action α) :
    (t'.act a).tracker.uncapped = (t.act a).tracker.uncapped := by
  cases a with
  | push side half cut => exact (alike_push h side half cut).2
  | pop => rw [tracker_act_pop, tracker_act_pop, uncapped_undo h]
  | tryPop => rw [tracker_act_tryPop, tracker_act_tryPop, uncapped_undo h]

theorem run_concat (t : Tracker α) (as : List (Action α)) (a : Action α) :
    t.run (as ++ [a]) = ((t.run as).act a).tracker := by
  rw [run_append, run_cons, run_nil]

/-- **Where states and actions are changed so that each action of a run leads from changed state to
changed state, so does the run.** -/
theorem run_map_of_act {f : Tracker α → Tracker α} {g : Action α → Action α} {as : List (Action α)}
    (h : ∀ bs a, bs ++ [a] <+: as →
      ((f (t.run bs)).act (g a)).tracker = f ((t.run bs).act a).tracker) :
    (f t).run (as.map g) = f (t.run as) := by
  induction as using List.reverseRecOn with
  | nil => rfl
  | append_singleton as a ih =>
    have ih := ih fun bs b hbs => h bs b (hbs.trans (List.prefix_append as [a]))
    rw [List.map_append, List.map_singleton, run_concat, run_concat, ih]
    exact h as a (List.prefix_refl _)

end Tracker

/-! ## Pending pushes -/

/-- A push, as data. -/
structure Push (α : Type) where
  side : Side
  half : Half
  cut : Cut α
deriving Repr

/-- The push as an action. -/
def Push.action (p : Push α) : Action α := .push p.side p.half p.cut

/-- The pushes pending after an action, from those pending before it. -/
def Action.log (dims : Nat) (pending : List (Push α)) : Action α → List (Push α)
  | .push side half cut => if cut.axis < dims then pending ++ [⟨side, half, cut⟩] else pending
  | .pop => pending.dropLast
  | .tryPop => pending.dropLast

/-- The pushes of a run that came out well and were not undone, on boxes with `dims` axes. -/
def pending (dims : Nat) (as : List (Action α)) : List (Push α) := as.foldl (Action.log dims) []

omit [Scalar α] in
theorem pending_concat (dims : Nat) (as : List (Action α)) (a : Action α) :
    pending dims (as ++ [a]) = a.log dims (pending dims as) := by
  rw [pending, List.foldl_append]
  rfl

omit [Scalar α] in
/-- Pending pushes are along axes of the boxes. -/
theorem axis_lt_of_mem_pending (as : List (Action α)) :
    ∀ p ∈ pending dims as, p.cut.axis < dims := by
  induction as using List.reverseRecOn with
  | nil =>
    intro p hp
    cases hp
  | append_singleton as a ih =>
    rw [pending_concat]
    intro p hp
    cases a with
    | push side half cut =>
      rw [Action.log] at hp
      split at hp
      · next h =>
        rcases List.mem_append.mp hp with hp | hp
        · exact ih p hp
        · rw [List.mem_singleton.mp hp]
          exact h
      · exact ih p hp
    | pop => exact ih p (List.dropLast_subset _ hp)
    | tryPop => exact ih p (List.dropLast_subset _ hp)

omit [Scalar α] in
/-- Pending pushes are pushes of the run. -/
theorem action_mem_of_mem_pending (as : List (Action α)) :
    ∀ p ∈ pending dims as, p.action ∈ as := by
  induction as using List.reverseRecOn with
  | nil =>
    intro p hp
    cases hp
  | append_singleton as a ih =>
    rw [pending_concat]
    intro p hp
    rw [List.mem_append]
    cases a with
    | push side half cut =>
      rw [Action.log] at hp
      split at hp
      · rcases List.mem_append.mp hp with hp | hp
        · exact .inl (ih p hp)
        · rw [List.mem_singleton.mp hp]
          exact .inr (List.mem_singleton.mpr rfl)
      · exact .inl (ih p hp)
    | pop => exact .inl (ih p (List.dropLast_subset _ hp))
    | tryPop => exact .inl (ih p (List.dropLast_subset _ hp))

namespace Tracker

/-- Undoing the last of several pushes leaves the others. -/
theorem uncapped_undo_run (hs : t.Shaped dims) (hf : t.stack.frames = []) {ps : List (Push α)}
    (hps : ∀ p ∈ ps, p.cut.axis < dims) :
    (t.run (ps.map Push.action)).undo.uncapped = (t.run (ps.dropLast.map Push.action)).uncapped := by
  rcases List.eq_nil_or_concat ps with rfl | ⟨qs, p, rfl⟩
  · have hu : t.undo = t := by
      rw [undo, hf]
    exact congrArg uncapped hu
  · have hlt : p.cut.axis < dims := hps p (by simp)
    obtain ⟨s, hpush⟩ := (exists_push_iff (hs.run (qs.map Push.action)) p.side p.half p.cut).mpr hlt
    rw [List.concat_eq_append, List.map_append, List.map_singleton, run_concat,
      List.dropLast_concat, Push.action, tracker_act_push, hpush, undo_of_push hpush,
      uncapped_reserve]

/-- **A run leads to where its pending pushes lead by themselves.** -/
theorem uncapped_run (hs : t.Shaped dims) (hf : t.stack.frames = []) (as : List (Action α)) :
    (t.run as).uncapped = (t.run ((pending dims as).map Push.action)).uncapped := by
  induction as using List.reverseRecOn with
  | nil => rfl
  | append_singleton as a ih =>
    have hundo := uncapped_undo_run hs hf (axis_lt_of_mem_pending as)
    rw [run_concat, pending_concat, uncapped_act ih]
    cases a with
    | push side half cut =>
      rw [Action.log]
      split
      · rw [List.map_append, List.map_singleton, run_concat]
        rfl
      · next hge =>
        rw [tracker_act_push, (hs.run _).push_of_not_lt side half hge, uncapped_reserve]
    | pop => rw [tracker_act_pop, Action.log, hundo]
    | tryPop => rw [tracker_act_tryPop, Action.log, hundo]

/-- **What holds of a tracker, and is kept by the pushes of a run, holds after the run.** -/
theorem run_induction (hs : t.Shaped dims) (hf : t.stack.frames = []) {P : Tracker α → Prop}
    (hcap : ∀ (s : Tracker α) (c : Nat), P s → P (s.withCapacity c)) (h0 : P t)
    (as : List (Action α))
    (hpush : ∀ (bs : List (Action α)) (p : Push α) (s : Tracker α), bs ++ [p.action] <+: as →
      P (t.run bs) → (t.run bs).push p.side p.half p.cut = (.ok (), s) → P s) :
    P (t.run as) := by
  have hP : ∀ {s s' : Tracker α}, s'.uncapped = s.uncapped → P s → P s' := by
    intro s s' h hs
    obtain ⟨c, rfl⟩ := uncapped_eq_iff.mp h
    exact hcap s c hs
  -- what is pending later was pending when it was pushed, so the induction is over all of it
  have hall : ∀ qs, qs <+: pending dims as → P (t.run (qs.map Push.action)) := by
    induction as using List.reverseRecOn with
    | nil =>
      intro qs hqs
      rw [List.prefix_nil.mp hqs]
      exact h0
    | append_singleton as a ih =>
      have ih' := ih fun bs p s hbs => hpush bs p s (hbs.trans (List.prefix_append as [a]))
      rw [pending_concat]
      cases a with
      | pop => exact fun qs hqs => ih' qs (hqs.trans (List.dropLast_prefix _))
      | tryPop => exact fun qs hqs => ih' qs (hqs.trans (List.dropLast_prefix _))
      | push side half cut =>
        rw [Action.log]
        split
        · next hlt =>
          intro qs hqs
          rcases List.prefix_concat_iff.mp hqs with rfl | hqs
          · obtain ⟨s, hp⟩ := (exists_push_iff (hs.run as) side half cut).mpr hlt
            have hbefore : P (t.run as) := hP (uncapped_run hs hf as) (ih' _ (List.prefix_refl _))
            refine hP ?_ (hpush as ⟨side, half, cut⟩ s (List.prefix_refl _) hbefore hp)
            rw [List.map_append, List.map_singleton, run_concat,
              uncapped_act (uncapped_run hs hf as).symm]
            exact congrArg (fun r => r.2.uncapped) hp
          · exact ih' qs hqs
        · exact ih'
  exact hP (uncapped_run hs hf as) (hall _ (List.prefix_refl _))

/-- **What no push changes stays the same over runs.** -/
theorem run_keeps {β : Type} (get : Tracker α → β) (hs : t.Shaped dims) (hf : t.stack.frames = [])
    (hcap : ∀ (s : Tracker α) (c : Nat), get (s.withCapacity c) = get s)
    (hpushed : ∀ (s : Tracker α) (side : Side) (half : Half) (cut : Cut α) (I : Interval α)
      (bounds : Bounds α), get (s.pushed side half cut I bounds) = get s)
    (as : List (Action α)) : get (t.run as) = get t := by
  refine run_induction hs hf (P := fun s => get s = get t) (fun s c hP => (hcap s c).trans hP) rfl
    as ?_
  intro bs p s _ hP hp
  obtain ⟨I, bounds, rfl, -⟩ := exists_of_push (hs.run bs) hp
  rw [hpushed, hP]

/-! ## Depth -/

omit [Scalar α] in
theorem depth_eq_of_uncapped (h : t'.uncapped = t.uncapped) : t'.depth = t.depth := by
  obtain ⟨c, rfl⟩ := uncapped_eq_iff.mp h
  rfl

theorem depth_of_push {side : Side} {half : Half} {cut : Cut α} (hs : t.Shaped dims)
    (h : t.push side half cut = (.ok (), t')) : t'.depth = t.depth + 1 := by
  obtain ⟨I, bounds, rfl, -⟩ := exists_of_push hs h
  cases side with
  | first => rfl
  | second => rfl

omit [Scalar α] in
theorem depth_undo (t : Tracker α) : t.undo.depth = t.depth - 1 := by
  unfold undo depth FrameStack.depth
  cases hf : t.stack.frames with
  | nil => simp [hf]
  | cons f frames => cases hside : f.side <;> simp [restore, mapBox, hside]

/-- Each pending push can be undone. -/
theorem depth_run (hs : t.Shaped dims) (hf : t.stack.frames = []) (as : List (Action α)) :
    (t.run as).depth = (pending dims as).length := by
  induction as using List.reverseRecOn with
  | nil => exact congrArg List.length hf
  | append_singleton as a ih =>
    rw [run_concat, pending_concat]
    cases a with
    | push side half cut =>
      rw [Action.log, tracker_act_push]
      split
      · next hlt =>
        obtain ⟨s, hp⟩ := (exists_push_iff (hs.run as) side half cut).mpr hlt
        rw [hp, depth_of_push (hs.run as) hp, ih, List.length_append, List.length_singleton]
      · next hge =>
        rw [(hs.run as).push_of_not_lt side half hge, ← ih]
        rfl
    | pop => rw [tracker_act_pop, depth_undo, ih, Action.log, List.length_dropLast]
    | tryPop => rw [tracker_act_tryPop, depth_undo, ih, Action.log, List.length_dropLast]

/-- With nothing left to undo, a tracker is in the state that it started from. -/
theorem uncapped_run_of_depth_eq_zero (hs : t.Shaped dims) (hf : t.stack.frames = [])
    {as : List (Action α)} (h : (t.run as).depth = 0) : (t.run as).uncapped = t.uncapped := by
  rw [depth_run hs hf, List.length_eq_zero_iff] at h
  rw [uncapped_run hs hf, h]
  rfl

/-! ## The boxes after a run -/

end Tracker

/-- One of two halves. -/
def Half.pick {β : Type} (half : Half) (halves : β × β) : β :=
  match half with
  | .lower => halves.1
  | .upper => halves.2

/-- Splits a box where a push cuts it, and keeps the half that the push does. -/
def Push.halve (b : Box α) (p : Push α) : Except Failure (Box α) := do
  return p.half.pick (← b.split p.cut)

omit [Scalar α] in
theorem Push.halve_of_lt {b : Box α} {p : Push α} (h : p.cut.axis < b.dims) :
    Push.halve b p = .ok (b.narrow p.half p.cut) := by
  rw [halve, Box.split_of_lt h]
  cases p.half with
  | lower => rfl
  | upper => rfl

namespace Tracker

/-- A push narrows its own box and leaves the other one. -/
theorem box_act_push {p : Push α} (hs : t.Shaped dims) (hlt : p.cut.axis < dims) (side : Side) :
    (t.act p.action).tracker.box side =
      if p.side = side then (t.box side).narrow p.half p.cut else t.box side := by
  obtain ⟨s, hp⟩ := (exists_push_iff hs p.side p.half p.cut).mpr hlt
  obtain ⟨h1, h2⟩ := boxes_of_push hs hp
  rw [Push.action, tracker_act_push, hp]
  cases hside : p.side with
  | first => cases side with
    | first => exact h1.trans (by rw [hside]; rfl)
    | second => exact h2.trans (by rw [hside]; rfl)
  | second => cases side with
    | first => exact h1.trans (by rw [hside]; rfl)
    | second => exact h2.trans (by rw [hside]; rfl)

/-- Pushes take the halves of a box one after the other. -/
theorem foldlM_halve_box {ps : List (Push α)} (hs : t.Shaped dims)
    (hps : ∀ p ∈ ps, p.cut.axis < dims) (side : Side) :
    (ps.filter (·.side = side)).foldlM Push.halve (t.box side)
      = .ok ((t.run (ps.map Push.action)).box side) := by
  induction ps generalizing t with
  | nil => rfl
  | cons p ps ih =>
    have hlt : p.cut.axis < dims := hps p List.mem_cons_self
    have hrest := ih (hs.act p.action) fun q hq => hps q (List.mem_cons_of_mem p hq)
    rw [box_act_push hs hlt] at hrest
    rw [List.map_cons, run_cons, ← hrest]
    by_cases hside : p.side = side
    · rw [List.filter_cons_of_pos (by simpa using hside), List.foldlM_cons, if_pos hside,
        Push.halve_of_lt (by rw [hs.dims_box side]; exact hlt)]
      rfl
    · rw [List.filter_cons_of_neg (by simpa using hside), if_neg hside]

/-! ## Runs -/

omit [Scalar α] in
/-- Pushes along axes of the boxes, followed by as many pops, leave what was pending. -/
theorem pending_pushes_pops {ps : List (Push α)} (hps : ∀ p ∈ ps, p.cut.axis < dims)
    (as : List (Action α)) :
    pending dims (as ++ ps.map Push.action ++ List.replicate ps.length .pop) = pending dims as := by
  induction ps using List.reverseRecOn with
  | nil => simp
  | append_singleton ps p ih =>
    have hpushed : pending dims (as ++ (ps ++ [p]).map Push.action)
        = pending dims (as ++ ps.map Push.action) ++ [p] := by
      rw [List.map_append, List.map_singleton, ← List.append_assoc, pending_concat, Push.action,
        Action.log, if_pos (hps p (by simp))]
    rw [← ih fun q hq => hps q (by simp [hq]), List.length_append, List.length_singleton,
      List.replicate_succ, pending, List.foldl_append, ← pending, hpushed, List.foldl_cons,
      Action.log, List.dropLast_concat, pending, ← List.foldl_append]
    rfl

/--
**Exact rollback over whole runs.**

Whatever is done to a new tracker, but for the room on the stack it ends in the state that its
pending pushes lead to by themselves, in which the boxes are halves of halves of the first ones. A
push is pending unless it failed, which happens exactly along an axis that the boxes lack, or was
undone; in particular any pushes followed by as many pops change nothing.
-/
theorem run_eq_run_pending (h : (build space first second n ε limit).result = .ok t)
    (as : List (Action α)) :
    (t.run as).uncapped = (t.run ((pending first.dims as).map Push.action)).uncapped ∧
    ((pending first.dims as).filter (·.side = .first)).foldlM Push.halve first
      = .ok (t.run as).first ∧
    ((pending first.dims as).filter (·.side = .second)).foldlM Push.halve second
      = .ok (t.run as).second ∧
    (∀ side half cut, (∃ t', (t.run as).push side half cut = (.ok (), t')) ↔
      cut.axis < first.dims) ∧
    ∀ ps : List (Push α), (∀ p ∈ ps, p.cut.axis < first.dims) →
      (t.run (as ++ ps.map Push.action ++ List.replicate ps.length .pop)).uncapped
        = (t.run as).uncapped := by
  obtain ⟨hfit, rfl⟩ := result_build_eq_ok_iff.mp h
  have hs := shaped_start hfit n ε limit
  have hrun := uncapped_run hs rfl as
  have hboxes := foldlM_halve_box hs (axis_lt_of_mem_pending as)
  refine ⟨hrun, ?_, ?_, exists_push_iff (hs.run as), ?_⟩
  · have hfirst := hboxes .first
    rw [← box_eq_of_uncapped hrun .first] at hfirst
    exact hfirst
  · have hsecond := hboxes .second
    rw [← box_eq_of_uncapped hrun .second] at hsecond
    exact hsecond
  · intro ps hps
    rw [uncapped_run hs rfl, pending_pushes_pops hps, ← hrun]

/-- A push, a failed push, a second push and a pop, on a circle and at coordinates that are not
numbers; then two more pushes and two pops. -/
theorem run_eq_run_pending_float :
    let space : Space Float := .periodic ⟨[⟨10, 5⟩]⟩
    let first : Box Float := ⟨[⟨0 / 0, 1⟩]⟩
    let second : Box Float := ⟨[⟨9, 1 / 0⟩]⟩
    let kept : Push Float := ⟨.second, .lower, ⟨0, 0 / 0⟩⟩
    let undone : Push Float := ⟨.first, .upper, ⟨0, 2⟩⟩
    let failed : Push Float := ⟨.first, .upper, ⟨7, 2⟩⟩
    let as := [kept.action, failed.action, undone.action, .pop]
    let t := start space first second .manhattan 0 (1 / 0)
    (build space first second .manhattan 0 (1 / 0)).result = .ok t ∧
    (t.run as).uncapped = (t.run [kept.action]).uncapped ∧
    (t.run (as ++ [kept.action, undone.action] ++ [.pop, .pop])).uncapped = (t.run as).uncapped := by
  intro space first second kept undone failed as t
  have h : (build space first second .manhattan 0 (1 / 0)).result = .ok t :=
    result_build_eq_ok_iff.mpr ⟨⟨rfl, rfl⟩, rfl⟩
  obtain ⟨hrun, -, -, -, hundo⟩ := run_eq_run_pending h as
  refine ⟨h, hrun, hundo [kept, undone] ?_⟩
  intro p hp
  simp only [List.mem_cons, List.not_mem_nil, or_false] at hp
  rcases hp with rfl | rfl
  · exact Nat.one_pos
  · exact Nat.one_pos

end Tracker

end MinkowskiBounds
