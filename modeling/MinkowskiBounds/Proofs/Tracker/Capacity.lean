import Mathlib.Algebra.Group.Nat.Defs
import Mathlib.Order.Bounds.Basic
import MinkowskiBounds.Proofs.Tracker.Rollback

/-!
# Room on the stack

A stack without room for one more frame doubles its capacity, and never gives room back. So after a run
its capacity tells of the past, not of the present: it is the first of `FrameStack.sizes` with room for
as many frames as any push of the run, a failed one included, has needed room for (`Tracker.demand`,
`FrameStack.Suffices`). Each change is reported, and the reports follow on one another
(`Tracker.Growth`).

* `FrameStack.Suffices.reserve` — what making room once does to the closed form
* `Tracker.capacity_run` — the capacity after any run of a new tracker or of a fork
-/

namespace MinkowskiBounds

/-! ## Doubling -/

namespace FrameStack

variable {c₀ demand depth c c' : Nat}

/-- The capacities that a stack of capacity `c₀` can grow to. -/
def sizes (c₀ : Nat) : Set Nat := {c | ∃ k, c = max (2 * c₀) initialCapacity * 2 ^ k}

/-- The first size to grow to is the least. -/
theorem isLeast_sizes (c₀ : Nat) : IsLeast (sizes c₀) (max (2 * c₀) initialCapacity) := by
  refine ⟨⟨0, (Nat.mul_one _).symm⟩, ?_⟩
  rintro _ ⟨k, rfl⟩
  exact Nat.le_mul_of_pos_right _ (Nat.two_pow_pos k)

theorem initialCapacity_le_of_mem_sizes (h : c ∈ sizes c₀) : initialCapacity ≤ c :=
  (Nat.le_max_right _ _).trans ((isLeast_sizes c₀).2 h)

/-- **The next size after `c` is the double of `c`.** -/
theorem isLeast_two_mul (h : c ∈ sizes c₀) : IsLeast {c' | c < c' ∧ c' ∈ sizes c₀} (2 * c) := by
  have hpos : initialCapacity ≤ c := initialCapacity_le_of_mem_sizes h
  obtain ⟨k, rfl⟩ := h
  have hstep : 2 * (max (2 * c₀) initialCapacity * 2 ^ k)
      = max (2 * c₀) initialCapacity * 2 ^ (k + 1) := by
    rw [Nat.pow_succ', Nat.mul_left_comm]
  refine ⟨⟨?_, k + 1, hstep⟩, ?_⟩
  · unfold initialCapacity at hpos ⊢
    omega
  · rintro _ ⟨hlt, j, rfl⟩
    have hkj : k < j := (Nat.pow_lt_pow_iff_right Nat.one_lt_two).mp (Nat.lt_of_mul_lt_mul_left hlt)
    rw [hstep]
    exact Nat.mul_le_mul_left _ (Nat.pow_le_pow_right Nat.two_pos hkj)

/-- The capacity `c` is what a stack of capacity `c₀` comes to where it needs room for `demand` frames:
the old one if that is enough, or else the least one that it can grow to. -/
structure Suffices (c₀ demand c : Nat) : Prop where
  keeps : demand ≤ c₀ → c = c₀
  grows : c₀ < demand → IsLeast {c | demand ≤ c ∧ c ∈ sizes c₀} c

namespace Suffices

theorem start (c₀ : Nat) : Suffices c₀ 0 c₀ where
  keeps _ := rfl
  grows h := absurd h (Nat.not_lt_zero c₀)

theorem demand_le (h : Suffices c₀ demand c) : demand ≤ c := by
  rcases Nat.lt_or_ge c₀ demand with hlt | hge
  · exact (h.grows hlt).1.1
  · rw [h.keeps hge]
    exact hge

/-- A stack that is full grows to the next size. -/
theorem grow (h : Suffices c₀ demand c) : Suffices c₀ (c + 1) (max (2 * c) initialCapacity) := by
  rcases Nat.lt_or_ge c₀ demand with hlt | hge
  · have hc : c ∈ sizes c₀ := (h.grows hlt).1.2
    have hle : demand ≤ c := h.demand_le
    have hpos := initialCapacity_le_of_mem_sizes hc
    rw [Nat.max_eq_left (by omega)]
    exact ⟨fun hnot => absurd hnot (by omega), fun _ => isLeast_two_mul hc⟩
  · obtain rfl : c = c₀ := h.keeps hge
    refine ⟨fun hnot => absurd hnot (by omega), fun _ => ⟨⟨?_, (isLeast_sizes c).1⟩, ?_⟩⟩
    · unfold initialCapacity
      omega
    · rintro c' ⟨-, hc'⟩
      exact (isLeast_sizes c).2 hc'

/-- One that has room for a frame need not grow for it. -/
theorem keep (h : Suffices c₀ demand c) (hdepth : depth < c) :
    Suffices c₀ (max demand (depth + 1)) c where
  keeps hle := h.keeps (by omega)
  grows hlt := by
    have hdemand : c₀ < demand := by
      by_contra hge
      have hc := h.keeps (by omega)
      omega
    have hle : demand ≤ c := h.demand_le
    refine ⟨⟨by omega, (h.grows hdemand).1.2⟩, ?_⟩
    rintro c' ⟨hle', hc'⟩
    exact (h.grows hdemand).2 ⟨by omega, hc'⟩

/-- **Making room for one more frame** is enough for it, and no more than that. -/
theorem reserve {α : Type} {s : FrameStack α} (h : Suffices c₀ demand s.capacity)
    (hs : s.depth ≤ s.capacity) :
    Suffices c₀ (max demand (s.depth + 1)) s.reserve.capacity := by
  unfold FrameStack.reserve growth?
  split
  · next hfull =>
    rw [hfull, Nat.max_eq_right (Nat.le_succ_of_le h.demand_le)]
    exact h.grow
  · next hroom => exact h.keep (Nat.lt_of_le_of_ne hs hroom)

end Suffices

end FrameStack

variable {α : Type} [Scalar α]

namespace Tracker

variable {t s : Tracker α} {c₀ : Nat}

/-! ## One action -/

/-- The state has the room that a push of `t` makes, and at most one frame more than `t`. -/
def RoomFor (t s : Tracker α) : Prop := s.capacity = t.reserve.capacity ∧ s.depth ≤ t.depth + 1

omit [Scalar α] in
theorem RoomFor.proceed {β : Type} {found : Except Failure β}
    {next : β → Except Failure Unit × Tracker α} (h : t.RoomFor s)
    (hnext : ∀ b, t.RoomFor (next b).2) : t.RoomFor (s.proceed found next).2 := by
  cases found with
  | error cause => exact h
  | ok b => exact hnext b

/-- A push makes room for one frame and saves at most one, however it comes out. -/
theorem roomFor_push (t : Tracker α) (side : Side) (half : Half) (cut : Cut α) :
    t.RoomFor (t.push side half cut).2 := by
  unfold push
  refine RoomFor.proceed ⟨rfl, Nat.le_succ _⟩ fun I => ?_
  have hsaved : t.RoomFor (t.reserve.save side cut.axis I) := ⟨rfl, Nat.le_refl _⟩
  dsimp only
  split
  · unfold narrowAndMeasure
    cases side with
    | first => exact RoomFor.proceed hsaved fun _ => hsaved
    | second => exact RoomFor.proceed hsaved fun _ => hsaved
  · unfold narrowAndCorrect
    refine RoomFor.proceed hsaved fun before => ?_
    cases side with
    | first => exact RoomFor.proceed hsaved fun _ => hsaved
    | second => exact RoomFor.proceed hsaved fun _ => hsaved

/-- The number of frames that an action needs room for. -/
def need (t : Tracker α) : Action α → Nat
  | .push .. => t.depth + 1
  | .pop => 0
  | .tryPop => 0

omit [Scalar α] in
@[simp] theorem capacity_undo (t : Tracker α) : t.undo.capacity = t.capacity := by
  unfold undo
  cases t.stack.frames with
  | nil => rfl
  | cons f frames => cases hside : f.side <;> simp [restore, mapBox, hside, capacity]

omit [Scalar α] in
theorem capacity_le_reserve (t : Tracker α) : t.capacity ≤ t.reserve.capacity := by
  show t.stack.capacity ≤ t.stack.growth?.getD t.stack.capacity
  unfold FrameStack.growth?
  split
  · show t.stack.capacity ≤ max (2 * t.stack.capacity) _
    omega
  · exact Nat.le_refl _

theorem capacity_le_act (t : Tracker α) (a : Action α) :
    t.capacity ≤ (t.act a).tracker.capacity := by
  cases a with
  | push side half cut =>
    rw [tracker_act_push, (roomFor_push t side half cut).1]
    exact t.capacity_le_reserve
  | pop => rw [tracker_act_pop, capacity_undo]
  | tryPop => rw [tracker_act_tryPop, capacity_undo]

/-- **No action leaves more frames than there is room for.** -/
theorem depth_le_capacity_act (h : t.depth ≤ t.capacity) (a : Action α) :
    (t.act a).tracker.depth ≤ (t.act a).tracker.capacity := by
  cases a with
  | push side half cut =>
    obtain ⟨hcapacity, hdepth⟩ := roomFor_push t side half cut
    rw [tracker_act_push, hcapacity]
    exact hdepth.trans (FrameStack.depth_lt_capacity_reserve h)
  | pop =>
    rw [tracker_act_pop, capacity_undo, depth_undo]
    omega
  | tryPop =>
    rw [tracker_act_tryPop, capacity_undo, depth_undo]
    omega

/-- **An action reports a change of the capacity, and nothing else.** -/
theorem events_act (t : Tracker α) (a : Action α) : (t.act a).report.events =
    if (t.act a).tracker.capacity = t.capacity then []
    else [.resizing t.capacity (t.act a).tracker.capacity] := by
  cases a with
  | push side half cut =>
    rw [tracker_act_push, (roomFor_push t side half cut).1]
    show t.growthEvents = if t.stack.growth?.getD t.stack.capacity = t.stack.capacity then []
      else [.resizing t.stack.capacity (t.stack.growth?.getD t.stack.capacity)]
    unfold growthEvents FrameStack.growth?
    by_cases hfull : t.stack.depth = t.stack.capacity
    · have hgrown : max (2 * t.stack.capacity) FrameStack.initialCapacity ≠ t.stack.capacity := by
        unfold FrameStack.initialCapacity
        omega
      simp only [if_pos hfull, Option.getD_some, if_neg hgrown]
      rfl
    · simp only [if_neg hfull, Option.getD_none, if_pos]
  | pop =>
    rw [tracker_act_pop, capacity_undo, if_pos rfl]
    show (t.settle t.pop).report.events = []
    cases t.pop <;> rfl
  | tryPop =>
    rw [tracker_act_tryPop, capacity_undo, if_pos rfl]
    show (t.settle t.tryPop).report.events = []
    cases t.tryPop <;> rfl

/-- An action makes room for as many frames as it needs. -/
theorem suffices_act {demand : Nat} (h : FrameStack.Suffices c₀ demand t.capacity)
    (ht : t.depth ≤ t.capacity) (a : Action α) :
    FrameStack.Suffices c₀ (max demand (t.need a)) (t.act a).tracker.capacity := by
  cases a with
  | push side half cut =>
    rw [tracker_act_push, (roomFor_push t side half cut).1]
    exact h.reserve ht
  | pop =>
    rw [tracker_act_pop, capacity_undo, need, Nat.max_zero]
    exact h
  | tryPop =>
    rw [tracker_act_tryPop, capacity_undo, need, Nat.max_zero]
    exact h

/-! ## Runs -/

/-- The largest number of frames that a push of the run needs room for; zero if there is no push. -/
def demand (t : Tracker α) : List (Action α) → Nat
  | [] => 0
  | a :: as => max (t.need a) ((t.act a).tracker.demand as)

theorem demand_concat (t : Tracker α) (as : List (Action α)) (a : Action α) :
    t.demand (as ++ [a]) = max (t.demand as) ((t.run as).need a) := by
  induction as generalizing t with
  | nil => exact Nat.max_comm _ _
  | cons b as ih => rw [List.cons_append, demand, ih, run_cons, demand, Nat.max_assoc]

theorem steps_concat (t : Tracker α) (as : List (Action α)) (a : Action α) :
    t.steps (as ++ [a]) = t.steps as ++ [(t.run as).act a] := by
  induction as generalizing t with
  | nil => rfl
  | cons b as ih => rw [List.cons_append, steps, ih, run_cons, steps, List.cons_append]

/-- Reports of a stack that grows from the capacity `c₀` to another one, each from the capacity that
the one before came to. -/
inductive Growth (c₀ : Nat) : List (Event α) → Nat → Prop
  | none : Growth c₀ [] c₀
  | more {es : List (Event α)} {c c' : Nat} (before : Growth c₀ es c) (h : c < c') :
    Growth c₀ (es ++ [.resizing c c']) c'

theorem depth_le_capacity_run (h : t.depth ≤ t.capacity) (as : List (Action α)) :
    (t.run as).depth ≤ (t.run as).capacity := by
  induction as generalizing t with
  | nil => exact h
  | cons a as ih => exact ih (depth_le_capacity_act h a)

/-- **After a run the stack has come to what its largest demand takes.** -/
theorem suffices_run (h : t.depth ≤ t.capacity) (as : List (Action α)) :
    FrameStack.Suffices t.capacity (t.demand as) (t.run as).capacity := by
  induction as using List.reverseRecOn with
  | nil => exact .start t.capacity
  | append_singleton as a ih =>
    rw [demand_concat, run_concat]
    exact suffices_act ih (depth_le_capacity_run h as) a

/-- **The reports of a run lead from the first capacity to the last.** -/
theorem growth_run (t : Tracker α) (as : List (Action α)) :
    Growth t.capacity ((t.steps as).flatMap (·.report.events)) (t.run as).capacity := by
  induction as using List.reverseRecOn with
  | nil => exact .none
  | append_singleton as a ih =>
    rw [steps_concat, List.flatMap_append, List.flatMap_singleton, events_act, run_concat]
    split
    · next hsame =>
      rw [hsame, List.append_nil]
      exact ih
    · next hgrown =>
      exact ih.more (Nat.lt_of_le_of_ne (capacity_le_act _ a) (Ne.symm hgrown))

/-- The tracker as it comes into being, with the room that it has on its stack. -/
inductive IsNew : Tracker α → Nat → Prop
  | built {space : Space α} {first second : Box α} {n : Norm α} {ε limit : α} {t : Tracker α}
    (h : (build space first second n ε limit).result = .ok t) : IsNew t 8
  | forked (t : Tracker α) : IsNew t.fork t.depth

theorem IsNew.capacity_eq (h : t.IsNew c₀) : t.capacity = c₀ ∧ t.depth ≤ c₀ := by
  cases h with
  | built h =>
    obtain ⟨-, rfl⟩ := result_build_eq_ok_iff.mp h
    exact ⟨rfl, Nat.zero_le _⟩
  | forked t => exact ⟨rfl, Nat.le_refl _⟩

/--
**How much room a stack has after any run.**

Let a tracker start with room for `c₀` frames: eight if it was built, and as many as there are pushes to
undo if it was forked. After any actions, of which some may fail, its stack still has that room if no
push needed more, and else the least of `max (2 * c₀) 8` and its doubles that is enough. At every state
all frames have room. Each further action leaves as much room or more and reports a change exactly if
there is one, and all reports of a run lead step by step from the first capacity to the last.
-/
theorem capacity_run (h : t.IsNew c₀) (as : List (Action α)) :
    (t.demand as ≤ c₀ → (t.run as).capacity = c₀) ∧
    (c₀ < t.demand as → IsLeast {c | t.demand as ≤ c ∧ ∃ k, c = max (2 * c₀) 8 * 2 ^ k}
      (t.run as).capacity) ∧
    (t.run as).depth ≤ (t.run as).capacity ∧
    (∀ a, (t.run as).capacity ≤ ((t.run as).act a).tracker.capacity ∧
      ((t.run as).act a).report.events =
        if ((t.run as).act a).tracker.capacity = (t.run as).capacity then []
        else [.resizing (t.run as).capacity ((t.run as).act a).tracker.capacity]) ∧
    Growth c₀ ((t.steps as).flatMap (·.report.events)) (t.run as).capacity := by
  obtain ⟨rfl, hdepth⟩ := h.capacity_eq
  obtain ⟨hkeeps, hgrows⟩ := suffices_run hdepth as
  exact ⟨hkeeps, hgrows, depth_le_capacity_run hdepth as,
    fun a => ⟨capacity_le_act _ a, events_act _ a⟩, growth_run t as⟩

/-- Nine pushes and one that fails in between, which is when a new tracker makes room for the ninth; and
a fork of the tracker after two pushes, on which the first push fails and makes room none the less. -/
theorem capacity_run_nine :
    let b : Box Float := ⟨[⟨0, 1⟩]⟩
    let push : Action Float := .push .first .lower ⟨0, 1 / 2⟩
    let lacking : Action Float := .push .second .upper ⟨3, 7⟩
    let t := start .unbounded b b .manhattan 0 (1 / 0)
    let as := List.replicate 8 push ++ [lacking, push]
    let u := (t.run [push, push]).fork
    t.IsNew 8 ∧ t.demand as = 9 ∧ (t.run as).capacity = 16 ∧
    u.IsNew 2 ∧ u.demand [.pop, push] = 2 ∧ (u.run [.pop, push]).capacity = 2 ∧
    u.demand [lacking, .pop] = 3 ∧ (u.run [lacking, .pop]).capacity = 8 := by
  intro b push lacking t as u
  have ht : t.IsNew 8 := .built (result_build_eq_ok_iff.mpr ⟨⟨rfl, rfl⟩, rfl⟩)
  have hu : u.IsNew 2 := .forked (t.run [push, push])
  have hnine : t.demand as = 9 := by decide +kernel
  have htwo : u.demand [.pop, push] = 2 := by decide +kernel
  have hthree : u.demand [lacking, .pop] = 3 := by decide +kernel
  -- whatever fits into the first size to grow to makes the stack grow to that size
  have hfirst : ∀ c₀ demand, demand ≤ max (2 * c₀) 8 →
      IsLeast {c | demand ≤ c ∧ ∃ k, c = max (2 * c₀) 8 * 2 ^ k} (max (2 * c₀) 8) := fun c₀ _ h =>
    ⟨⟨h, (FrameStack.isLeast_sizes c₀).1⟩, fun _ hc => (FrameStack.isLeast_sizes c₀).2 hc.2⟩
  obtain ⟨-, hgrows, -⟩ := capacity_run ht as
  obtain ⟨hkeeps, -⟩ := capacity_run hu [.pop, push]
  obtain ⟨-, hgrows', -⟩ := capacity_run hu [lacking, .pop]
  exact ⟨ht, hnine, (hgrows (by omega)).unique (hfirst 8 _ (by omega)), hu, htwo,
    hkeeps (by omega), hthree, (hgrows' (by omega)).unique (hfirst 2 _ (by omega))⟩

end Tracker

end MinkowskiBounds
