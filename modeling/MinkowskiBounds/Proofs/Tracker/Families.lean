import MinkowskiBounds.Proofs.Tracker.Rollback
import MinkowskiBounds.Tracker.Family

/-!
# Runs of families

What a search does to a family of trackers, as data: actions on the member in focus, forks of it, and
turns of the focus. Nothing else brings a tracker into being or changes one, so that what actions and
forks keep is kept by every member of the family (`Family.forall_members_run`).
-/

namespace MinkowskiBounds

variable {α : Type} [Scalar α]

/-- Something done to a family of trackers. -/
inductive Move (α : Type) where
  /-- An action on the member in focus. -/
  | act (a : Action α)
  /-- A fork of the member in focus, which the focus turns to. -/
  | fork
  /-- A turn of the focus to another member. -/
  | focusOn (number : Nat)
deriving Repr

namespace Family

/-- Makes one move. -/
def move (F : Family α) : Move α → Family α
  | .act a => (F.act a).1
  | .fork => F.fork
  | .focusOn number => F.focusOn number

/-- The family at the end of a run. -/
def run (F : Family α) (ms : List (Move α)) : Family α := ms.foldl move F

@[simp] theorem run_nil (F : Family α) : F.run [] = F := rfl

@[simp] theorem run_cons (F : Family α) (m : Move α) (ms : List (Move α)) :
    F.run (m :: ms) = (F.move m).run ms := rfl

omit [Scalar α] in
theorem current_mem (F : Family α) : F.current ∈ F.members := List.get_mem ..

variable {P : Tracker α → Prop}

omit [Scalar α] in
theorem members_focusOn (F : Family α) (number : Nat) :
    (F.focusOn number).members = F.members := by
  unfold focusOn
  split <;> rfl

/-- What actions and forks keep, a move keeps for all members. -/
theorem forall_members_move (hact : ∀ t a, P t → P (t.act a).tracker)
    (hfork : ∀ t, P t → P t.fork) {F : Family α} (h : ∀ t ∈ F.members, P t) (m : Move α) :
    ∀ t ∈ (F.move m).members, P t := by
  intro t ht
  cases m with
  | act a =>
    rcases List.mem_or_eq_of_mem_set ht with ht | rfl
    · exact h t ht
    · exact hact _ a (h _ F.current_mem)
  | fork =>
    rcases List.mem_append.mp ht with ht | ht
    · exact h t ht
    · rw [List.mem_singleton.mp ht]
      exact hfork _ (h _ F.current_mem)
  | focusOn number =>
    rw [move, members_focusOn] at ht
    exact h t ht

/-- **What actions and forks keep holds of all members after a run.** -/
theorem forall_members_run (hact : ∀ t a, P t → P (t.act a).tracker)
    (hfork : ∀ t, P t → P t.fork) {F : Family α} (h : ∀ t ∈ F.members, P t) (ms : List (Move α)) :
    ∀ t ∈ (F.run ms).members, P t := by
  induction ms generalizing F with
  | nil => exact h
  | cons m ms ih => exact ih (forall_members_move hact hfork h m)

end Family

end MinkowskiBounds
