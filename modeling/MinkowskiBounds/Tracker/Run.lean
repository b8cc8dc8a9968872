import MinkowskiBounds.Tracker

/-!
# Runs of a tracker

What a search does to a tracker, as data: a sequence of actions, each with its result, the state it
leaves and the events it reports. An action that fails leaves a state to go on from.
-/

namespace MinkowskiBounds

variable {α : Type} [Scalar α]

/-- Something done to a tracker. -/
inductive Action (α : Type) where
  /-- Narrow a box. -/
  | push (side : Side) (half : Half) (cut : Cut α)
  /-- Undo the latest push, which is held to exist. -/
  | pop
  /-- Undo the latest push, if there is one. -/
  | tryPop
deriving Repr

/-- Narrow a box to what is below the cut of a node. -/
def Action.pushLowerOf {ν : Type} [HasCut ν α] (side : Side) (node : ν) : Action α :=
  .push side .lower (HasCut.cut node)

/-- Narrow a box to what is above the cut of a node. -/
def Action.pushUpperOf {ν : Type} [HasCut ν α] (side : Side) (node : ν) : Action α :=
  .push side .upper (HasCut.cut node)

/-- What an action came to: the state it left and its report. -/
structure Step (α : Type) where
  tracker : Tracker α
  report : Report α Unit

namespace Tracker

/-- The event for the growth of the stack that the next push begins with, if any. -/
def growthEvents (t : Tracker α) : List (Event α) :=
  match t.stack.growth? with
  | some capacity => [.resizing t.capacity capacity]
  | none => []

/-- The state left by an attempt to go back: the old one where it failed. -/
def settle (t : Tracker α) : Except Failure (Tracker α) → Step α
  | .ok t' => ⟨t', .ok (), []⟩
  | .error cause => ⟨t, .error cause, []⟩

/-- Carries out one action. -/
def act (t : Tracker α) : Action α → Step α
  | .push side half cut =>
    let (result, t') := t.push side half cut
    ⟨t', result, t.growthEvents⟩
  | .pop => t.settle t.pop
  | .tryPop => t.settle t.tryPop

/-- The steps of a run, one per action. -/
def steps (t : Tracker α) : List (Action α) → List (Step α)
  | [] => []
  | a :: as => t.act a :: (t.act a).tracker.steps as

/-- The state at the end of a run. -/
def run (t : Tracker α) (as : List (Action α)) : Tracker α :=
  as.foldl (fun t a => (t.act a).tracker) t

@[simp] theorem run_nil (t : Tracker α) : t.run [] = t := rfl

@[simp] theorem run_cons (t : Tracker α) (a : Action α) (as : List (Action α)) :
    t.run (a :: as) = (t.act a).tracker.run as := rfl

/-- A run can be cut in two anywhere. -/
theorem run_append (t : Tracker α) (as bs : List (Action α)) :
    t.run (as ++ bs) = (t.run as).run bs := by
  simp [run, List.foldl_append]

end Tracker

end MinkowskiBounds
