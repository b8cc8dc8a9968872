import MinkowskiBounds.Tracker.Run

/-!
# Families of trackers

Trackers that were forked from one another, numbered in the order of their making. One of them is in
focus: actions go to it, and it is the one that is forked. The members share nothing, so an action
on one leaves all others as they are.
-/

namespace MinkowskiBounds

variable {α : Type} [Scalar α]

/-- The member in focus, and the others by number. -/
structure Family (α : Type) where
  /-- All members in the order of their making. -/
  members : List (Tracker α)
  /-- The number of the member in focus. -/
  focus : Nat
  /-- The focus is on a member. -/
  focus_lt : focus < members.length

namespace Family

/-- The family of one tracker. -/
def singleton (t : Tracker α) : Family α := ⟨[t], 0, by simp⟩

/-- The member in focus. -/
def current (F : Family α) : Tracker α := F.members.get ⟨F.focus, F.focus_lt⟩

/-- Puts a tracker in place of the member in focus. -/
def setCurrent (F : Family α) (t : Tracker α) : Family α :=
  ⟨F.members.set F.focus t, F.focus, by rw [List.length_set]; exact F.focus_lt⟩

/-- Carries out an action on the member in focus. -/
def act (F : Family α) (a : Action α) : Family α × Report α Unit :=
  let step := F.current.act a
  (F.setCurrent step.tracker, step.report)

/-- Adds a fork of the member in focus and turns the focus to it. -/
def fork (F : Family α) : Family α :=
  ⟨F.members ++ [F.current.fork], F.members.length, by simp⟩

/-- Turns the focus to a member; a number that no member has leaves it where it is. -/
def focusOn (F : Family α) (number : Nat) : Family α :=
  if h : number < F.members.length then ⟨F.members, number, h⟩ else F

omit [Scalar α] in
@[simp] theorem current_singleton (t : Tracker α) : (singleton t).current = t := rfl

omit [Scalar α] in
@[simp] theorem current_setCurrent (F : Family α) (t : Tracker α) :
    (F.setCurrent t).current = t := by
  simp [current, setCurrent]

omit [Scalar α] in
@[simp] theorem current_fork (F : Family α) : F.fork.current = F.current.fork := by
  simp [current, fork]

/-- **An action on the member in focus leaves every other member as it is.** -/
theorem getElem?_members_act {F : Family α} {a : Action α} {number : Nat} (h : F.focus ≠ number) :
    (F.act a).1.members[number]? = F.members[number]? := by
  simp [act, setCurrent, List.getElem?_set_ne h]

end Family

end MinkowskiBounds
