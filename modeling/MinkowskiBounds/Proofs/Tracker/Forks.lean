import MinkowskiBounds.Proofs.Tracker.Failures

/-!
# Forks answer as lone trackers do

Members of a family share nothing. Each of them answers as one tracker would that had been asked, by
itself and in order, all that the member's ancestors were asked before they were forked and all that
the member was asked since (`Chronicle.Faithful.run`), and is left in the same state but for the room
on its stack.

A fork has no room to spare, so that it makes room at other times than the tracker it was forked from.
That is where the two part, and nothing looks at it (`Tracker.reply_of_uncapped`).
-/

namespace MinkowskiBounds

variable {α : Type} [Scalar α]

/-! ## Queries and replies -/

/-- Something asked of a tracker. -/
inductive Query (α : Type) where
  /-- An action. -/
  | act (a : Action α)
  /-- The raised distance between two points. -/
  | distance (x y : List α)
deriving Repr

/-- What a tracker replies. -/
inductive Reply (α : Type) where
  /-- What an action came to. -/
  | result (r : Except Failure Unit)
  /-- A raised distance. -/
  | distance (d : α)

/-- A query and the reply to it. -/
structure Exchange (α : Type) where
  query : Query α
  reply : Reply α

namespace Tracker

/-- The reply to a query. -/
def reply (t : Tracker α) : Query α → Reply α
  | .act a => .result (t.act a).report.result
  | .distance x y => .distance (t.distance x y)

/-- The state after a query. -/
def after (t : Tracker α) : Query α → Tracker α
  | .act a => (t.act a).tracker
  | .distance _ _ => t

/-- The replies to queries one after the other. -/
def replies (t : Tracker α) : List (Query α) → List (Reply α)
  | [] => []
  | q :: qs => t.reply q :: (t.after q).replies qs

/-- The state after several queries. -/
def afterAll (t : Tracker α) (qs : List (Query α)) : Tracker α := qs.foldl after t

variable {t u : Tracker α}

theorem replies_append (t : Tracker α) (qs rs : List (Query α)) :
    t.replies (qs ++ rs) = t.replies qs ++ (t.afterAll qs).replies rs := by
  induction qs generalizing t with
  | nil => rfl
  | cons q qs ih => exact congrArg (_ :: ·) (ih (t.after q))

theorem afterAll_append (t : Tracker α) (qs rs : List (Query α)) :
    t.afterAll (qs ++ rs) = (t.afterAll qs).afterAll rs :=
  List.foldl_append

/-- Queries take a tracker where the actions among them do. -/
theorem afterAll_eq_run (t : Tracker α) (qs : List (Query α)) :
    t.afterAll qs = t.run (qs.filterMap fun | .act a => some a | .distance _ _ => none) := by
  induction qs generalizing t with
  | nil => rfl
  | cons q qs ih => cases q with
    | act a => exact ih (t.act a).tracker
    | distance x y => exact ih t

/-- What an action comes to does not depend on the room on the stack. -/
theorem result_act_of_uncapped (h : u.uncapped = t.uncapped) (a : Action α) :
    (u.act a).report.result = (t.act a).report.result := by
  cases a with
  | push side half cut => exact (alike_push h side half cut).1
  | pop =>
    obtain ⟨c, rfl⟩ := uncapped_eq_iff.mp h
    have hf : (t.withCapacity c).stack.frames = t.stack.frames := rfl
    simp only [act, settle, pop, tryPop, hf]
    cases t.stack.frames <;> rfl
  | tryPop =>
    obtain ⟨c, rfl⟩ := uncapped_eq_iff.mp h
    have hf : (t.withCapacity c).stack.frames = t.stack.frames := rfl
    simp only [act, settle, tryPop, hf]
    cases t.stack.frames <;> rfl

/-- **No reply depends on the room on the stack.** -/
theorem reply_of_uncapped (h : u.uncapped = t.uncapped) (q : Query α) : u.reply q = t.reply q := by
  cases q with
  | act a => exact congrArg Reply.result (result_act_of_uncapped h a)
  | distance x y =>
    obtain ⟨c, rfl⟩ := uncapped_eq_iff.mp h
    rfl

theorem uncapped_after (h : u.uncapped = t.uncapped) (q : Query α) :
    (u.after q).uncapped = (t.after q).uncapped := by
  cases q with
  | act a => exact uncapped_act h a
  | distance x y => exact h

theorem replies_of_uncapped (h : u.uncapped = t.uncapped) (qs : List (Query α)) :
    u.replies qs = t.replies qs ∧ (u.afterAll qs).uncapped = (t.afterAll qs).uncapped := by
  induction qs generalizing t u with
  | nil => exact ⟨rfl, h⟩
  | cons q qs ih =>
    obtain ⟨hreplies, hstate⟩ := ih (uncapped_after h q)
    exact ⟨congrArg₂ List.cons (reply_of_uncapped h q) hreplies, hstate⟩

end Tracker

/-! ## Chronicles -/

/-- Something done to a family, or asked of it. -/
inductive Turn (α : Type) where
  /-- A query to the member in focus. -/
  | ask (q : Query α)
  /-- A fork of the member in focus, which the focus turns to. -/
  | fork
  /-- A turn of the focus to another member. -/
  | focusOn (number : Nat)
deriving Repr

namespace Family

/-- Asks the member in focus. -/
def ask (F : Family α) : Query α → Family α × Reply α
  | .act a => ((F.act a).1, .result (F.act a).2.result)
  | .distance x y => (F, .distance (F.current.distance x y))

omit [Scalar α] in
theorem getElem?_focus (F : Family α) : F.members[F.focus]? = some F.current :=
  List.getElem?_eq_getElem F.focus_lt

theorem members_ask (F : Family α) (q : Query α) :
    (F.ask q).1.members = F.members.set F.focus (F.current.after q) := by
  cases q with
  | act a => rfl
  | distance x y => exact (List.set_getElem_self F.focus_lt).symm

theorem reply_ask (F : Family α) (q : Query α) : (F.ask q).2 = F.current.reply q := by
  cases q with
  | act a => rfl
  | distance x y => rfl

end Family

/-- A family, and for each member what it and its ancestors were asked and replied, those before they
were forked. -/
structure Chronicle (α : Type) where
  family : Family α
  records : List (List (Exchange α))

namespace Chronicle

/-- The chronicle of one tracker that was not asked anything yet. -/
def start (t : Tracker α) : Chronicle α := ⟨.singleton t, [[]]⟩

/-- Takes one turn. A fork inherits the record of the member that it is forked from. -/
def turn (C : Chronicle α) : Turn α → Chronicle α
  | .ask q =>
    let (family, reply) := C.family.ask q
    ⟨family, C.records.modify C.family.focus (· ++ [⟨q, reply⟩])⟩
  | .fork => ⟨C.family.fork, C.records ++ C.records[C.family.focus]?.toList⟩
  | .focusOn number => ⟨C.family.focusOn number, C.records⟩

/-- The chronicle at the end of several turns. -/
def run (C : Chronicle α) (ts : List (Turn α)) : Chronicle α := ts.foldl turn C

end Chronicle

namespace Tracker

/-- By itself the tracker `t` would have replied as recorded, and come to the state of `u` but for the
room on its stack. -/
structure Replays (t : Tracker α) (record : List (Exchange α)) (u : Tracker α) : Prop where
  replies : t.replies (record.map (·.query)) = record.map (·.reply)
  state : u.uncapped = (t.afterAll (record.map (·.query))).uncapped

variable {t u : Tracker α} {record : List (Exchange α)}

/-- A record goes on with whatever is asked next. -/
theorem Replays.ask (h : t.Replays record u) (q : Query α) :
    t.Replays (record ++ [⟨q, u.reply q⟩]) (u.after q) where
  replies := by
    simp only [List.map_append, List.map_singleton, replies_append, h.replies]
    exact congrArg (record.map (·.reply) ++ [·]) (reply_of_uncapped h.state q).symm
  state := by
    simp only [List.map_append, List.map_singleton, afterAll_append]
    exact uncapped_after h.state q

theorem Replays.fork (h : t.Replays record u) : t.Replays record u.fork :=
  ⟨h.replies, h.state⟩

end Tracker

namespace Chronicle

/-- Each member has a record, and `t` by itself would have replied so. -/
structure Faithful (t : Tracker α) (C : Chronicle α) : Prop where
  length_eq : C.records.length = C.family.members.length
  replays : ∀ (i : Nat) (u : Tracker α) (record : List (Exchange α)),
    C.family.members[i]? = some u → C.records[i]? = some record → t.Replays record u

variable {t : Tracker α} {C : Chronicle α}

theorem faithful_start (t : Tracker α) : Faithful t (start t) where
  length_eq := rfl
  replays i u record hu hrecord := by
    cases i with
    | zero =>
      cases hu
      cases hrecord
      exact ⟨rfl, rfl⟩
    | succ i => cases hu

/-- A query goes on record for the member in focus, and touches no other. -/
theorem Faithful.ask (h : Faithful t C) (q : Query α) : Faithful t (C.turn (.ask q)) where
  length_eq := by
    simp only [turn, Family.members_ask, List.length_modify, List.length_set, h.length_eq]
  replays i u record hu hrecord := by
    simp only [turn, Family.members_ask, Family.reply_ask] at hu hrecord
    by_cases hi : C.family.focus = i
    · subst hi
      rw [List.getElem?_set_self C.family.focus_lt, Option.some.injEq] at hu
      rw [List.getElem?_modify_eq, Option.map_eq_map, Option.map_eq_some_iff] at hrecord
      obtain ⟨old, hold, rfl⟩ := hrecord
      rw [← hu]
      exact (h.replays _ _ old (C.family.getElem?_focus) hold).ask q
    · rw [List.getElem?_set_ne hi] at hu
      rw [List.getElem?_modify_ne _ _ hi] at hrecord
      exact h.replays i u record hu hrecord

/-- A fork has the record of the member that it was forked from. -/
theorem Faithful.fork (h : Faithful t C) : Faithful t (C.turn .fork) := by
  have hlt : C.family.focus < C.records.length := h.length_eq ▸ C.family.focus_lt
  have hrecords : (C.turn .fork).records = C.records ++ [C.records[C.family.focus]] := by
    simp only [turn, List.getElem?_eq_getElem hlt, Option.toList_some]
  refine ⟨?_, ?_⟩
  · rw [hrecords]
    simp only [turn, Family.fork, List.length_append, List.length_singleton, h.length_eq]
  · intro i u record hu hrecord
    rw [hrecords] at hrecord
    simp only [turn, Family.fork] at hu
    rcases Nat.lt_trichotomy i C.family.members.length with hi | hi | hi
    · rw [List.getElem?_append_left hi] at hu
      rw [List.getElem?_append_left (h.length_eq ▸ hi)] at hrecord
      exact h.replays i u record hu hrecord
    · rw [hi, List.getElem?_concat_length, Option.some.injEq] at hu
      rw [hi, ← h.length_eq, List.getElem?_concat_length, Option.some.injEq] at hrecord
      rw [← hu, ← hrecord]
      exact (h.replays _ _ _ (C.family.getElem?_focus) (List.getElem?_eq_getElem hlt)).fork
    · rw [List.getElem?_eq_none (by simp; omega)] at hu
      cases hu

/-- Every turn leaves a faithful chronicle faithful. -/
theorem Faithful.turn (h : Faithful t C) (turn : Turn α) : Faithful t (C.turn turn) := by
  cases turn with
  | ask q => exact h.ask q
  | fork => exact h.fork
  | focusOn number =>
    have hmembers : (C.turn (.focusOn number)).family.members = C.family.members :=
      Family.members_focusOn ..
    exact ⟨hmembers ▸ h.length_eq, hmembers ▸ h.replays⟩

/-- **However the queries to a family are interleaved, its chronicle stays faithful.** -/
theorem Faithful.run (h : Faithful t C) (ts : List (Turn α)) : Faithful t (C.run ts) := by
  induction ts generalizing C with
  | nil => exact h
  | cons turn ts ih => exact ih (h.turn turn)

end Chronicle

/-! ## Going back -/

namespace Tracker

variable {t u : Tracker α} {space : Space α} {first second : Box α} {n : Norm α} {ε limit : α}

/-- As many pops as there are pushes to undo all come out well, and leave nothing to undo. -/
theorem replies_pops (t : Tracker α) :
    t.replies (List.replicate t.depth (.act .pop)) = List.replicate t.depth (.result (.ok ())) ∧
    (t.afterAll (List.replicate t.depth (.act .pop))).depth = 0 := by
  induction h : t.depth generalizing t with
  | zero => exact ⟨rfl, h⟩
  | succ depth ih =>
    have hok : (t.act .pop).report.result = .ok () := result_act_pop_eq_ok_iff.mpr (by omega)
    have hdepth : (t.act .pop).tracker.depth = depth := by
      rw [tracker_act_pop, depth_undo, h, Nat.add_sub_cancel]
    obtain ⟨hreplies, hzero⟩ := ih (t.act .pop).tracker hdepth
    refine ⟨congrArg₂ List.cons (congrArg Reply.result hok) hreplies, hzero⟩

/--
**Forks are independent of each other and faithful to what was forked, however their queries are
interleaved.**

Take a tracker as it is built, and ask any queries of it, its forks and their forks in any order. Each
member then has on record what it and its ancestors were asked and replied, those before they were
forked; and another tracker built alike, which is asked the queries on a record by itself, gives the
same replies one by one and ends in the same state but for the room on the stack. A further fork of
a member can undo all pushes that the member and its ancestors left to undo, after which it is in the
state that was built.
-/
theorem replays_members_run (h : (build space first second n ε limit).result = .ok t)
    (ts : List (Turn α)) :
    let C := (Chronicle.start t).run ts
    C.records.length = C.family.members.length ∧
    ∀ (i : Nat) (u : Tracker α), C.family.members[i]? = some u →
      (∃ record, C.records[i]? = some record ∧
        t.replies (record.map (·.query)) = record.map (·.reply) ∧
        u.uncapped = (t.afterAll (record.map (·.query))).uncapped) ∧
      u.fork.replies (List.replicate u.depth (.act .pop))
        = List.replicate u.depth (.result (.ok ())) ∧
      (u.fork.afterAll (List.replicate u.depth (.act .pop))).uncapped = t.uncapped := by
  intro C
  obtain ⟨hfit, rfl⟩ := result_build_eq_ok_iff.mp h
  have hs := shaped_start hfit n ε limit
  have hC : C.Faithful (start space first second n ε limit) := (Chronicle.faithful_start _).run ts
  refine ⟨hC.length_eq, fun i u hu => ?_⟩
  have hlt : i < C.records.length := hC.length_eq ▸ (List.getElem?_eq_some_iff.mp hu).1
  have hrecord := List.getElem?_eq_getElem hlt
  have hreplays := hC.replays i u _ hu hrecord
  have hfork : u.fork.depth = u.depth := rfl
  obtain ⟨hpops, hzero⟩ := replies_pops u.fork
  rw [hfork] at hpops hzero
  refine ⟨⟨_, hrecord, hreplays.replies, hreplays.state⟩, hpops, ?_⟩
  -- the fork goes back as the lone tracker does, and that one is known to come back to its start
  obtain ⟨-, hback⟩ := replies_of_uncapped (u := u.fork) hreplays.state
    (List.replicate u.depth (.act .pop))
  rw [depth_eq_of_uncapped hback, ← afterAll_append, afterAll_eq_run] at hzero
  rw [hback, ← afterAll_append, afterAll_eq_run]
  exact uncapped_run_of_depth_eq_zero hs rfl hzero

/-- A fork undoes the push from before it was forked and is then pushed along an axis that its boxes
lack; in between, the tracker that it was forked from is pushed once more, and a further fork of it
undoes both pushes. -/
theorem replays_members_run_float :
    let space : Space Float := .periodic ⟨[⟨10, 5⟩]⟩
    let first : Box Float := ⟨[⟨0 / 0, 1⟩]⟩
    let second : Box Float := ⟨[⟨9, 1 / 0⟩]⟩
    let early : Query Float := .act (.push .first .lower ⟨0, 2⟩)
    let late : Query Float := .act (.push .second .upper ⟨0, 0 / 0⟩)
    let lacking : Query Float := .act (.push .second .upper ⟨3, 7⟩)
    let pop : Query Float := .act .pop
    let ts : List (Turn Float) :=
      [.ask early, .fork, .ask pop, .focusOn 0, .ask late, .focusOn 1, .ask lacking]
    let t := start space first second .manhattan 0 (1 / 0)
    (build space first second .manhattan 0 (1 / 0)).result = .ok t ∧
    t.replies [early, pop, lacking]
      = [.result (.ok ()), .result (.ok ()), .result (.error (.indexOutOfRange 1 3))] ∧
    ∃ u, ((Chronicle.start t).run ts).family.members[0]? = some u ∧
      u.fork.replies [pop, pop] = [.result (.ok ()), .result (.ok ())] ∧
      (u.fork.afterAll [pop, pop]).uncapped = t.uncapped := by
  intro space first second early late lacking pop ts t
  have h : (build space first second .manhattan 0 (1 / 0)).result = .ok t :=
    result_build_eq_ok_iff.mpr ⟨⟨rfl, rfl⟩, rfl⟩
  have hsize : ((Chronicle.start t).run ts).family.members.length = 2 := rfl
  have hforked := List.getElem?_eq_getElem (l := ((Chronicle.start t).run ts).family.members)
    (i := 0) (by omega)
  have hfork := List.getElem?_eq_getElem (l := ((Chronicle.start t).run ts).family.members)
    (i := 1) (by omega)
  have hdepth : (((Chronicle.start t).run ts).family.members[0]).depth = 2 := rfl
  have hrecord : ((Chronicle.start t).run ts).records[1]?
      = some [⟨early, .result (.ok ())⟩, ⟨pop, .result (.ok ())⟩,
          ⟨lacking, .result (.error (.indexOutOfRange 1 3))⟩] := rfl
  obtain ⟨-, hmembers⟩ := replays_members_run h ts
  obtain ⟨-, hpops, hback⟩ := hmembers 0 _ hforked
  obtain ⟨⟨record, hrecord', hreplies, -⟩, -⟩ := hmembers 1 _ hfork
  rw [hrecord, Option.some.injEq] at hrecord'
  rw [← hrecord'] at hreplies
  rw [hdepth] at hpops hback
  exact ⟨h, hreplies, _, hforked, hpops, hback⟩

end Tracker

end MinkowskiBounds
