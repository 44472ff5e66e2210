/- Module: Epilog/Interp/DelayedCalls
   source: src/src/interp/interpreter_base.hpp (delayed_t, delayed_ready, process_delayed),
     src/src/interp/interpreter_base.cpp (add_delayed, check_delayed),
     src/src/interp/interpreter.cpp (execute_at, continue_at),
     src/src/node/task_execute_query.cpp, src/src/node/self_node.cpp (execute_at)
   digest: Delayed remote calls, whose workers, time-outs and processing go on in any order. -/

import Epilog.Lib.StepRuns
import Mathlib.Data.Finset.Card
import Mathlib.Data.List.Nodup

set_option autoImplicit false

namespace Epilog.Interp.DelayedCalls

open Epilog.Lib.StepRuns

section Source

/-- How the query of a call ends where it is executed -/
inductive Outcome
  | result
  | nothing
  | exception
  deriving DecidableEq

/-- `delayed_t` with what waits for its result: a worker, or a task of a connection. A task finds
the call through `delayed_`. The last three count what happened to the call. -/
structure Call where
  remote : Bool
  timeoutAt : Option ℕ
  /-- `result_src` and `result`: nothing, the result, or the empty list for none -/
  answer : Option Bool
  ready : Bool
  failed : Bool
  /-- The query has ended. -/
  wrote : Bool
  /-- The worker is through, or the task is deleted. -/
  done : Bool
  linked : Bool
  added : Bool
  unified : ℕ
  gaveUp : ℕ
  removed : ℕ
  deriving DecidableEq

namespace Call

def new (remote : Bool) (timeoutAt : Option ℕ) : Call where
  remote
  timeoutAt
  answer := none
  ready := false
  failed := false
  wrote := false
  done := false
  linked := true
  added := false
  unified := 0
  gaveUp := 0
  removed := 0

def hasExpired (c : Call) (now : ℕ) : Bool := c.timeoutAt.any (· < now)

/-- The function of `check_delayed`: what else there is to do is done if the result does not unify
with the query, or if there is none. -/
def settle (c : Call) (unifies : Bool) : Call :=
  if c.answer.isSome && unifies then { c with unified := c.unified + 1 }
  else { c with gaveUp := c.gaveUp + 1 }

/-- `processed_fn`, which only tasks set -/
def processed (c : Call) : Call := if c.remote then { c with linked := false } else c

/-- What a worker of a thread writes before `delayed_ready`; that of `continue_at` writes nothing if
there is an exception. -/
def write (c : Call) : Outcome → Call
  | .result => { c with answer := some true, wrote := true }
  | .nothing => { c with wrote := true }
  | .exception => { c with failed := true, wrote := true }

/-- What a task writes before `delayed_ready` -/
def receive (c : Call) : Outcome → Call
  | .result => { c with answer := some true, wrote := true }
  | .nothing => { c with answer := some false, wrote := true }
  | .exception => { c with answer := some false, failed := true, wrote := true }

end Call

/-- The calls, and of the interpreter the list of those that are delayed, the counter, the next
time-out, and where `process_delayed` is in the list. Of the calls that were ready when it began
to go through the list `due` keeps the addresses. -/
structure State where
  created : Finset ℕ
  calls : ℕ → Call
  delayed : List ℕ
  delayedReady : ℕ
  nextTimeout : Option ℕ
  cursor : Option ℕ
  due : Finset ℕ

def State.init : State where
  created := ∅
  calls _ := Call.new false none
  delayed := []
  delayedReady := 0
  nextTimeout := none
  cursor := none
  due := ∅

namespace State

variable (s : State)

def set (id : ℕ) (c : Call) : State := { s with calls := Function.update s.calls id c }

/-- `delayed_ready` of a call, after what else is written to it -/
def setReady (id : ℕ) (c : Call) : State :=
  { s.set id { c with ready := true } with delayedReady := s.delayedReady + 1 }

/-- A time-out that comes before the next one -/
def lowerTimeout (t : Option ℕ) : State :=
  match t with
  | none => s
  | some t =>
    if s.nextTimeout.all (t < ·) then { s with nextTimeout := some t } else s

def addDelayed (id : ℕ) : State :=
  ({ s.set id { s.calls id with added := true } with
    delayed := s.delayed ++ [id] }).lowerTimeout (s.calls id).timeoutAt

/-- The beginning of `process_delayed` -/
def beginPass : State :=
  { s with
    nextTimeout := none
    cursor := some 0
    due := s.created.filter fun id => id ∈ s.delayed ∧ (s.calls id).ready = true }

/-- One turn of the loop of `process_delayed`, at the address `id` -/
def turn (k id now : ℕ) (unifies : Bool) : State :=
  let c := s.calls id
  if c.hasExpired now then
    s.set id ({ c with failed := true, timeoutAt := none }.settle unifies).processed
  else if c.ready then
    let c := if c.failed then c else c.settle unifies
    let c := c.processed
    { s.set id { c with removed := c.removed + 1 } with
      delayed := s.delayed.eraseIdx k
      delayedReady := s.delayedReady - 1 }
  else { s.lowerTimeout c.timeoutAt with cursor := some (k + 1) }

end State

/-- What may happen next -/
inductive Event
  /-- A call is made, by a thread or through a connection. -/
  | create (id : ℕ) (remote : Bool) (timeoutAt : Option ℕ)
  | add (id : ℕ)
  /-- The query of a worker ends. -/
  | write (id : ℕ) (outcome : Outcome)
  /-- The worker calls `delayed_ready`. -/
  | report (id : ℕ)
  /-- A task receives what its query came to. -/
  | receive (id : ℕ) (outcome : Outcome)
  /-- A connection goes away with a task that has not received anything. -/
  | drop (id : ℕ)
  /-- A task that waits has its turn. -/
  | wait (id : ℕ)
  | beginPass
  | turn (now : ℕ) (unifies : Bool)

namespace State

variable (s : State)

/-- What an event does; where it cannot happen nothing does. -/
def step : Event → State
  | .create id remote timeoutAt =>
    if id ∈ s.created then s
    else { s.set id (Call.new remote timeoutAt) with created := insert id s.created }
  | .add id => if id ∈ s.created ∧ (s.calls id).added = false then s.addDelayed id else s
  | .write id outcome =>
    if id ∈ s.created ∧ (s.calls id).remote = false ∧ (s.calls id).wrote = false then
      s.set id ((s.calls id).write outcome)
    else s
  | .report id =>
    if id ∈ s.created ∧ (s.calls id).remote = false ∧ (s.calls id).wrote = true ∧
        (s.calls id).done = false then
      s.setReady id { s.calls id with done := true }
    else s
  | .receive id outcome =>
    if id ∈ s.created ∧ (s.calls id).remote = true ∧ (s.calls id).wrote = false ∧
        (s.calls id).done = false then
      if (s.calls id).linked then s.setReady id ((s.calls id).receive outcome)
      else s.set id { s.calls id with wrote := true }
    else s
  | .drop id =>
    if id ∈ s.created ∧ (s.calls id).remote = true ∧ (s.calls id).wrote = false ∧
        (s.calls id).done = false then
      if (s.calls id).linked then s.setReady id { s.calls id with done := true }
      else s.set id { s.calls id with done := true }
    else s
  | .wait id =>
    -- the task is told when the call is deleted, reports and is deleted, which reports again
    if id ∈ s.created ∧ (s.calls id).remote = true ∧ (s.calls id).wrote = true ∧
        (s.calls id).done = false ∧ (s.calls id).removed ≠ 0 then
      let c := { s.calls id with done := true }
      if c.linked then (s.setReady id c).setReady id c else s.set id c
    else s
  | .beginPass => if s.cursor = none then s.beginPass else s
  | .turn now unifies =>
    match s.cursor with
    | none => s
    | some k =>
      match s.delayed[k]? with
      | none => { s with cursor := none }
      | some id => s.turn k id now unifies

end State

end Source

section Specification

/-- Whoever waits for the result will report that it is ready. -/
def Call.WillReport (c : Call) : Prop := c.done = false ∧ c.linked = true

/-- A call is unified with its result, or given up, once and not both, and has been when it is
removed; and as long as it is not, somebody will report it or has. -/
structure Call.Right (c : Call) : Prop where
  once : c.unified + c.gaveUp ≤ 1
  neither : c.removed ≠ 0 → c.unified + c.gaveUp = 1
  rightful : c.unified ≠ 0 → c.answer = some true
  reports : c.removed = 0 → c.ready = true ∨ c.WillReport

/-- The calls that are ready and not yet processed -/
def State.readyCalls (s : State) : Finset ℕ :=
  s.created.filter fun id => (s.calls id).ready = true ∧ (s.calls id).removed = 0

/-- Every call is settled once and removed once, the counter counts those that are ready, and those
that were ready when the list was gone through are removed in the end. -/
structure Settled (s : State) : Prop where
  each : ∀ id ∈ s.created, (s.calls id).Right
  removedOnce : ∀ id ∈ s.created, (s.calls id).removed ≤ 1
  listed : s.delayed.Nodup ∧ ∀ id, id ∈ s.delayed ↔
    id ∈ s.created ∧ (s.calls id).added = true ∧ (s.calls id).removed = 0
  counted : s.delayedReady = s.readyCalls.card
  passes : s.cursor = none → ∀ id ∈ s.due, (s.calls id).removed = 1

/-- The condition on a turn of the loop: a call that is found ready and failed has timed out before;
a call through a connection that has timed out is found ready; and the query of one that had no
result does not unify with the empty list. -/
def Call.Meets (c : Call) (now : ℕ) (unifies : Bool) : Prop :=
  if c.hasExpired now then
    (c.remote = true → c.ready = true) ∧ (c.answer = some false → unifies = false)
  else if c.ready then
    if c.failed then c.unified + c.gaveUp ≠ 0 else c.answer = some false → unifies = false
  else True

def Meets (s : State) : Event → Prop
  | .turn now unifies =>
    ∀ k ∈ s.cursor, ∀ id ∈ s.delayed[k]?, (s.calls id).Meets now unifies
  | _ => True

end Specification

section Calls

variable {c : Call} {now : ℕ} {unifies : Bool} {outcome : Outcome}

/-- What holds of a call whatever happens -/
structure Call.Kept (c : Call) : Prop where
  settled : c.removed = 0 → c.unified + c.gaveUp ≠ 0 → c.failed = true ∧ c.timeoutAt = none
  reported : c.ready = true → c.done = true ∨ c.remote = true ∧ c.wrote = true
  answered : c.answer ≠ none → c.wrote = true
  gone : c.removed ≠ 0 →
    c.ready = true ∧ c.removed = 1 ∧ c.added = true ∧ (c.remote = true → c.linked = false)

theorem Call.Kept.not_ready (kept : c.Kept) (running : c.done = false)
    (idle : c.remote = true → c.wrote = false) : c.ready = false ∧ c.removed = 0 := by
  have ready : ¬ c.ready = true := by
    intro ready
    rcases kept.reported ready with done | ⟨remote, wrote⟩
    · exact absurd (running.symm.trans done) Bool.false_ne_true
    · exact absurd ((idle remote).symm.trans wrote) Bool.false_ne_true
  refine ⟨Bool.eq_false_iff.2 ready, ?_⟩
  by_contra removed
  exact ready (kept.gone removed).1

theorem Call.Kept.no_answer (kept : c.Kept) (running : c.wrote = false) : c.answer = none := by
  by_contra some_
  exact absurd (running.symm.trans (kept.answered some_)) Bool.false_ne_true

/-- The result of a call unifies with its query. -/
def Call.succeeds (c : Call) (unifies : Bool) : Bool := c.answer.isSome && unifies

theorem Call.settle_eq (c : Call) (unifies : Bool) : c.settle unifies =
    { c with
      unified := c.unified + if c.succeeds unifies then 1 else 0
      gaveUp := c.gaveUp + if c.succeeds unifies then 0 else 1 } := by
  unfold settle succeeds
  split_ifs
  · rfl
  · rfl

theorem Call.settle_sum (c : Call) (unifies : Bool) :
    (c.settle unifies).unified + (c.settle unifies).gaveUp = c.unified + c.gaveUp + 1 := by
  rw [settle_eq]
  dsimp only
  split_ifs <;> omega

theorem Call.settle_rightful (unsettled : c.unified = 0) :
    ((c.settle unifies).unified ≠ 0 → c.answer = some true) ↔
      (c.answer = some false → unifies = false) := by
  rw [settle_eq]
  unfold succeeds
  dsimp only
  rw [unsettled]
  cases c.answer with
  | none => simp
  | some b => cases b <;> cases unifies <;> simp

end Calls

section Turns

variable {c : Call} {now : ℕ} {unifies : Bool} {outcome : Outcome}

/-- What becomes of a call that has timed out -/
def Call.expire (c : Call) (unifies : Bool) : Call :=
  ({ c with failed := true, timeoutAt := none }.settle unifies).processed

/-- What becomes of a call that is ready -/
def Call.finish (c : Call) (unifies : Bool) : Call :=
  let c := (if c.failed then c else c.settle unifies).processed
  { c with removed := c.removed + 1 }

theorem Call.processed_eq (c : Call) :
    c.processed = { c with linked := if c.remote then false else c.linked } := by
  unfold processed
  split_ifs
  · rfl
  · rfl

theorem Call.expire_eq (c : Call) (unifies : Bool) : c.expire unifies =
    { c with
      failed := true
      timeoutAt := none
      unified := c.unified + if c.succeeds unifies then 1 else 0
      gaveUp := c.gaveUp + if c.succeeds unifies then 0 else 1
      linked := if c.remote then false else c.linked } := by
  unfold expire
  rw [settle_eq, processed_eq]
  rfl

theorem Call.finish_failed (failed : c.failed = true) : c.finish unifies =
    { c with
      linked := if c.remote then false else c.linked
      removed := c.removed + 1 } := by
  unfold finish
  rw [if_pos failed, processed_eq]

theorem Call.finish_ok (ok : c.failed = false) : c.finish unifies =
    { c with
      unified := c.unified + if c.succeeds unifies then 1 else 0
      gaveUp := c.gaveUp + if c.succeeds unifies then 0 else 1
      linked := if c.remote then false else c.linked
      removed := c.removed + 1 } := by
  unfold finish
  rw [if_neg (Bool.eq_false_iff.1 ok), settle_eq, processed_eq]

theorem Call.hasExpired_timeout (expired : c.hasExpired now = true) : c.timeoutAt ≠ none := by
  intro none_
  unfold hasExpired at expired
  rw [none_] at expired
  exact Bool.false_ne_true expired

theorem Call.Kept.unsettled (kept : c.Kept) (here : c.removed = 0)
    (waits : c.timeoutAt ≠ none ∨ c.failed = false) : c.unified = 0 ∧ c.gaveUp = 0 := by
  by_contra settled
  obtain ⟨failed, none_⟩ := kept.settled here (by omega)
  rcases waits with timeout | ok
  · exact timeout none_
  · exact absurd (ok.symm.trans failed) Bool.false_ne_true

theorem Call.Kept.expire (kept : c.Kept) (here : c.removed = 0) : (c.expire unifies).Kept := by
  rw [expire_eq]
  exact ⟨fun _ _ => ⟨rfl, rfl⟩, kept.reported, kept.answered, fun removed => absurd here removed⟩

theorem Call.Kept.finish (kept : c.Kept) (here : c.removed = 0) (ready : c.ready = true)
    (added : c.added = true) : (c.finish unifies).Kept := by
  have unlinked : c.remote = true → (if c.remote then false else c.linked) = false :=
    fun remote => if_pos remote
  cases failed : c.failed with
  | true =>
    rw [finish_failed failed]
    refine ⟨fun none_ => absurd none_ (Nat.succ_ne_zero _), kept.reported, kept.answered,
      fun _ => ⟨ready, ?_, added, unlinked⟩⟩
    exact congrArg (· + 1) here
  | false =>
    rw [finish_ok failed]
    refine ⟨fun none_ => absurd none_ (Nat.succ_ne_zero _), kept.reported, kept.answered,
      fun _ => ⟨ready, ?_, added, unlinked⟩⟩
    exact congrArg (· + 1) here

theorem Call.expire_right_iff (kept : c.Kept) (right : c.Right) (here : c.removed = 0)
    (expired : c.hasExpired now = true) :
    (c.expire unifies).Right ↔
      (c.remote = true → c.ready = true) ∧ (c.answer = some false → unifies = false) := by
  obtain ⟨unsettled, kept_⟩ := kept.unsettled here (.inl (hasExpired_timeout expired))
  have rightful := @settle_rightful c unifies unsettled
  have sum := settle_sum c unifies
  rw [settle_eq] at rightful sum
  dsimp only at rightful sum
  rw [expire_eq, ← rightful]
  constructor
  · intro after
    refine ⟨fun remote => ?_, after.rightful⟩
    rcases after.reports here with ready | ⟨-, linked⟩
    · exact ready
    · dsimp only at linked
      rw [if_pos remote] at linked
      exact absurd linked Bool.false_ne_true
  · rintro ⟨ready, rightful⟩
    refine ⟨?_, fun removed => absurd here removed, rightful, fun _ => ?_⟩
    · dsimp only
      omega
    · rcases right.reports here with isReady | ⟨running, linked⟩
      · exact .inl isReady
      · cases remote : c.remote with
        | true => exact .inl (ready remote)
        | false => exact .inr ⟨running, linked⟩

theorem Call.finish_right_iff (kept : c.Kept) (right : c.Right) (here : c.removed = 0) :
    (c.finish unifies).Right ↔
      if c.failed then c.unified + c.gaveUp ≠ 0 else c.answer = some false → unifies = false := by
  cases failed : c.failed with
  | true =>
    rw [finish_failed failed, if_pos rfl]
    constructor
    · intro after
      have settled := after.neither (Nat.succ_ne_zero _)
      dsimp only at settled
      omega
    · intro settled
      have once := right.once
      refine ⟨once, fun _ => ?_, right.rightful, fun none_ => absurd none_ (Nat.succ_ne_zero _)⟩
      dsimp only
      omega
  | false =>
    obtain ⟨unsettled, kept_⟩ := kept.unsettled here (.inr failed)
    have rightful := @settle_rightful c unifies unsettled
    have sum := settle_sum c unifies
    rw [settle_eq] at rightful sum
    dsimp only at rightful sum
    rw [finish_ok failed, if_neg Bool.false_ne_true, ← rightful]
    constructor
    · exact fun after => after.rightful
    · intro rightful
      refine ⟨?_, fun _ => ?_, rightful, fun none_ => absurd none_ (Nat.succ_ne_zero _)⟩
      · dsimp only
        omega
      · dsimp only
        omega

end Turns
section Reports

variable {c : Call} {outcome : Outcome} {remote : Bool} {timeoutAt : Option ℕ}

theorem Call.kept_new : (new remote timeoutAt).Kept where
  settled _ settled := absurd rfl settled
  reported ready := absurd ready Bool.false_ne_true
  answered answer := absurd rfl answer
  gone removed := absurd rfl removed

theorem Call.right_new : (new remote timeoutAt).Right where
  once := Nat.zero_le 1
  neither removed := absurd rfl removed
  rightful unified := absurd rfl unified
  reports _ := .inr ⟨rfl, rfl⟩

theorem Call.Kept.add (kept : c.Kept) : ({ c with added := true } : Call).Kept where
  settled := kept.settled
  reported := kept.reported
  answered := kept.answered
  gone removed :=
    have ⟨ready, once, _, unlinked⟩ := kept.gone removed
    ⟨ready, once, rfl, unlinked⟩

theorem Call.Right.add (right : c.Right) : ({ c with added := true } : Call).Right :=
  ⟨right.once, right.neither, right.rightful, right.reports⟩

theorem Call.Kept.write (kept : c.Kept) (local_ : c.remote = false) : (c.write outcome).Kept := by
  have reported : c.ready = true → c.done = true ∨ c.remote = true ∧ true = true := by
    intro ready
    rcases kept.reported ready with done | ⟨remote, -⟩
    · exact .inl done
    · exact absurd (local_.symm.trans remote) Bool.false_ne_true
  cases outcome with
  | result => exact ⟨kept.settled, reported, fun _ => rfl, kept.gone⟩
  | nothing => exact ⟨kept.settled, reported, fun _ => rfl, kept.gone⟩
  | exception =>
    exact ⟨fun here settled => ⟨rfl, (kept.settled here settled).2⟩, reported, fun _ => rfl,
      kept.gone⟩

theorem Call.Right.write (right : c.Right) : (c.write outcome).Right := by
  cases outcome with
  | result => exact ⟨right.once, right.neither, fun _ => rfl, right.reports⟩
  | nothing => exact ⟨right.once, right.neither, right.rightful, right.reports⟩
  | exception => exact ⟨right.once, right.neither, right.rightful, right.reports⟩

theorem Call.Kept.report (kept : c.Kept) :
    ({ c with done := true, ready := true } : Call).Kept where
  settled := kept.settled
  reported _ := .inl rfl
  answered := kept.answered
  gone removed := ⟨rfl, (kept.gone removed).2⟩

theorem Call.Right.report (right : c.Right) :
    ({ c with done := true, ready := true } : Call).Right :=
  ⟨right.once, right.neither, right.rightful, fun _ => .inl rfl⟩

theorem Call.Kept.forget (kept : c.Kept) : ({ c with done := true } : Call).Kept where
  settled := kept.settled
  reported _ := .inl rfl
  answered := kept.answered
  gone := kept.gone

theorem Call.Right.forget (right : c.Right) (unlinked : c.linked = false) :
    ({ c with done := true } : Call).Right := by
  refine ⟨right.once, right.neither, right.rightful, fun here => ?_⟩
  rcases right.reports here with ready | ⟨-, linked⟩
  · exact .inl ready
  · exact absurd (unlinked.symm.trans linked) Bool.false_ne_true

theorem Call.Kept.receive (kept : c.Kept) (remote : c.remote = true) :
    ({ c.receive outcome with ready := true } : Call).Kept := by
  cases outcome with
  | result =>
    exact ⟨kept.settled, fun _ => .inr ⟨remote, rfl⟩, fun _ => rfl,
      fun removed => ⟨rfl, (kept.gone removed).2⟩⟩
  | nothing =>
    exact ⟨kept.settled, fun _ => .inr ⟨remote, rfl⟩, fun _ => rfl,
      fun removed => ⟨rfl, (kept.gone removed).2⟩⟩
  | exception =>
    exact ⟨fun here settled => ⟨rfl, (kept.settled here settled).2⟩,
      fun _ => .inr ⟨remote, rfl⟩, fun _ => rfl, fun removed => ⟨rfl, (kept.gone removed).2⟩⟩

theorem Call.Right.receive (right : c.Right) (kept : c.Kept) (running : c.wrote = false) :
    ({ c.receive outcome with ready := true } : Call).Right := by
  have none_ := kept.no_answer running
  have unsettled : c.unified = 0 := by
    by_contra settled
    exact absurd (none_.symm.trans (right.rightful settled)) (Option.some_ne_none true).symm
  cases outcome with
  | result => exact ⟨right.once, right.neither, fun _ => rfl, fun _ => .inl rfl⟩
  | nothing =>
    exact ⟨right.once, right.neither, fun settled => absurd unsettled settled, fun _ => .inl rfl⟩
  | exception =>
    exact ⟨right.once, right.neither, fun settled => absurd unsettled settled, fun _ => .inl rfl⟩

theorem Call.Kept.lose (kept : c.Kept) : ({ c with wrote := true } : Call).Kept where
  settled := kept.settled
  reported ready := (kept.reported ready).imp_right fun waits => ⟨waits.1, rfl⟩
  answered _ := rfl
  gone := kept.gone

theorem Call.Right.lose (right : c.Right) : ({ c with wrote := true } : Call).Right :=
  ⟨right.once, right.neither, right.rightful, right.reports⟩

end Reports

section States

variable {s : State} {id : ℕ} {c : Call}

@[simp] theorem State.set_same : (s.set id c).calls id = c := Function.update_self _ _ _

theorem State.set_other {other : ℕ} (differs : other ≠ id) :
    (s.set id c).calls other = s.calls other :=
  Function.update_of_ne differs _ _

theorem State.set_iff (p : Call → Prop) (same : p c ↔ p (s.calls id)) (other : ℕ) :
    p ((s.set id c).calls other) ↔ p (s.calls other) := by
  by_cases differs : other = id
  · rw [differs, set_same]
    exact same
  · rw [set_other differs]

theorem State.set_all (p : Call → Prop) (all : ∀ other ∈ s.created, p (s.calls other)) (new : p c)
    {other : ℕ} (mem : other ∈ s.created) : p ((s.set id c).calls other) := by
  by_cases differs : other = id
  · rw [differs, set_same]
    exact new
  · rw [set_other differs]
    exact all other mem

theorem State.mem_readyCalls {other : ℕ} : other ∈ s.readyCalls ↔
    other ∈ s.created ∧ (s.calls other).ready = true ∧ (s.calls other).removed = 0 :=
  Finset.mem_filter

/-- What holds of the list, the counter and the calls that are due whatever happens -/
structure Kept (s : State) : Prop where
  each : ∀ id ∈ s.created, (s.calls id).Kept
  nodup : s.delayed.Nodup
  listed : ∀ id, id ∈ s.delayed ↔
    id ∈ s.created ∧ (s.calls id).added = true ∧ (s.calls id).removed = 0
  counted : s.delayedReady = s.readyCalls.card
  ahead : ∀ id ∈ s.due, id ∈ s.created ∧ ((s.calls id).removed = 0 →
    (s.calls id).ready = true ∧ ∃ k, s.cursor = some k ∧ id ∈ s.delayed.drop k)

/-- Every call is settled as it should be, or will be. -/
def AllRight (s : State) : Prop := ∀ id ∈ s.created, (s.calls id).Right

theorem Kept.settled_iff (kept : Kept s) : Settled s ↔ AllRight s := by
  constructor
  · exact fun settled => settled.each
  · intro right
    refine ⟨right, fun id mem => ?_, ⟨kept.nodup, kept.listed⟩, kept.counted,
      fun idle id due => ?_⟩
    · by_cases here : (s.calls id).removed = 0
      · exact here.le.trans (Nat.zero_le 1)
      · exact ((kept.each id mem).gone here).2.1.le
    · obtain ⟨mem, waits⟩ := kept.ahead id due
      by_cases here : (s.calls id).removed = 0
      · obtain ⟨-, k, running, -⟩ := waits here
        exact absurd (idle.symm.trans running) (Option.some_ne_none k).symm
      · exact ((kept.each id mem).gone here).2.1

theorem Kept.set (kept : Kept s) (new : c.Kept) (ready : c.ready = (s.calls id).ready)
    (added : c.added = (s.calls id).added) (removed : c.removed = (s.calls id).removed) :
    Kept (s.set id c) where
  each _ mem := State.set_all Call.Kept kept.each new mem
  nodup := kept.nodup
  listed other := by
    have same := @State.set_iff s id c
      (fun c => c.added = true ∧ c.removed = 0) (by rw [added, removed]) other
    exact (kept.listed other).trans (and_congr_right fun _ => same.symm)
  counted := by
    refine kept.counted.trans (congrArg Finset.card (Finset.filter_congr fun other _ => ?_))
    exact (State.set_iff (fun c => c.ready = true ∧ c.removed = 0) (by rw [ready, removed])
      other).symm
  ahead other due := by
    obtain ⟨mem, waits⟩ := kept.ahead other due
    refine ⟨mem, fun here => ?_⟩
    have stays := (State.set_iff (fun c => c.removed = 0) (by rw [removed]) other).1 here
    obtain ⟨isReady, rest⟩ := waits stays
    exact ⟨(State.set_iff (fun c => c.ready = true) (by rw [ready]) other).2 isReady, rest⟩

theorem Kept.setReady (kept : Kept s) (mem : id ∈ s.created)
    (new : ({ c with ready := true } : Call).Kept) (idle : (s.calls id).ready = false)
    (here : (s.calls id).removed = 0) (added : c.added = (s.calls id).added)
    (removed : c.removed = (s.calls id).removed) : Kept (s.setReady id c) where
  each _ mem := State.set_all Call.Kept kept.each new mem
  nodup := kept.nodup
  listed other := by
    have same := @State.set_iff s id { c with ready := true }
      (fun c => c.added = true ∧ c.removed = 0) (by dsimp only; rw [added, removed]) other
    exact (kept.listed other).trans (and_congr_right fun _ => same.symm)
  counted := by
    have absent : id ∉ s.readyCalls := by
      intro present
      exact absurd (idle.symm.trans (State.mem_readyCalls.1 present).2.1) Bool.false_ne_true
    have more : (s.setReady id c).readyCalls = insert id s.readyCalls := by
      ext other
      rw [Finset.mem_insert, State.mem_readyCalls, State.mem_readyCalls]
      by_cases differs : other = id
      · subst differs
        refine iff_of_true ⟨mem, ?_⟩ (.inl rfl)
        change ((s.set other _).calls other).ready = true ∧
          ((s.set other _).calls other).removed = 0
        rw [State.set_same]
        exact ⟨rfl, removed.trans here⟩
      · change other ∈ s.created ∧ ((s.set id _).calls other).ready = true ∧
          ((s.set id _).calls other).removed = 0 ↔ _
        rw [State.set_other differs]
        exact (or_iff_right differs).symm
    rw [more, Finset.card_insert_of_notMem absent]
    exact congrArg (· + 1) kept.counted
  ahead other due := by
    obtain ⟨mem, waits⟩ := kept.ahead other due
    refine ⟨mem, fun stays => ?_⟩
    have before :=
      (State.set_iff (fun c => c.removed = 0) (by dsimp only; rw [removed]) other).1 stays
    obtain ⟨isReady, rest⟩ := waits before
    refine ⟨?_, rest⟩
    exact State.set_all (s := { s with created := {other} }) (fun c => c.ready = true)
      (fun _ only => by rwa [Finset.mem_singleton.1 only]) rfl (Finset.mem_singleton_self other)

end States

section Passes

variable {s : State} {id k now : ℕ} {c : Call} {unifies : Bool}

theorem State.lowerTimeout_eq (s : State) (t : Option ℕ) :
    ∃ next, s.lowerTimeout t = { s with nextTimeout := next } := by
  unfold lowerTimeout
  cases t with
  | none => exact ⟨s.nextTimeout, rfl⟩
  | some t =>
    dsimp only
    split_ifs
    · exact ⟨some t, rfl⟩
    · exact ⟨s.nextTimeout, rfl⟩

theorem Kept.lowerTimeout (kept : Kept s) (t : Option ℕ) : Kept (s.lowerTimeout t) := by
  obtain ⟨next, eq⟩ := s.lowerTimeout_eq t
  rw [eq]
  exact ⟨kept.each, kept.nodup, kept.listed, kept.counted, kept.ahead⟩

theorem AllRight.lowerTimeout (right : AllRight s) (t : Option ℕ) :
    AllRight (s.lowerTimeout t) := by
  obtain ⟨next, eq⟩ := s.lowerTimeout_eq t
  rw [eq]
  exact right

theorem Kept.create (kept : Kept s) (fresh : id ∉ s.created) (new : c.Kept)
    (idle : c.ready = false) (unlisted : c.added = false) :
    Kept { s.set id c with created := insert id s.created } where
  each other mem := by
    rcases Finset.mem_insert.1 mem with rfl | mem
    · exact (congrArg Call.Kept State.set_same).mpr new
    · exact State.set_all Call.Kept kept.each new mem
  nodup := kept.nodup
  listed other := by
    change other ∈ s.delayed ↔ other ∈ insert id s.created ∧
      ((s.set id c).calls other).added = true ∧ ((s.set id c).calls other).removed = 0
    rw [kept.listed other, Finset.mem_insert]
    by_cases differs : other = id
    · subst differs
      rw [State.set_same]
      refine iff_of_false (fun listed => fresh listed.1) fun listed => ?_
      exact absurd (unlisted.symm.trans listed.2.1) Bool.false_ne_true
    · rw [State.set_other differs, or_iff_right differs]
  counted := by
    refine kept.counted.trans (congrArg Finset.card ?_)
    ext other
    rw [State.mem_readyCalls, State.mem_readyCalls]
    change _ ↔ other ∈ insert id s.created ∧
      ((s.set id c).calls other).ready = true ∧ ((s.set id c).calls other).removed = 0
    rw [Finset.mem_insert]
    by_cases differs : other = id
    · subst differs
      rw [State.set_same]
      refine iff_of_false (fun ready => fresh ready.1) fun ready => ?_
      exact absurd (idle.symm.trans ready.2.1) Bool.false_ne_true
    · rw [State.set_other differs, or_iff_right differs]
  ahead other due := by
    obtain ⟨mem, waits⟩ := kept.ahead other due
    have differs : other ≠ id := by
      rintro rfl
      exact fresh mem
    change other ∈ insert id s.created ∧ (((s.set id c).calls other).removed = 0 →
      ((s.set id c).calls other).ready = true ∧ _)
    rw [State.set_other differs]
    exact ⟨Finset.mem_insert_of_mem mem, waits⟩

theorem AllRight.create (right : AllRight s) (new : c.Right) :
    AllRight { s.set id c with created := insert id s.created } := by
  intro other mem
  change ((s.set id c).calls other).Right
  rcases Finset.mem_insert.1 mem with rfl | mem
  · rw [State.set_same]
    exact new
  · exact State.set_all Call.Right right new mem

theorem Kept.addDelayed (kept : Kept s) (mem : id ∈ s.created)
    (unlisted : (s.calls id).added = false) : Kept (s.addDelayed id) := by
  refine Kept.lowerTimeout ?_ _
  have notGone : (s.calls id).removed = 0 := by
    by_contra gone
    exact absurd (unlisted.symm.trans ((kept.each id mem).gone gone).2.2.1) Bool.false_ne_true
  have absent : id ∉ s.delayed := by
    intro present
    exact absurd (unlisted.symm.trans ((kept.listed id).1 present).2.1) Bool.false_ne_true
  have keeps (p : Call → Prop) (same : p { s.calls id with added := true } ↔ p (s.calls id)) :=
    State.set_iff p same
  refine ⟨fun _ mem_ => State.set_all Call.Kept kept.each (kept.each id mem).add mem_, ?_,
    fun other => ?_, ?_, fun other due => ?_⟩
  · refine List.nodup_append.2 ⟨kept.nodup, List.nodup_singleton id, fun other listed x isId => ?_⟩
    rw [List.mem_singleton.1 isId]
    rintro rfl
    exact absent listed
  · change other ∈ s.delayed ++ [id] ↔ other ∈ s.created ∧
      ((s.set id _).calls other).added = true ∧ ((s.set id _).calls other).removed = 0
    rw [List.mem_append, List.mem_singleton]
    by_cases differs : other = id
    · subst differs
      rw [State.set_same]
      exact iff_of_true (.inr rfl) ⟨mem, rfl, notGone⟩
    · rw [State.set_other differs, or_iff_left differs]
      exact kept.listed other
  · refine kept.counted.trans (congrArg Finset.card (Finset.filter_congr fun other _ => ?_))
    exact (keeps (fun c => c.ready = true ∧ c.removed = 0) Iff.rfl other).symm
  · obtain ⟨mem, waits⟩ := kept.ahead other due
    refine ⟨mem, fun here => ?_⟩
    obtain ⟨isReady, k, running, later⟩ :=
      waits ((keeps (fun c => c.removed = 0) Iff.rfl other).1 here)
    refine ⟨(keeps (fun c => c.ready = true) Iff.rfl other).2 isReady, k, running, ?_⟩
    change other ∈ (s.delayed ++ [id]).drop k
    rw [List.drop_append]
    exact List.mem_append_left _ later

theorem Kept.beginPass (kept : Kept s) : Kept s.beginPass where
  each := kept.each
  nodup := kept.nodup
  listed := kept.listed
  counted := kept.counted
  ahead other due := by
    obtain ⟨mem, listed, ready⟩ := Finset.mem_filter.1 due
    exact ⟨mem, fun _ => ⟨ready, 0, rfl, listed⟩⟩

theorem Kept.endPass (kept : Kept s) (running : s.cursor = some k) (atEnd : s.delayed[k]? = none) :
    Kept { s with cursor := none } where
  each := kept.each
  nodup := kept.nodup
  listed := kept.listed
  counted := kept.counted
  ahead other due := by
    obtain ⟨mem, waits⟩ := kept.ahead other due
    refine ⟨mem, fun here => ?_⟩
    obtain ⟨-, k', running', later⟩ := waits here
    rw [← Option.some.inj (running.symm.trans running'),
      List.drop_eq_nil_of_le (List.getElem?_eq_none_iff.1 atEnd)] at later
    exact absurd later List.not_mem_nil

theorem split_found {l : List ℕ} (found : l[k]? = some id) :
    l.drop k = id :: l.drop (k + 1) := by
  obtain ⟨inside, rfl⟩ := List.getElem?_eq_some_iff.1 found
  exact List.drop_eq_getElem_cons inside

theorem Kept.skip (kept : Kept s) (running : s.cursor = some k) (found : s.delayed[k]? = some id)
    (idle : (s.calls id).ready = false) (t : Option ℕ) :
    Kept { s.lowerTimeout t with cursor := some (k + 1) } := by
  obtain ⟨next, eq⟩ := s.lowerTimeout_eq t
  rw [eq]
  refine ⟨kept.each, kept.nodup, kept.listed, kept.counted, fun other due => ?_⟩
  obtain ⟨mem, waits⟩ := kept.ahead other due
  refine ⟨mem, fun here => ?_⟩
  obtain ⟨isReady, k', running', later⟩ := waits here
  refine ⟨isReady, k + 1, rfl, ?_⟩
  rw [← Option.some.inj (running.symm.trans running'), split_found found] at later
  rcases List.mem_cons.1 later with rfl | later
  · exact absurd (idle.symm.trans isReady) Bool.false_ne_true
  · exact later

theorem mem_eraseIdx {l : List ℕ} (nodup : l.Nodup) (found : l[k]? = some id) {other : ℕ} :
    other ∈ l.eraseIdx k ↔ other ∈ l ∧ other ≠ id := by
  obtain ⟨inside, rfl⟩ := List.getElem?_eq_some_iff.1 found
  rw [← nodup.erase_getElem k inside]
  exact (List.Nodup.mem_erase_iff nodup).trans and_comm

theorem Kept.remove (kept : Kept s) (running : s.cursor = some k)
    (found : s.delayed[k]? = some id) (new : c.Kept) (ready : (s.calls id).ready = true)
    (here : (s.calls id).removed = 0) (removed : c.removed ≠ 0) :
    Kept { s.set id c with
      delayed := s.delayed.eraseIdx k, delayedReady := s.delayedReady - 1 } where
  each _ mem := State.set_all Call.Kept kept.each new mem
  nodup := kept.nodup.sublist (List.eraseIdx_sublist s.delayed k)
  listed other := by
    change other ∈ s.delayed.eraseIdx k ↔ other ∈ s.created ∧
      ((s.set id c).calls other).added = true ∧ ((s.set id c).calls other).removed = 0
    rw [mem_eraseIdx kept.nodup found, kept.listed other]
    by_cases differs : other = id
    · subst differs
      rw [State.set_same]
      exact iff_of_false (fun listed => listed.2 rfl) fun listed => removed listed.2.2
    · rw [State.set_other differs]
      exact and_iff_left differs
  counted := by
    have mem := ((kept.listed id).1 (List.mem_of_getElem? found)).1
    have less : State.readyCalls { s.set id c with
        delayed := s.delayed.eraseIdx k, delayedReady := s.delayedReady - 1 } =
        s.readyCalls.erase id := by
      ext other
      rw [Finset.mem_erase, State.mem_readyCalls, State.mem_readyCalls]
      change other ∈ s.created ∧ ((s.set id c).calls other).ready = true ∧
        ((s.set id c).calls other).removed = 0 ↔ _
      by_cases differs : other = id
      · subst differs
        rw [State.set_same]
        exact iff_of_false (fun stays => removed stays.2.2) fun stays => stays.1 rfl
      · rw [State.set_other differs]
        exact (and_iff_right differs).symm
    rw [less, Finset.card_erase_of_mem (State.mem_readyCalls.2 ⟨mem, ready, here⟩)]
    exact congrArg (· - 1) kept.counted
  ahead other due := by
    obtain ⟨mem, waits⟩ := kept.ahead other due
    refine ⟨mem, fun stays => ?_⟩
    change ((s.set id c).calls other).removed = 0 at stays
    by_cases differs : other = id
    · subst differs
      rw [State.set_same] at stays
      exact absurd stays removed
    · rw [State.set_other differs] at stays
      obtain ⟨isReady, k', running', later⟩ := waits stays
      refine ⟨?_, k, running, ?_⟩
      · change ((s.set id c).calls other).ready = true
        rw [State.set_other differs]
        exact isReady
      · change other ∈ (s.delayed.eraseIdx k).drop k
        rw [← Option.some.inj (running.symm.trans running'), split_found found] at later
        rw [List.eraseIdx_eq_take_drop_succ, List.drop_append]
        refine List.mem_append_right _ ?_
        have inside := (List.getElem?_eq_some_iff.1 found).1
        rw [List.length_take, Nat.min_eq_left inside.le, Nat.sub_self]
        exact (List.mem_cons.1 later).resolve_left differs

end Passes

section Steps

variable {s : State} {id k now : ℕ} {c : Call} {unifies : Bool}

theorem State.turn_expired (expired : (s.calls id).hasExpired now = true) :
    s.turn k id now unifies = s.set id ((s.calls id).expire unifies) :=
  if_pos expired

theorem State.turn_ready (current : ¬ (s.calls id).hasExpired now = true)
    (ready : (s.calls id).ready = true) : s.turn k id now unifies =
      { s.set id ((s.calls id).finish unifies) with
        delayed := s.delayed.eraseIdx k, delayedReady := s.delayedReady - 1 } :=
  (if_neg current).trans (if_pos ready)

theorem State.turn_idle (current : ¬ (s.calls id).hasExpired now = true)
    (idle : ¬ (s.calls id).ready = true) : s.turn k id now unifies =
      { s.lowerTimeout (s.calls id).timeoutAt with cursor := some (k + 1) } :=
  (if_neg current).trans (if_neg idle)

theorem Call.finish_removed (c : Call) (unifies : Bool) :
    (c.finish unifies).removed = c.removed + 1 := by
  cases failed : c.failed with
  | true => rw [finish_failed failed]
  | false => rw [finish_ok failed]

theorem Kept.turn (kept : Kept s) (running : s.cursor = some k) (found : s.delayed[k]? = some id) :
    Kept (s.turn k id now unifies) := by
  obtain ⟨mem, added, here⟩ := (kept.listed id).1 (List.mem_of_getElem? found)
  by_cases expired : (s.calls id).hasExpired now = true
  · have eq := (s.calls id).expire_eq unifies
    rw [State.turn_expired expired]
    refine kept.set ((kept.each id mem).expire here) ?_ ?_ ?_
    · rw [eq]
    · rw [eq]
    · rw [eq]
  · by_cases ready : (s.calls id).ready = true
    · rw [State.turn_ready expired ready]
      refine kept.remove running found ((kept.each id mem).finish here ready added) ready here ?_
      rw [Call.finish_removed]
      exact Nat.succ_ne_zero _
    · rw [State.turn_idle expired ready]
      exact kept.skip running found (Bool.eq_false_iff.2 ready) _

theorem State.set_right_iff (right : AllRight s) (mem : id ∈ s.created) :
    AllRight (s.set id c) ↔ c.Right := by
  constructor
  · intro after
    have new := after id mem
    rwa [State.set_same] at new
  · exact fun new _ mem => State.set_all Call.Right right new mem

theorem Kept.turn_right_iff (kept : Kept s) (right : AllRight s)
    (found : s.delayed[k]? = some id) :
    AllRight (s.turn k id now unifies) ↔ (s.calls id).Meets now unifies := by
  obtain ⟨mem, -, here⟩ := (kept.listed id).1 (List.mem_of_getElem? found)
  unfold Call.Meets
  by_cases expired : (s.calls id).hasExpired now = true
  · rw [State.turn_expired expired, if_pos expired]
    exact (State.set_right_iff right mem).trans
      (Call.expire_right_iff (kept.each id mem) (right id mem) here expired)
  · rw [if_neg expired]
    by_cases ready : (s.calls id).ready = true
    · rw [State.turn_ready expired ready, if_pos ready]
      exact (State.set_right_iff right mem).trans
        (Call.finish_right_iff (kept.each id mem) (right id mem) here)
    · rw [State.turn_idle expired ready, if_neg ready]
      exact iff_of_true (right.lowerTimeout _) trivial

theorem right_step (kept : Kept s) (right : AllRight s) (e : Event)
    (other : ∀ now unifies, e ≠ .turn now unifies) : Kept (s.step e) ∧ AllRight (s.step e) := by
  have put {id : ℕ} {c : Call} (new : c.Right) : AllRight (s.set id c) :=
    fun _ mem => State.set_all Call.Right right new mem
  have both := And.intro kept right
  cases e with
  | create id remote timeoutAt =>
    dsimp only [State.step]
    split_ifs with known
    · exact both
    · exact ⟨kept.create known Call.kept_new rfl rfl, right.create Call.right_new⟩
  | add id =>
    dsimp only [State.step]
    split_ifs with can
    · obtain ⟨mem, unlisted⟩ := can
      refine ⟨kept.addDelayed mem unlisted, AllRight.lowerTimeout ?_ _⟩
      exact put (right id mem).add
    · exact both
  | write id outcome =>
    dsimp only [State.step]
    split_ifs with can
    · obtain ⟨mem, local_, -⟩ := can
      refine ⟨kept.set ((kept.each id mem).write local_) ?_ ?_ ?_, put (right id mem).write⟩
      · cases outcome <;> rfl
      · cases outcome <;> rfl
      · cases outcome <;> rfl
    · exact both
  | report id =>
    dsimp only [State.step]
    split_ifs with can
    · obtain ⟨mem, local_, -, running⟩ := can
      have idle := (kept.each id mem).not_ready running fun remote =>
        absurd (local_.symm.trans remote) Bool.false_ne_true
      exact ⟨kept.setReady mem (kept.each id mem).report idle.1 idle.2 rfl rfl,
        put (right id mem).report⟩
    · exact both
  | receive id outcome =>
    dsimp only [State.step]
    split_ifs with can linked
    · obtain ⟨mem, remote, waits, running⟩ := can
      have idle := (kept.each id mem).not_ready running fun _ => waits
      refine ⟨kept.setReady mem ((kept.each id mem).receive remote) idle.1 idle.2 ?_ ?_,
        put ((right id mem).receive (kept.each id mem) waits)⟩
      · cases outcome <;> rfl
      · cases outcome <;> rfl
    · obtain ⟨mem, -⟩ := can
      exact ⟨kept.set (kept.each id mem).lose rfl rfl rfl, put (right id mem).lose⟩
    · exact both
  | drop id =>
    dsimp only [State.step]
    split_ifs with can linked
    · obtain ⟨mem, remote, waits, running⟩ := can
      have idle := (kept.each id mem).not_ready running fun _ => waits
      exact ⟨kept.setReady mem (kept.each id mem).report idle.1 idle.2 rfl rfl,
        put (right id mem).report⟩
    · obtain ⟨mem, -⟩ := can
      exact ⟨kept.set (kept.each id mem).forget rfl rfl rfl,
        put ((right id mem).forget (Bool.eq_false_iff.2 linked))⟩
    · exact both
  | wait id =>
    dsimp only [State.step]
    split_ifs with can linked
    · -- a call that is removed has no task
      obtain ⟨mem, remote, -, -, removed⟩ := can
      have unlinked := ((kept.each id mem).gone removed).2.2.2 remote
      exact absurd (unlinked.symm.trans linked) Bool.false_ne_true
    · obtain ⟨mem, -⟩ := can
      exact ⟨kept.set (kept.each id mem).forget rfl rfl rfl,
        put ((right id mem).forget (Bool.eq_false_iff.2 linked))⟩
    · exact both
  | beginPass =>
    dsimp only [State.step]
    split_ifs
    · exact ⟨kept.beginPass, right⟩
    · exact both
  | turn now unifies => exact absurd rfl (other now unifies)

theorem kept_step (kept : Kept s) (right : AllRight s) (e : Event) : Kept (s.step e) := by
  cases e with
  | turn now unifies =>
    dsimp only [State.step]
    cases running : s.cursor with
    | none => exact kept
    | some k =>
      cases found : s.delayed[k]? with
      | none =>
        dsimp only
        rw [found]
        exact kept.endPass running found
      | some id =>
        dsimp only
        rw [found]
        exact kept.turn running found
  | _ => exact (right_step kept right _ fun _ _ => Event.noConfusion).1

theorem right_step_iff (kept : Kept s) (right : AllRight s) (e : Event) :
    AllRight (s.step e) ↔ Meets s e := by
  cases e with
  | turn now unifies =>
    dsimp only [State.step, Meets]
    cases running : s.cursor with
    | none => exact iff_of_true right (by simp)
    | some k =>
      cases found : s.delayed[k]? with
      | none =>
        dsimp only
        rw [found]
        exact iff_of_true right (by simp [found])
      | some id =>
        dsimp only
        rw [found]
        refine (kept.turn_right_iff right found).trans ?_
        simp [found]
  | _ => exact iff_of_true (right_step kept right _ fun _ _ => Event.noConfusion).2 trivial

theorem kept_init : Kept State.init where
  each _ mem := absurd mem (Finset.notMem_empty _)
  nodup := List.nodup_nil
  listed _ := iff_of_false List.not_mem_nil fun listed => Finset.notMem_empty _ listed.1
  counted := rfl
  ahead _ mem := absurd mem (Finset.notMem_empty _)

theorem right_init : AllRight State.init := fun _ mem => absurd mem (Finset.notMem_empty _)

end Steps

section Runs

end Runs

end Epilog.Interp.DelayedCalls
