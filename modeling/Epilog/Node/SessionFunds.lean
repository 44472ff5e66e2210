/- Module: Epilog/Node/SessionFunds
   source: src/src/node/session.cpp, src/src/node/session.hpp, src/src/interp/interpreter.cpp
     (execute, next, cont, stop, new_instance, delete_instance),
     src/src/interp/interpreter_base.hpp (add_accumulated_cost), src/src/node/local_interpreter.cpp
     (heartbeat)
   digest: The funds of a session and the cost of its queries. -/

import Epilog.Lib.StepRuns
import Mathlib.Algebra.Order.Ring.Nat

set_option autoImplicit false

namespace Epilog.Node.SessionFunds

open Epilog.Lib.StepRuns

section Model

/-- `std::numeric_limits<uint64_t>::max()`, which stands for no limit -/
def UINT64_MAX : ℕ := 2 ^ 64 - 1

/-- The settings of the node, each an `uint64_t` -/
structure Config where
  initialFunds : ℕ
  maximumFunds : ℕ
  newFundsPerSecond : ℕ
  timerIntervalMicroseconds : ℕ
  initial_le : initialFunds ≤ UINT64_MAX
  maximum_le : maximumFunds ≤ UINT64_MAX
  perSecond_le : newFundsPerSecond ≤ UINT64_MAX
  interval_le : timerIntervalMicroseconds ≤ UINT64_MAX

/-- `in_session_state` with what its interpreter keeps of costs -/
structure Session where
  availableFunds : ℕ
  heartbeat : ℕ
  heartbeatCount : ℕ
  accumulatedCost : ℕ
  maximumCost : ℕ
  /-- `old_accumulated_cost` of the instances, the last one in front -/
  instances : List ℕ
  hasMore : Bool
  /-- All the cost that was performed; the code does not count it. -/
  performed : ℕ
  /-- The funds before and after each addition -/
  additions : List (ℕ × ℕ)

/-- What a query does that matters here -/
inductive Work
  | cost (n : ℕ)
  /-- `heartbeat/0`, with the two times it reads -/
  | heartbeat (t0 t1 : ℕ)

/-- How the work of a query ends, if the funds do not run out before -/
inductive Ending
  | returns (hasMore : Bool)
  | throws

inductive Call
  | execute (silent : Bool) (work : List Work) (ending : Ending)
  /-- Exceptions of `fail` do not reset the interpreter, those of `cont` do. -/
  | next (work : List Work) (ending : Ending) (inCont : Bool)
  | heartbeat (t0 t1 : ℕ)

variable (cfg : Config)

def addFunds (availableFunds dfunds : ℕ) : ℕ :=
  let maxFunds := cfg.maximumFunds
  if maxFunds = UINT64_MAX then maxFunds
  else
    let limit := (maxFunds + 2 ^ 64 - dfunds) % 2 ^ 64
    if limit ≤ availableFunds then maxFunds else (availableFunds + dfunds) % 2 ^ 64

/-- The funds that `heartbeat` adds -/
def newFunds (s : Session) (t0 : ℕ) : ℕ :=
  let dt := (t0 + 2 ^ 64 - s.heartbeat) % 2 ^ 64
  let maxDt := 2 * cfg.timerIntervalMicroseconds % 2 ^ 64
  let dt := if maxDt < dt then maxDt else dt
  let sec := dt / 1000000
  if cfg.newFundsPerSecond ≠ UINT64_MAX then cfg.newFundsPerSecond * sec % 2 ^ 64 else UINT64_MAX

namespace Session

def beat (s : Session) (t0 t1 : ℕ) : Session :=
  let availableFunds := addFunds cfg s.availableFunds (newFunds cfg s t0)
  { s with
    availableFunds
    heartbeat := t1
    heartbeatCount := s.heartbeatCount + 1
    additions := s.additions ++ [(s.availableFunds, availableFunds)] }

/-- The work of a query, until the funds run out: `add_accumulated_cost` throws then. -/
def perform (s : Session) : List Work → Session × Bool
  | [] => (s, true)
  | .cost n :: work =>
    let s := { s with
      accumulatedCost := (s.accumulatedCost + n) % 2 ^ 64
      performed := s.performed + n }
    if s.maximumCost ≤ s.accumulatedCost then (s, false) else s.perform work
  | .heartbeat t0 t1 :: work => (s.beat cfg t0 t1).perform work

/-- `delete_instance`; the query around it has more solutions. -/
def deleteInstance (s : Session) : Session :=
  match s.instances with
  | [] => s
  | old :: instances => { s with accumulatedCost := old, instances, hasMore := true }

/-- The loop at the start of `execute` and `next` -/
def deleteInstances (s : Session) : Session := if s.hasMore then s else s.deleteInstance

/-- `reset` of the interpreter: all instances are deleted. -/
def reset (s : Session) : Session :=
  { s with
    accumulatedCost := s.instances.getLastD s.accumulatedCost
    instances := []
    hasMore := false }

def charge (s : Session) : Session :=
  { s with
    availableFunds :=
      if s.availableFunds < s.accumulatedCost then 0 else s.availableFunds - s.accumulatedCost }

/-- `interpreter::execute` up to the work of the query: while there are more solutions of another
query, this one gets an instance of its own. -/
def startExecute (s : Session) : Session :=
  let s := { s with maximumCost := s.availableFunds }.deleteInstances
  let s := if s.hasMore then { s with instances := s.accumulatedCost :: s.instances } else s
  { s with accumulatedCost := 0 }

/-- The ways in which the work of a query ends: the funds have run out, it throws another exception,
or it returns. -/
def finish (ruined failed : Session → Session) (charged : Bool → Session → Session) :
    Session × Bool → Ending → Session
  | (s, false), _ => ruined s
  | (s, true), .throws => failed s
  | (s, true), .returns hasMore => charged hasMore s

def execute (s : Session) (silent : Bool) (work : List Work) (ending : Ending) : Session :=
  let start := s.startExecute
  finish (fun s => { s.reset with availableFunds := 0 }) reset
    (fun hasMore s =>
      let s := { s with hasMore }
      -- `stop` of a silent query with an instance of its own
      (if silent ∧ start.hasMore then s.deleteInstance else s).charge)
    (start.perform cfg work) ending

/-- `interpreter::next` up to the work of the query -/
def startNext (s : Session) : Session :=
  { { s with maximumCost := s.availableFunds }.deleteInstances with accumulatedCost := 0 }

def next (s : Session) (work : List Work) (ending : Ending) (inCont : Bool) : Session :=
  finish (fun s => { (if inCont then s.reset else s) with availableFunds := 0 })
    (fun s => if inCont then s.reset else s) (fun hasMore s => { s with hasMore }.charge)
    (s.startNext.perform cfg work) ending

def call (s : Session) : Call → Session
  | .execute silent work ending => s.execute cfg silent work ending
  | .next work ending inCont => s.next cfg work ending inCont
  | .heartbeat t0 t1 => s.beat cfg t0 t1

end Session

/-- A session of `new_in_session`; its first heartbeat is not set. -/
def newInSession (heartbeat : ℕ) : Session where
  availableFunds := cfg.initialFunds
  heartbeat := heartbeat
  heartbeatCount := 0
  accumulatedCost := 0
  maximumCost := UINT64_MAX
  instances := []
  hasMore := false
  performed := 0
  additions := []

end Model

section Accounting

variable (cfg : Config)

def added (s : Session) : ℕ := (s.additions.map fun p => p.2 - p.1).sum

/-- An addition does not take funds away and stays below the maximum. -/
def Kept (additions : List (ℕ × ℕ)) : Prop :=
  ∀ p ∈ additions, p.1 ≤ p.2 ∧ p.2 ≤ cfg.maximumFunds

/-- The funds pay for all work, once. -/
structure Accounted (s : Session) : Prop where
  bounded : s.availableFunds ≤ cfg.maximumFunds
  kept : Kept cfg s.additions
  once : s.availableFunds + s.performed = cfg.initialFunds + added s
  covered : s.performed ≤ cfg.initialFunds + added s

def costOf (work : List Work) : ℕ :=
  (work.map fun w => match w with
    | .cost n => n
    | .heartbeat _ _ => 0).sum

/-- The new funds do not exceed the maximum, or there is none. -/
def GoodBeat (s : Session) (t0 : ℕ) : Prop :=
  cfg.maximumFunds = UINT64_MAX ∨ newFunds cfg s t0 ≤ cfg.maximumFunds

/-- The heartbeats of a query, until its funds run out -/
def GoodBeats (s : Session) : List Work → Prop
  | [] => True
  | .cost n :: work =>
    let s := { s with
      accumulatedCost := (s.accumulatedCost + n) % 2 ^ 64
      performed := s.performed + n }
    s.maximumCost ≤ s.accumulatedCost ∨ GoodBeats s work
  | .heartbeat t0 t1 :: work => GoodBeat cfg s t0 ∧ GoodBeats (s.beat cfg t0 t1) work

/-- A query that runs out of funds has used them to the last unit, one that ends with another
exception has cost nothing, and one whose cost is looked up in the instance around it has cost just
what that says. -/
def GoodEnd (start : Session) (work : List Work) (ending : Ending) (inInstance : Bool) : Prop :=
  match start.perform cfg work, ending with
  | (s, false), _ => s.performed - start.performed = s.availableFunds
  | (_, true), .throws => costOf work = 0
  | (s, true), .returns _ =>
    if inInstance then costOf work = min (start.instances.headD 0) s.availableFunds
    else costOf work < 2 ^ 64

def Meets (s : Session) : Call → Prop
  | .execute silent work ending =>
    GoodBeats cfg s.startExecute work ∧
      GoodEnd cfg s.startExecute work ending (silent && s.startExecute.hasMore)
  | .next work ending _ => GoodBeats cfg s.startNext work ∧ GoodEnd cfg s.startNext work ending false
  | .heartbeat t0 _ => GoodBeat cfg s t0

variable {cfg} {s s' : Session} {work : List Work}

theorem newFunds_le (s : Session) (t0 : ℕ) : newFunds cfg s t0 ≤ UINT64_MAX := by
  unfold newFunds UINT64_MAX
  dsimp only
  split_ifs <;> omega

theorem addFunds_kept {funds dfunds : ℕ} (bounded : funds ≤ cfg.maximumFunds)
    (small : dfunds ≤ UINT64_MAX) :
    (funds ≤ addFunds cfg funds dfunds ∧ addFunds cfg funds dfunds ≤ cfg.maximumFunds) ↔
      cfg.maximumFunds = UINT64_MAX ∨ dfunds ≤ cfg.maximumFunds := by
  have most := cfg.maximum_le
  unfold addFunds
  unfold UINT64_MAX at *
  dsimp only
  split_ifs with unlimited full
  · omega
  · omega
  · omega

theorem kept_append {additions : List (ℕ × ℕ)} {p : ℕ × ℕ} :
    Kept cfg (additions ++ [p]) ↔ Kept cfg additions ∧ p.1 ≤ p.2 ∧ p.2 ≤ cfg.maximumFunds := by
  unfold Kept
  rw [List.forall_mem_append, List.forall_mem_singleton]

variable (cfg) in
/-- Work is being done for which the funds have not been charged yet. -/
structure Pending (start s : Session) (spent : ℕ) : Prop where
  bounded : s.availableFunds ≤ cfg.maximumFunds
  kept : Kept cfg s.additions
  once : s.availableFunds + s.performed = cfg.initialFunds + added s + spent
  performed : s.performed = start.performed + spent
  enough : s.maximumCost ≤ s.availableFunds
  instances : s.instances = start.instances
  accumulated : s.accumulatedCost = spent % 2 ^ 64

variable {start : Session} {spent : ℕ}

theorem added_beat (s : Session) (t0 t1 : ℕ) : added (s.beat cfg t0 t1) =
    added s + (addFunds cfg s.availableFunds (newFunds cfg s t0) - s.availableFunds) := by
  unfold added Session.beat
  rw [List.map_append, List.sum_append, List.map_singleton, List.sum_singleton]

theorem kept_beat (bounded : s.availableFunds ≤ cfg.maximumFunds) (kept : Kept cfg s.additions)
    (t0 t1 : ℕ) : Kept cfg (s.beat cfg t0 t1).additions ↔ GoodBeat cfg s t0 :=
  kept_append.trans
    ((and_iff_right kept).trans (addFunds_kept bounded (newFunds_le s t0)))

theorem Pending.beat (pending : Pending cfg start s spent) {t0 : ℕ} (t1 : ℕ)
    (good : GoodBeat cfg s t0) : Pending cfg start (s.beat cfg t0 t1) spent := by
  obtain ⟨more, le⟩ := (addFunds_kept pending.bounded (newFunds_le s t0)).2 good
  have once := pending.once
  refine ⟨le, (kept_beat pending.bounded pending.kept t0 t1).2 good, ?_, pending.performed,
    Nat.le_trans pending.enough more, pending.instances, pending.accumulated⟩
  rw [added_beat]
  change addFunds cfg s.availableFunds (newFunds cfg s t0) + s.performed = _
  omega

theorem Pending.cost (pending : Pending cfg start s spent) (n : ℕ) :
    Pending cfg start { s with
      accumulatedCost := (s.accumulatedCost + n) % 2 ^ 64
      performed := s.performed + n } (spent + n) := by
  obtain ⟨bounded, kept, once, performed, enough, instances, accumulated⟩ := pending
  refine ⟨bounded, kept, ?_, ?_, enough, instances, ?_⟩
  · change s.availableFunds + (s.performed + n) = cfg.initialFunds + added s + (spent + n)
    omega
  · change s.performed + n = _
    omega
  · change (s.accumulatedCost + n) % 2 ^ 64 = _
    rw [accumulated, Nat.mod_add_mod]

theorem perform_kept (s : Session) (work : List Work) :
    Kept cfg (s.perform cfg work).1.additions → Kept cfg s.additions := by
  induction work generalizing s with
  | nil => exact id
  | cons w work ih =>
    cases w with
    | cost n =>
      unfold Session.perform
      dsimp only
      split_ifs
      · exact id
      · exact ih _
    | heartbeat t0 t1 => exact fun kept => (kept_append.1 (ih _ kept)).1

theorem Pending.perform {s' : Session} {ok : Bool} (pending : Pending cfg start s spent)
    (low : spent < 2 ^ 64 → spent ≤ s.maximumCost) (ran : s.perform cfg work = (s', ok)) :
    (Kept cfg s'.additions ↔ GoodBeats cfg s work) ∧
      (GoodBeats cfg s work → ∃ total, Pending cfg start s' total ∧
        (ok = true → total = spent + costOf work ∧ (total < 2 ^ 64 → total ≤ s'.maximumCost))) := by
  induction work generalizing s spent with
  | nil =>
    obtain ⟨rfl, rfl⟩ := Prod.mk.inj ran
    exact ⟨iff_of_true pending.kept trivial, fun _ => ⟨spent, pending, fun _ => ⟨rfl, low⟩⟩⟩
  | cons w work ih =>
    cases w with
    | cost n =>
      unfold Session.perform at ran
      unfold GoodBeats
      dsimp only at ran ⊢
      have after := pending.cost n
      split_ifs at ran with out
      · obtain ⟨rfl, rfl⟩ := Prod.mk.inj ran
        exact ⟨iff_of_true pending.kept (.inl out), fun _ => ⟨spent + n, after, nofun⟩⟩
      · rw [or_iff_right out]
        have low' (small : spent + n < 2 ^ 64) : spent + n ≤ s.maximumCost := by
          -- without overflow, the accumulated cost is the one that was performed
          have accumulated := after.accumulated
          rw [Nat.mod_eq_of_lt small] at accumulated
          dsimp only at accumulated
          omega
        obtain ⟨kept, done⟩ := ih after low' ran
        refine ⟨kept, fun good => ?_⟩
        obtain ⟨total, pending', whole⟩ := done good
        refine ⟨total, pending', fun ok => ?_⟩
        obtain ⟨sum, le⟩ := whole ok
        refine ⟨?_, le⟩
        rw [sum, Nat.add_assoc]
        rfl
    | heartbeat t0 t1 =>
      change (s.beat cfg t0 t1).perform cfg work = (s', ok) at ran
      change (_ ↔ GoodBeat cfg s t0 ∧ GoodBeats cfg (s.beat cfg t0 t1) work) ∧
        (GoodBeat cfg s t0 ∧ GoodBeats cfg (s.beat cfg t0 t1) work → _)
      by_cases good : GoodBeat cfg s t0
      · rw [and_iff_right good]
        obtain ⟨kept, done⟩ := ih (pending.beat t1 good) low ran
        refine ⟨kept, fun rest => ?_⟩
        obtain ⟨total, pending', whole⟩ := done rest
        refine ⟨total, pending', fun ok => ?_⟩
        obtain ⟨sum, le⟩ := whole ok
        refine ⟨?_, le⟩
        rw [sum]
        exact congrArg (spent + ·) (Nat.zero_add _).symm
      · refine ⟨iff_of_false (fun kept => good ?_) fun both => good both.1,
          fun both => absurd both.1 good⟩
        rw [show s' = ((s.beat cfg t0 t1).perform cfg work).1 by rw [ran]] at kept
        exact (kept_beat pending.bounded pending.kept t0 t1).1 (perform_kept _ work kept)

/-- How a query starts: nothing has been spent yet, and its limit is all the funds. -/
structure Opened (s start : Session) : Prop where
  availableFunds : start.availableFunds = s.availableFunds
  maximumCost : start.maximumCost = s.availableFunds
  accumulatedCost : start.accumulatedCost = 0
  performed : start.performed = s.performed
  additions : start.additions = s.additions

theorem opened_deleteInstances (s : Session) :
    Opened s { { s with maximumCost := s.availableFunds }.deleteInstances with
      accumulatedCost := 0 } := by
  unfold Session.deleteInstances Session.deleteInstance
  split_ifs
  · exact ⟨rfl, rfl, rfl, rfl, rfl⟩
  · cases s.instances with
    | nil => exact ⟨rfl, rfl, rfl, rfl, rfl⟩
    | cons old instances => exact ⟨rfl, rfl, rfl, rfl, rfl⟩

theorem opened_startExecute (s : Session) : Opened s s.startExecute := by
  obtain ⟨available, maximum, _, performed, additions⟩ := opened_deleteInstances s
  unfold Session.startExecute
  dsimp only
  split_ifs
  · exact ⟨available, maximum, rfl, performed, additions⟩
  · exact ⟨available, maximum, rfl, performed, additions⟩

theorem Accounted.pending (accounted : Accounted cfg s) (opened : Opened s start) :
    Pending cfg start start 0 := by
  obtain ⟨available, maximum, accumulated, performed, additions⟩ := opened
  refine ⟨?_, ?_, ?_, rfl, ?_, rfl, accumulated⟩
  · rw [available]
    exact accounted.bounded
  · rw [additions]
    exact accounted.kept
  · rw [available, performed, added, additions]
    exact accounted.once
  · exact Nat.le_of_eq (maximum.trans available.symm)

theorem Pending.accounted_iff {total : ℕ} (pending : Pending cfg start s total) {t : Session}
    (additions : t.additions = s.additions) (performed : t.performed = s.performed)
    (le : t.availableFunds ≤ s.availableFunds) :
    Accounted cfg t ↔ t.availableFunds + total = s.availableFunds := by
  have once := pending.once
  have sum : added t = added s := by rw [added, additions, added]
  constructor
  · intro accounted
    have once' := accounted.once
    omega
  · intro charged
    refine ⟨Nat.le_trans le pending.bounded, ?_, by omega, by omega⟩
    rw [additions]
    exact pending.kept

theorem not_accounted {t : Session} (additions : t.additions = s'.additions)
    (broken : ¬ Kept cfg s'.additions) : ¬ Accounted cfg t := by
  intro accounted
  rw [← additions] at broken
  exact broken accounted.kept

theorem ends_accounted {ruined failed : Session → Session} {charged : Bool → Session → Session}
    {ending : Ending} {inInstance : Bool} (accounted : Accounted cfg s) (opened : Opened s start)
    (record : ∀ hasMore s', ∀ t ∈ [charged hasMore s', failed s', ruined s'],
      t.additions = s'.additions ∧ t.performed = s'.performed)
    (funds : ∀ hasMore s', s'.instances = start.instances →
      (charged hasMore s').availableFunds = s'.availableFunds -
        (if inInstance then s'.instances.headD 0 else s'.accumulatedCost) ∧
      (failed s').availableFunds = s'.availableFunds ∧ (ruined s').availableFunds = 0) :
    Accounted cfg (Session.finish ruined failed charged (start.perform cfg work) ending) ↔
      GoodBeats cfg start work ∧ GoodEnd cfg start work ending inInstance := by
  have pending := accounted.pending opened
  unfold GoodEnd
  rcases ran : start.perform cfg work with ⟨s', ok⟩
  obtain ⟨kept, done⟩ := pending.perform (fun _ => Nat.zero_le _) ran
  by_cases good : GoodBeats cfg start work
  · rw [and_iff_right good]
    obtain ⟨total, paid, whole⟩ := done good
    cases ok with
    | false =>
      obtain ⟨additions, performed⟩ := record true s' (ruined s') (by simp)
      obtain ⟨-, -, none⟩ := funds true s' paid.instances
      change Accounted cfg (ruined s') ↔ s'.performed - start.performed = s'.availableFunds
      rw [paid.accounted_iff additions performed (by omega), none, paid.performed]
      omega
    | true =>
      obtain ⟨sum, low⟩ := whole rfl
      rw [Nat.zero_add] at sum
      cases ending with
      | throws =>
        obtain ⟨additions, performed⟩ := record true s' (failed s') (by simp)
        obtain ⟨-, all, -⟩ := funds true s' paid.instances
        change Accounted cfg (failed s') ↔ costOf work = 0
        rw [paid.accounted_iff additions performed (by omega), all, sum]
        omega
      | returns hasMore =>
        obtain ⟨additions, performed⟩ := record hasMore s' (charged hasMore s') (by simp)
        obtain ⟨rest, -, -⟩ := funds hasMore s' paid.instances
        change Accounted cfg (charged hasMore s') ↔ if inInstance then
          costOf work = min (start.instances.headD 0) s'.availableFunds else costOf work < 2 ^ 64
        rw [paid.accounted_iff additions performed (by omega), rest, paid.instances,
          paid.accumulated, ← sum]
        have enough := paid.enough
        split_ifs with restored
        · omega
        · have most := cfg.maximum_le
          have bounded := paid.bounded
          unfold UINT64_MAX at most
          omega
  · rw [← kept] at good
    refine iff_of_false ?_ fun both => good (kept.2 both.1)
    cases ok with
    | false => exact not_accounted (record true s' (ruined s') (by simp)).1 good
    | true =>
      cases ending with
      | throws => exact not_accounted (record true s' (failed s') (by simp)).1 good
      | returns hasMore => exact not_accounted (record hasMore s' (charged hasMore s') (by simp)).1 good

theorem head_startExecute (more : s.startExecute.hasMore = true) : s.startExecute.instances =
    s.startExecute.instances.headD 0 :: s.startExecute.instances.tail := by
  unfold Session.startExecute at more ⊢
  dsimp only at more ⊢
  split_ifs at more ⊢ with own
  · rfl
  · exact absurd more own

theorem charge_availableFunds (s : Session) :
    s.charge.availableFunds = s.availableFunds - s.accumulatedCost := by
  unfold Session.charge
  dsimp only
  split_ifs
  · omega
  · rfl

theorem call_accounted (s : Session) (c : Call) (accounted : Accounted cfg s) :
    Accounted cfg (s.call cfg c) ↔ Meets cfg s c := by
  cases c with
  | heartbeat t0 t1 =>
    refine ⟨fun after => (kept_beat accounted.bounded accounted.kept t0 t1).1 after.kept,
      fun good => ?_⟩
    obtain ⟨more, le⟩ := (addFunds_kept accounted.bounded (newFunds_le s t0)).2 good
    have once : addFunds cfg s.availableFunds (newFunds cfg s t0) + s.performed =
        cfg.initialFunds + added (s.beat cfg t0 t1) := by
      have once := accounted.once
      rw [added_beat]
      omega
    refine ⟨le, (kept_beat accounted.bounded accounted.kept t0 t1).2 good, once, ?_⟩
    change s.performed ≤ cfg.initialFunds + added (s.beat cfg t0 t1)
    omega
  | next work ending inCont =>
    apply ends_accounted accounted (opened_deleteInstances s)
    · intro hasMore s' t mem
      simp only [List.mem_cons, List.not_mem_nil, or_false] at mem
      rcases mem with rfl | rfl | rfl
      · exact ⟨rfl, rfl⟩
      · cases inCont <;> exact ⟨rfl, rfl⟩
      · cases inCont <;> exact ⟨rfl, rfl⟩
    · intro hasMore s' _
      refine ⟨charge_availableFunds _, ?_, rfl⟩
      cases inCont <;> rfl
  | execute silent work ending =>
    apply ends_accounted accounted (opened_startExecute s)
    · intro hasMore s' t mem
      simp only [List.mem_cons, List.not_mem_nil, or_false] at mem
      rcases mem with rfl | rfl | rfl
      · split_ifs
        · unfold Session.deleteInstance
          cases s'.instances <;> exact ⟨rfl, rfl⟩
        · exact ⟨rfl, rfl⟩
      · exact ⟨rfl, rfl⟩
      · exact ⟨rfl, rfl⟩
    · intro hasMore s' same
      refine ⟨?_, rfl, rfl⟩
      rw [charge_availableFunds]
      by_cases own : silent = true ∧ s.startExecute.hasMore = true
      · rw [if_pos own, if_pos (by rw [own.1, own.2]; rfl)]
        have last : s'.instances = (s.startExecute.instances.headD 0) :: s'.instances.tail := by
          rw [same]
          exact head_startExecute own.2
        unfold Session.deleteInstance
        rw [last]
        rfl
      · rw [if_neg own, if_neg (by rwa [Bool.and_eq_true])]

/-- The settings of a new node -/
def defaultConfig : Config where
  initialFunds := 10000
  maximumFunds := 10000
  newFundsPerSecond := 100
  timerIntervalMicroseconds := 10000000
  initial_le := by decide
  maximum_le := by decide
  perSecond_le := by decide
  interval_le := by decide

end Accounting

end Epilog.Node.SessionFunds
