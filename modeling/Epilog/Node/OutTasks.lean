/- Module: Epilog/Node/OutTasks
   source: src/src/node/connection.cpp (out_connection), task.cpp, task_*.cpp, address_*.cpp
   digest: The tasks of an outgoing connection: their queue, and who gets the reply to a request. -/

import Epilog.Lib.StepRuns
import Mathlib.Data.List.Perm.Basic
import Mathlib.Data.List.Sort

set_option autoImplicit false

namespace Epilog.Node.OutTasks

open Epilog.Lib.StepRuns

section Tasks

/-- `out_task::state_t` -/
inductive TaskState
  | idle | send | received | wait | killed
  deriving DecidableEq

/-- `out_task::type_t` -/
inductive Kind
  | addressDownloader | addressVerifier | initConnection | heartbeat | info | publish | reset
  | executeQuery
  deriving DecidableEq

/-- The states that a task gives itself -/
inductive Leave
  | idle | wait | killed
  deriving DecidableEq

def Leave.state : Leave → TaskState
  | .idle => .idle
  | .wait => .wait
  | .killed => .killed

/-- What `process` of a task does with its connection -/
inductive Act
  /-- A new task is scheduled. -/
  | spawn (k : Kind)
  | reschedule (t : ℕ)
  | rescheduleLast
  | setState (l : Leave)
  | setTerm
  /-- The connection gets the id of its session. -/
  | setId
  | setConnected
  | setSentName
  | stop
  deriving DecidableEq

/-- What a task makes of the reply to its request -/
inductive Reply
  /-- The task finds an error in it. -/
  | bad
  /-- A session with an id, but with a name that is no atom -/
  | badName
  | good
  deriving DecidableEq

/-- Whether `task_address_downloader` comes too early, and when it is due then -/
inductive Early
  | no | last | until (t : ℕ)
  deriving DecidableEq

/-- What `process` finds outside the connection -/
structure Found where
  reply : Reply
  early : Early
  useHeartbeat : Bool
  /-- When the next heartbeat is due -/
  next : ℕ
  deriving DecidableEq

/-- `out_task::error`, which stops the connection -/
def error : List Act := [.setState .killed, .stop]

/-- The start of the tasks that need a connection -/
def ifConnected (isConnected : Bool) (acts : List Act) : List Act :=
  if isConnected then acts else [.rescheduleLast, .setState .idle]

/-- `task_execute_query::process` -/
def executeQuery (isConnected : Bool) (state : TaskState) : List Act :=
  ifConnected isConnected <| match state with
    | .send => [.setTerm]
    | .received => [.setState .wait]
    | _ => []

/-- `task_heartbeat::process` -/
def heartbeat (found : Found) : TaskState → List Act
  | .send => [.setTerm]
  | .received => [.setState .idle, .reschedule found.next]
  | _ => []

/-- `task_info::process` -/
def info (found : Found) : TaskState → List Act
  | .send => [.setTerm]
  | .received => if found.reply = .bad then error else []
  | _ => []

/-- `task_publish::process` -/
def publish : TaskState → List Act
  | .send => [.setTerm]
  | _ => []

/-- `task_init_connection::process` -/
def initConnection (idEmpty isConnected sentMyName : Bool) (found : Found) :
    TaskState → List Act
  | .send =>
    if idEmpty || !isConnected then [.setTerm]
    else if !sentMyName then [.setSentName, .setTerm]
    else []
  | .received =>
    if found.reply = .bad then error
    else if idEmpty then
      -- The task goes on after the error about the name.
      (if found.reply = .badName then error else []) ++ [.setId, .reschedule 0]
    else .setConnected ::
      if found.useHeartbeat then [.spawn .info, .spawn .heartbeat, .spawn .publish] else []
  | _ => []

/-- `task_reset::process`, which the connection does not call for an idle task -/
def reset (found : Found) : TaskState → List Act
  | .send => [.setTerm]
  | .received => if found.reply = .bad then error else [.setState .idle]
  | _ => []

/-- `task_address_downloader::process` -/
def addressDownloader (isConnected : Bool) (found : Found) (state : TaskState) : List Act :=
  ifConnected isConnected <| match found.early with
    | .last => [.rescheduleLast, .setState .idle]
    | .until t => [.reschedule t, .setState .idle]
    | .no => match state with
      | .send => [.setTerm]
      | .received => if found.reply = .bad then error else []
      | _ => []

/-- `task_address_verifier::process`, which stops its connection at the end -/
def addressVerifier (isConnected : Bool) (found : Found) (state : TaskState) : List Act :=
  ifConnected isConnected <| match state with
    | .send => [.setTerm]
    | .received => if found.reply = .bad then error else [.stop]
    | _ => []

end Tasks

section Model

structure Task where
  kind : Kind
  state : TaskState
  when : ℕ
  /-- The term to send is not `term()`. -/
  hasTerm : Bool
  deleted : Bool

/-- What `std::priority_queue` puts on top when the top is popped: one that is due first. -/
structure Heap where
  arrange : (ℕ → ℕ) → List ℕ → List ℕ
  perm : ∀ when l, (arrange when l).Perm l
  first : ∀ when l i, (arrange when l).head? = some i → ∀ j ∈ l, when i ≤ when j

/-- `connection::state`; a connection is busy from a request to its reply. -/
inductive Conn
  | idle | busy | received | closed
  deriving DecidableEq

/-- A request that has been sent, and the tasks that have processed a reply to it -/
structure Request where
  task : ℕ
  answered : List ℕ

structure State where
  tasks : ℕ → Task
  created : ℕ
  /-- `work_`, with its top in front -/
  work : List ℕ
  /-- `waiting_tasks_` of the node, as far as this connection goes -/
  waiting : List ℕ
  lastInWork : ℕ
  conn : Conn
  stopped : Bool
  idEmpty : Bool
  initInProgress : Bool
  isConnected : Bool
  sentMyName : Bool
  /-- The newest first -/
  requests : List Request

namespace State

variable (heap : Heap)

def when (s : State) (i : ℕ) : ℕ := (s.tasks i).when

def modTask (s : State) (i : ℕ) (f : Task → Task) : State :=
  { s with tasks := Function.update s.tasks i (f (s.tasks i)) }

/-- The use of a task that has been deleted is undefined. -/
def task (s : State) (i : ℕ) : Option Task := some (s.tasks i) |>.filter (!·.deleted)

def delete (s : State) (i : ℕ) : Option State := do
  let _ ← s.task i
  return s.modTask i fun t => { t with deleted := true }

def pop (s : State) : State := { s with work := heap.arrange s.when s.work.tail }

/-- `work_.push(task)`: the top stays unless the new one is due before it. -/
def push (s : State) (i : ℕ) : State :=
  { s with
    work := match s.work with
      | [] => [i]
      | top :: rest => if s.when i < s.when top then i :: top :: rest else top :: i :: rest }

/-- The due time that leaves the item currently processed alone -/
def protect (s : State) (i t : ℕ) : Option ℕ :=
  match s.work with
  | [] => some t
  | top :: _ => do
    let next ← s.task top
    if top ≠ i ∧ next.state ≠ .idle ∧ t ≤ next.when then return next.when + 1
    return t

def setWhen (s : State) (i t : ℕ) : State :=
  { s.modTask i fun task => { task with when := t } with lastInWork := max s.lastInWork t }

/-- The task is pushed with a due time that leaves the top alone. -/
def enqueue (s : State) (i t : ℕ) : Option State := do
  let t ← s.protect i t
  return (s.setWhen i t).push i

def reschedule (s : State) (i t : ℕ) : Option State := do
  let task ← s.task i
  (if task.state = .send then s.pop heap else s).enqueue i t

def schedule (s : State) (i : ℕ) : Option State := s.reschedule heap i 0

def rescheduleLast (s : State) (i : ℕ) : Option State :=
  if s.work = [] then s.schedule heap i else s.reschedule heap i (s.lastInWork + 1)

def create (s : State) (k : Kind) : State :=
  { s with
    tasks := Function.update s.tasks s.created ⟨k, .idle, 0, false, false⟩
    created := s.created + 1 }

/-- A new task, which is scheduled -/
def spawn (s : State) (k : Kind) : Option State := (s.create k).schedule heap s.created

/-- One act of `process` of the task `i` -/
def act (i : ℕ) (s : State) : Act → Option State
  | .spawn k => s.spawn heap k
  | .reschedule t => s.reschedule heap i t
  | .rescheduleLast => s.rescheduleLast heap i
  | .setState l => s.modTask i fun t => { t with state := l.state }
  | .setTerm => s.modTask i fun t => { t with hasTerm := true }
  | .setId => some { s with idEmpty := false }
  | .setConnected => some { s with isConnected := true }
  | .setSentName => some { s with sentMyName := true }
  | .stop => some { s with stopped := true }

/-- What `process` does, by the type of the task -/
def acts (s : State) (found : Found) (state : TaskState) : Kind → List Act
  | .addressDownloader => addressDownloader s.isConnected found state
  | .addressVerifier => addressVerifier s.isConnected found state
  | .initConnection => initConnection s.idEmpty s.isConnected s.sentMyName found state
  | .heartbeat => heartbeat found state
  | .info => info found state
  | .publish => publish state
  | .reset => reset found state
  | .executeQuery => executeQuery s.isConnected state

def process (s : State) (i : ℕ) (found : Found) : Option State :=
  (s.acts found (s.tasks i).state (s.tasks i).kind).foldlM (act heap i) s

def idleState (s : State) : Option State :=
  if s.idEmpty ∧ !s.initInProgress then
    { s with conn := .idle, initInProgress := true }.spawn heap .initConnection
  else some { s with conn := .idle }

def sendNextTask (s : State) (now : ℕ) (found : Found) : Option State :=
  match s.work with
  | [] => s.idleState heap
  | top :: _ => do
    let next ← s.task top
    if now < next.when then s.idleState heap
    else if next.state = .killed then
      let s ← s.delete top
      return s.pop heap
    else
      let s := s.modTask top fun t => { t with state := .send, hasTerm := false }
      let s ← s.process heap top found
      let next ← s.task top
      if next.hasTerm then return { s with conn := .busy, requests := ⟨top, []⟩ :: s.requests }
      else s.idleState heap

def deleteTasks : (fuel : ℕ) → State → Option State
  | 0, s => some s
  | fuel + 1, s =>
    match s.work with
    | [] => some s
    | top :: _ => do
      let s ← s.delete top
      deleteTasks fuel (s.pop heap)

def close (s : State) : Option State :=
  { s with conn := .closed }.deleteTasks heap s.work.length

/-- The end of `on_state`: a connection that has been stopped is killed, and closed by `run`. -/
def finish (s : State) : Option State := if s.stopped then s.close heap else some s

/-- `on_state` of a connection that is idle, or has processed a reply -/
def resume (now : ℕ) (next : Found) (s : State) : Option State := do
  let s ← if s.stopped then some s else s.sendNextTask heap now next
  s.finish heap

/-- What on_state does with a task that has processed its reply -/
def settle (s : State) (i : ℕ) : Option State :=
  match (s.tasks i).state with
  | .wait => some { s with waiting := s.waiting ++ [i] }
  | .killed => s.delete i
  | _ => some s

/-- The last request gets a reply, which the task `i` processes. -/
def answer (i : ℕ) : List Request → List Request
  | [] => []
  | r :: rs => { r with answered := r.answered ++ [i] } :: rs

/-- `on_state` in `STATE_RECEIVED` -/
def onReceived (s : State) (found : Found) (now : ℕ) (next : Found) : Option State :=
  match s.work with
  | [] => none
  | top :: _ => do
    let s := { s.pop heap with conn := .received, requests := answer top s.requests }
    let _ ← s.task top
    let s := s.modTask top fun t => { t with state := .received, hasTerm := true }
    let s ← s.process heap top found
    let s ← s.settle top
    s.resume heap now next

/-- A query that waits kills itself when its result has been consumed. -/
def processWaitingTask (consumed : List ℕ) (s : State) (i : ℕ) : Option State := do
  let _ ← s.task i
  if i ∈ consumed then
    let s ← s.delete i
    return { s with waiting := s.waiting.erase i }
  return s

/-- `process_waiting_tasks` -/
def processWaiting (s : State) (consumed : List ℕ) : Option State :=
  s.waiting.foldlM (processWaitingTask consumed) s

end State

inductive Event
  /-- The timer of an idle connection, or a trigger of it -/
  | timer (now : ℕ) (found : Found)
  /-- The reply to the request that has been sent -/
  | reply (found : Found) (now : ℕ) (next : Found)
  /-- A reply whose length is no length: the connection goes idle. -/
  | badLength
  /-- Another thread schedules a new task. -/
  | schedule (k : Kind)
  | tick (consumed : List ℕ)
  | stop
  /-- An error of the socket, or the end of an operation after a stop -/
  | fail
  deriving DecidableEq

variable (heap : Heap)

def step (s : Option State) (e : Event) : Option State := s.bind fun s =>
  match e with
  | .timer now found =>
    if s.conn = .idle then s.resume heap now found else some s
  | .reply found now next => if s.conn = .busy then s.onReceived heap found now next else some s
  | .badLength => some (if s.conn = .busy then { s with conn := .idle } else s)
  | .schedule k => s.spawn heap k
  | .tick consumed => s.processWaiting consumed
  | .stop => some { s with stopped := true }
  | .fail => if s.conn = .closed then some s else { s with stopped := true }.close heap

/-- A connection with no tasks yet -/
def start : State where
  tasks := fun _ => ⟨.executeQuery, .idle, 0, false, false⟩
  created := 0
  work := []
  waiting := []
  lastInWork := 0
  conn := .idle
  stopped := false
  idEmpty := true
  initInProgress := false
  isConnected := false
  sentMyName := false
  requests := []

end Model

section Ownership

namespace State

variable {s : State} (heap : Heap) {held : List ℕ} {i j t : ℕ}

def live (s : State) : List ℕ := (List.range s.created).filter fun i => !(s.tasks i).deleted

/-- Every task that has not been deleted is queued, waits or is held by the one who popped it,
and is in one of these places once. -/
def Owned (held : List ℕ) (s : State) : Prop := (held ++ (s.work ++ s.waiting)).Perm s.live

theorem mem_live : i ∈ s.live ↔ i < s.created ∧ (s.tasks i).deleted = false := by
  simp [live]

theorem nodup_live : s.live.Nodup := List.nodup_range.filter _

theorem live_modTask {f : Task → Task} (same : ∀ t, (f t).deleted = t.deleted) :
    (s.modTask i f).live = s.live := by
  refine List.filter_congr fun j _ => ?_
  rcases eq_or_ne j i with rfl | other
  · simp [modTask, same]
  · simp [modTask, other]

theorem task_of_live (alive : i ∈ s.live) : s.task i = some (s.tasks i) := by
  simp [task, (mem_live.1 alive).2]

theorem delete_of_live (alive : i ∈ s.live) :
    s.delete i = some (s.modTask i fun t => { t with deleted := true }) := by
  simp [delete, task_of_live alive]

theorem delete_of_deleted (deleted : (s.tasks i).deleted = true) : s.delete i = none := by
  have gone : s.task i = none := by simp [task, deleted, Option.filter]
  simp [delete, gone]

theorem perm_delete (alive : i ∈ s.live) :
    (i :: (s.modTask i fun t => { t with deleted := true }).live).Perm s.live := by
  refine (List.perm_ext_iff_of_nodup ?_ nodup_live).2 fun j => ?_
  · exact List.nodup_cons.2 ⟨fun there => by simpa [modTask] using (mem_live.1 there).2, nodup_live⟩
  · rcases eq_or_ne j i with rfl | other
    · simp [alive]
    · simp [mem_live, modTask, other]

theorem Owned.alive (owned : Owned held s) (there : i ∈ held ++ (s.work ++ s.waiting)) :
    i ∈ s.live := owned.subset there

theorem Owned.top {rest : List ℕ} (owned : Owned held s) (work : s.work = i :: rest) :
    i ∈ s.live := owned.alive (by simp [work])

theorem Owned.pop {rest : List ℕ} (owned : Owned held s) (work : s.work = i :: rest) :
    Owned (i :: held) (s.pop heap) := by
  have front : (held ++ (i :: rest ++ s.waiting)).Perm (i :: (held ++ (rest ++ s.waiting))) :=
    List.perm_middle
  have arranged : (heap.arrange s.when s.work.tail).Perm rest := by
    simpa [work] using heap.perm s.when rest
  rw [Owned, work] at owned
  exact (((arranged.append_right _).append_left _).cons i).trans (front.symm.trans owned)

theorem Owned.push (owned : Owned (i :: held) s) : Owned held (s.push i) := by
  have pushed : (s.push i).work.Perm (i :: s.work) := by
    simp only [State.push]
    split
    case h_1 none => rw [none]
    case h_2 top rest work =>
      rw [work]
      split
      · exact .refl _
      · exact .swap _ _ _
  exact ((pushed.append_right _).append_left _).trans (List.perm_middle.trans owned)

theorem Owned.modTask {f : Task → Task} (owned : Owned held s)
    (same : ∀ t, (f t).deleted = t.deleted) : Owned held (s.modTask i f) := by
  unfold Owned
  rw [live_modTask same]
  exact owned

theorem Owned.delete (owned : Owned (i :: held) s) :
    s.delete i = some (s.modTask i fun t => { t with deleted := true }) ∧
      Owned held (s.modTask i fun t => { t with deleted := true }) :=
  have alive : i ∈ s.live := owned.alive (by simp)
  ⟨delete_of_live alive, (owned.trans (perm_delete alive).symm).cons_inv⟩

theorem Owned.delete_top {rest : List ℕ} (owned : Owned held s) (work : s.work = i :: rest) :
    ∃ s', s.delete i = some s' ∧ Owned held (s'.pop heap) ∧ (s'.pop heap).work.Perm rest ∧
      (s'.pop heap).requests = s.requests ∧ (s'.pop heap).conn = s.conn := by
  have same : (s.modTask i fun t => { t with deleted := true }).when = s.when := by
    funext j
    rcases eq_or_ne j i with rfl | other
    · simp [State.when, State.modTask]
    · simp [State.when, State.modTask, other]
  have commute : (s.modTask i fun t => { t with deleted := true }).pop heap =
      (s.pop heap).modTask i fun t => { t with deleted := true } := by
    unfold State.pop
    rw [same]
    rfl
  have popped : Owned (i :: held) (s.pop heap) := owned.pop heap work
  refine ⟨_, delete_of_live (owned.top work), commute ▸ popped.delete.2, ?_, rfl, rfl⟩
  rw [commute]
  simpa [State.pop, State.modTask, work] using heap.perm s.when rest

theorem live_create (k : Kind) : (s.create k).live = s.live ++ [s.created] := by
  have before : ∀ j ∈ List.range s.created,
      (!((s.create k).tasks j).deleted) = !(s.tasks j).deleted := fun j there => by
    simp [State.create, (List.mem_range.1 there).ne]
  simp only [live, State.create, List.range_succ, List.filter_append]
  exact congrArg₂ _ (List.filter_congr before) (by simp)

theorem Owned.create (owned : Owned held s) (k : Kind) :
    Owned (s.created :: held) (s.create k) := by
  unfold Owned
  rw [live_create]
  exact (owned.cons s.created).trans (List.perm_append_singleton _ _).symm

theorem Owned.not_released (owned : Owned (i :: held) s) : ¬Owned held s := fun released => by
  simpa using owned.length_eq.trans released.length_eq.symm

/-- What the acts of a task leave as it is, apart from the task itself -/
structure Keeps (s s' : State) : Prop where
  conn : s'.conn = s.conn
  requests : s'.requests = s.requests
  waiting : s'.waiting = s.waiting
  stopped : s'.stopped = s.stopped
  created : s.created ≤ s'.created
  live : s.live ⊆ s'.live
  state : ∀ j < s.created, (s'.tasks j).state = (s.tasks j).state
  hasTerm : ∀ j < s.created, (s'.tasks j).hasTerm = (s.tasks j).hasTerm

theorem Keeps.trans {s₁ s₂ s₃ : State} (first : Keeps s₁ s₂) (next : Keeps s₂ s₃) :
    Keeps s₁ s₃ where
  conn := next.conn.trans first.conn
  requests := next.requests.trans first.requests
  waiting := next.waiting.trans first.waiting
  stopped := next.stopped.trans first.stopped
  created := first.created.trans next.created
  live _ there := next.live (first.live there)
  state j old := (next.state j (old.trans_le first.created)).trans (first.state j old)
  hasTerm j old := (next.hasTerm j (old.trans_le first.created)).trans (first.hasTerm j old)

theorem protect_spec (alive : ∀ top rest, s.work = top :: rest → top ∈ s.live) :
    ∃ t', s.protect i t = some t' ∧ ∀ top rest, s.work = top :: rest → top ≠ i →
      (s.tasks top).state ≠ .idle → s.when top < t' := by
  unfold protect
  rcases work : s.work with - | ⟨top, rest⟩
  · exact ⟨t, rfl, by simp⟩
  · simp only [task_of_live (alive top rest work), Option.bind_eq_bind, Option.bind_some,
      List.cons.injEq]
    split_ifs with later
    · exact ⟨_, rfl, by rintro _ _ ⟨rfl, -⟩ - -; exact Nat.lt_succ_self _⟩
    · refine ⟨t, rfl, ?_⟩
      rintro _ _ ⟨rfl, -⟩ other active
      exact not_le.1 fun due => later ⟨other, active, due⟩

theorem Owned.enqueue (owned : Owned (i :: held) s) (t : ℕ) :
    ∃ s', s.enqueue i t = some s' ∧ Owned held s' ∧ Keeps s s' ∧
      ∀ top rest, s.work = top :: rest → top ≠ i → (s.tasks top).state ≠ .idle →
        ∃ rest', s'.work = top :: rest' := by
  obtain ⟨t', protected', later⟩ := protect_spec (i := i) (t := t) fun _ _ => owned.top
  have owned' : Owned (i :: held) (s.setWhen i t') :=
    owned.modTask (f := fun task => { task with when := t' }) fun _ => rfl
  refine ⟨_, by simp [State.enqueue, protected'], owned'.push, ?_, ?_⟩
  · have same : ((s.setWhen i t').push i).live = s.live :=
      live_modTask (f := fun task => { task with when := t' }) fun _ => rfl
    refine ⟨rfl, rfl, rfl, rfl, le_rfl, same.symm ▸ List.Subset.refl _, fun j _ => ?_,
      fun j _ => ?_⟩ <;>
    · rcases eq_or_ne j i with rfl | other
      · simp [State.push, setWhen, State.modTask]
      · simp [State.push, setWhen, State.modTask, other]
  · intro top rest work other active
    have behind : ¬t' < (s.tasks top).when := (later top rest work other active).le.not_gt
    have due : ((s.setWhen i t').push i).work = top :: i :: rest := by
      simp only [State.push, setWhen, State.modTask, work, State.when, Function.update_self,
        Function.update_of_ne other, if_neg behind]
    exact ⟨i :: rest, due⟩

theorem Owned.reschedule (owned : Owned (i :: held) s) (state : (s.tasks i).state ≠ .send) (t : ℕ) :
    ∃ s', s.reschedule heap i t = some s' ∧ Owned held s' ∧ Keeps s s' := by
  obtain ⟨s', enqueued, owned', keeps, -⟩ := owned.enqueue t
  refine ⟨s', ?_, owned', keeps⟩
  simpa [State.reschedule, task_of_live (owned.alive (i := i) (by simp)), state] using enqueued

theorem Owned.reschedule_send {rest : List ℕ} (owned : Owned held s) (work : s.work = i :: rest)
    (state : (s.tasks i).state = .send) (t : ℕ) :
    ∃ s', s.reschedule heap i t = some s' ∧ Owned held s' ∧ Keeps s s' := by
  obtain ⟨s', enqueued, owned', keeps, -⟩ := (owned.pop heap work).enqueue t
  refine ⟨s', ?_, owned', ⟨keeps.1, keeps.2, keeps.3, keeps.4, keeps.5, keeps.6, keeps.7, keeps.8⟩⟩
  simpa [State.reschedule, task_of_live (owned.top work), state] using enqueued

theorem rescheduleLast_eq : ∃ t, s.rescheduleLast heap i = s.reschedule heap i t := by
  unfold rescheduleLast
  split_ifs
  · exact ⟨0, rfl⟩
  · exact ⟨_, rfl⟩

theorem Owned.spawn (owned : Owned held s) (k : Kind) :
    ∃ s', s.spawn heap k = some s' ∧ Owned held s' ∧ Keeps s s' ∧
      ∀ top rest, s.work = top :: rest → (s.tasks top).state ≠ .idle →
        ∃ rest', s'.work = top :: rest' := by
  have fresh : ((s.create k).tasks s.created).state ≠ .send := by simp [State.create]
  obtain ⟨s', enqueued, owned', keeps, top⟩ := (owned.create k).enqueue 0
  have made : Keeps s (s.create k) := ⟨rfl, rfl, rfl, rfl, Nat.le_succ _,
    live_create k ▸ List.subset_append_left _ _,
    fun j old => by simp [State.create, old.ne], fun j old => by simp [State.create, old.ne]⟩
  refine ⟨s', ?_, owned', made.trans keeps, ?_⟩
  · have alive : s.created ∈ (s.create k).live := (owned.create k).alive (by simp)
    simpa [State.spawn, State.schedule, State.reschedule, task_of_live alive, fresh] using enqueued
  · intro i rest work active
    have old : i ≠ s.created := (mem_live.1 (owned.top work)).1.ne
    exact top i rest work old (by simpa [State.create, old] using active)

end State

end Ownership

section Processing

def Act.isReschedule : Act → Bool
  | .reschedule _ | .rescheduleLast => true
  | _ => false

/-- The state of a task after its acts -/
def leaves (acts : List Act) (state : TaskState) : TaskState :=
  acts.foldl (fun state a => match a with | .setState l => l.state | _ => state) state

namespace State

variable {s : State} (heap : Heap) {held : List ℕ} {i : ℕ} {acts : List Act}

/-- What the acts of the task `i` do to the rest -/
structure Did (i : ℕ) (acts : List Act) (s s' : State) : Prop where
  conn : s'.conn = s.conn
  requests : s'.requests = s.requests
  waiting : s'.waiting = s.waiting
  stopped : s'.stopped = true ↔ s.stopped = true ∨ .stop ∈ acts
  created : s.created ≤ s'.created
  state : (s'.tasks i).state = leaves acts (s.tasks i).state

theorem Did.of_keeps {s' : State} {a : Act} (keeps : Keeps s s') (old : i < s.created)
    (other : a ≠ .stop) (stays : ∀ l, a ≠ .setState l) : Did i [a] s s' where
  conn := keeps.conn
  requests := keeps.requests
  waiting := keeps.waiting
  stopped := by simp [keeps.stopped, other.symm]
  created := keeps.created
  state := by
    rw [keeps.state i old]
    cases a <;> simp_all [leaves]

theorem Did.cons {s₁ s₂ s₃ : State} {a : Act} (first : Did i [a] s₁ s₂) (next : Did i acts s₂ s₃) :
    Did i (a :: acts) s₁ s₃ where
  conn := next.conn.trans first.conn
  requests := next.requests.trans first.requests
  waiting := next.waiting.trans first.waiting
  stopped := by simp [next.stopped, first.stopped, or_assoc, List.mem_cons]
  created := first.created.trans next.created
  state := by rw [next.state, first.state]; rfl

theorem Owned.act (owned : Owned held s) (old : i < s.created) {a : Act}
    (stays : a.isReschedule = false) :
    ∃ s', act heap i s a = some s' ∧ Owned held s' ∧ Did i [a] s s' := by
  have mod : ∀ f : Task → Task, (∀ t, (f t).deleted = t.deleted) → Owned held (s.modTask i f) :=
    fun f same => owned.modTask same
  cases a with
  | spawn k =>
    obtain ⟨s', spawned, owned', keeps, -⟩ := owned.spawn heap k
    exact ⟨s', spawned, owned', .of_keeps keeps old (by simp) (by simp)⟩
  | reschedule | rescheduleLast => simp [Act.isReschedule] at stays
  | setState l =>
    exact ⟨_, rfl, mod _ fun _ => rfl, rfl, rfl, rfl, by simp [State.modTask], le_rfl,
      by simp [State.modTask, leaves]⟩
  | setTerm =>
    exact ⟨_, rfl, mod _ fun _ => rfl, rfl, rfl, rfl, by simp [State.modTask], le_rfl,
      by simp [State.modTask, leaves]⟩
  | setId | setConnected | setSentName | stop =>
    exact ⟨_, rfl, owned, rfl, rfl, rfl, by simp, le_rfl, rfl⟩

theorem Owned.act_reschedule (owned : Owned (i :: held) s) (state : (s.tasks i).state ≠ .send)
    {a : Act} (moves : a.isReschedule = true) :
    ∃ s', State.act heap i s a = some s' ∧ Owned held s' ∧ Did i [a] s s' := by
  have old : i < s.created := (mem_live.1 (owned.alive (i := i) (by simp))).1
  have at_time (t : ℕ) :
      ∃ s', s.reschedule heap i t = some s' ∧ Owned held s' ∧ Did i [a] s s' := by
    obtain ⟨s', moved, owned', keeps⟩ := owned.reschedule heap state t
    refine ⟨s', moved, owned', .of_keeps keeps old ?_ fun l => ?_⟩ <;>
    · rintro rfl
      simp [Act.isReschedule] at moves
  cases a with
  | reschedule t => exact at_time t
  | rescheduleLast =>
    obtain ⟨t, same⟩ := rescheduleLast_eq heap (s := s) (i := i)
    simpa only [State.act, same] using at_time t
  | _ => simp [Act.isReschedule] at moves

theorem Owned.process (owned : Owned held s) (old : i < s.created)
    (state : (s.tasks i).state ≠ .send)
    (once : acts.countP Act.isReschedule = 0 ∨
      acts.countP Act.isReschedule = 1 ∧ held = [i]) :
    ∃ s', acts.foldlM (State.act heap i) s = some s' ∧
      Owned (if acts.countP Act.isReschedule = 0 then held else []) s' ∧ Did i acts s s' := by
  induction acts generalizing s held with
  | nil => exact ⟨s, rfl, by simpa using owned, rfl, rfl, rfl, by simp, le_rfl, rfl⟩
  | cons a acts ih =>
    have active : ∀ s', Did i [a] s s' → (s'.tasks i).state ≠ .send := fun s' did => by
      rw [did.state]
      cases a with
      | setState l => cases l <;> simp [leaves, Leave.state]
      | _ => exact state
    rcases moves : a.isReschedule with - | -
    · have same : (a :: acts).countP Act.isReschedule = acts.countP Act.isReschedule := by
        simp [moves]
      rw [same] at once ⊢
      obtain ⟨s₁, acted, owned₁, did₁⟩ := owned.act heap old moves
      obtain ⟨s₂, rest, owned₂, did₂⟩ :=
        ih owned₁ (old.trans_le did₁.created) (active s₁ did₁) once
      exact ⟨s₂, by simpa [acted] using rest, owned₂, did₁.cons did₂⟩
    · have more : (a :: acts).countP Act.isReschedule = acts.countP Act.isReschedule + 1 := by
        simp [moves]
      obtain ⟨last, rfl⟩ : acts.countP Act.isReschedule = 0 ∧ held = [i] := by
        rcases once with never | ⟨one, rfl⟩
        · omega
        · exact ⟨by omega, rfl⟩
      obtain ⟨s₁, acted, owned₁, did₁⟩ := owned.act_reschedule heap state moves
      obtain ⟨s₂, rest, owned₂, did₂⟩ :=
        ih owned₁ (old.trans_le did₁.created) (active s₁ did₁) (.inl last)
      exact ⟨s₂, by simpa [acted] using rest, by simpa [last, more] using owned₂, did₁.cons did₂⟩

end State

end Processing

section Exchange

namespace State

variable {s : State} (heap : Heap) {held : List ℕ} {i : ℕ}

/-- A request is answered by no task, or by the one that has sent it, once. -/
def Matched (s : State) : Prop := ∀ r ∈ s.requests, r.answered = [] ∨ r.answered = [r.task]

/-- The task on top has sent the request that a busy connection has no reply to yet. -/
def Awaits (s : State) : Prop :=
  s.conn = .busy → ∃ i rest requests,
    s.work = i :: rest ∧ s.requests = ⟨i, []⟩ :: requests ∧ (s.tasks i).state = .send

structure Sound (held : List ℕ) (s : State) : Prop where
  owned : Owned held s
  matched : Matched s
  awaits : Awaits s

theorem Matched.of_same {s' : State} (matched : Matched s) (same : s'.requests = s.requests) :
    Matched s' := by
  unfold Matched
  rwa [same]

theorem Awaits.of_not_busy (idle : s.conn ≠ .busy) : Awaits s := fun busy => absurd busy idle

theorem idleState_spec (owned : Owned held s) (matched : Matched s) :
    ∃ s', s.idleState heap = some s' ∧ Sound held s' := by
  unfold idleState
  split_ifs
  · obtain ⟨s', spawned, owned', keeps, -⟩ :=
      Owned.spawn heap (s := { s with conn := .idle, initInProgress := true }) owned
        .initConnection
    exact ⟨s', spawned, owned', matched.of_same keeps.requests,
      .of_not_busy (by simp [keeps.conn])⟩
  · exact ⟨_, rfl, owned, matched, .of_not_busy (by simp)⟩

theorem acts_send (s : State) (found : Found) (k : Kind) :
    s.acts found .send k ∈ [[], [.setTerm], [.setSentName, .setTerm]] ∨
      ∃ a : Act, a.isReschedule = true ∧ s.acts found .send k = [a, .setState .idle] := by
  cases k <;> simp only [acts, addressDownloader, addressVerifier, initConnection, heartbeat, info,
    publish, reset, executeQuery, ifConnected]
  case initConnection => left; split_ifs <;> simp
  case addressDownloader =>
    split_ifs
    · cases found.early with
      | no => simp
      | last => exact .inr ⟨.rescheduleLast, rfl, rfl⟩
      | «until» t => exact .inr ⟨.reschedule t, rfl, rfl⟩
    · exact .inr ⟨.rescheduleLast, rfl, rfl⟩
  case addressVerifier | executeQuery =>
    split_ifs
    · simp
    · exact .inr ⟨.rescheduleLast, rfl, rfl⟩
  all_goals simp

theorem Owned.process_send {rest : List ℕ} (owned : Owned held s) (work : s.work = i :: rest)
    (state : (s.tasks i).state = .send) (term : (s.tasks i).hasTerm = false) (found : Found) :
    ∃ s', s.process heap i found = some s' ∧ Owned held s' ∧ s'.requests = s.requests ∧
      i ∈ s'.live ∧ s'.conn = s.conn ∧
      ((s'.tasks i).hasTerm = true → s'.work = s.work ∧ (s'.tasks i).state = .send) := by
  unfold State.process
  rw [state]
  have alive : i ∈ s.live := owned.top work
  have mod : ∀ f : Task → Task, (∀ t, (f t).deleted = t.deleted) →
      Owned held (s.modTask i f) ∧ i ∈ (s.modTask i f).live := fun f same =>
    ⟨owned.modTask same, by rwa [live_modTask same]⟩
  rcases acts_send s found (s.tasks i).kind with direct | ⟨a, moves, acts⟩
  · simp only [List.mem_cons, List.not_mem_nil, or_false] at direct
    rcases direct with acts | acts | acts <;> rw [acts]
    · exact ⟨s, rfl, owned, rfl, alive, rfl, by simp [term]⟩
    · exact ⟨_, rfl, (mod (fun t => { t with hasTerm := true }) fun _ => rfl).1, rfl,
        (mod (fun t => { t with hasTerm := true }) fun _ => rfl).2, rfl,
        fun _ => ⟨rfl, by simp [State.modTask, state]⟩⟩
    · exact ⟨_, rfl, (mod (fun t => { t with hasTerm := true }) fun _ => rfl).1, rfl,
        (mod (fun t => { t with hasTerm := true }) fun _ => rfl).2, rfl,
        fun _ => ⟨rfl, by simp [State.modTask, state]⟩⟩
  · have rescheduled : ∃ s', State.act heap i s a = some s' ∧ Owned held s' ∧ Keeps s s' := by
      cases a with
      | reschedule t => exact owned.reschedule_send heap work state t
      | rescheduleLast =>
        obtain ⟨t, same⟩ := rescheduleLast_eq heap (s := s) (i := i)
        simpa only [State.act, same] using owned.reschedule_send heap work state t
      | _ => simp [Act.isReschedule] at moves
    obtain ⟨s', moved, owned', keeps⟩ := rescheduled
    have processed : [a, .setState .idle].foldlM (State.act heap i) s =
        some (s'.modTask i fun t => { t with state := .idle }) := by
      rw [List.foldlM_cons, moved]
      rfl
    rw [acts, processed]
    refine ⟨_, rfl, owned'.modTask fun _ => rfl, keeps.requests, ?_, keeps.conn, ?_⟩
    · have same := live_modTask (s := s') (i := i) (f := fun t => { t with state := .idle })
      exact (same fun _ => rfl) ▸ keeps.live alive
    · have silent := keeps.hasTerm i (mem_live.1 alive).1
      simp [State.modTask, silent, term]

theorem sendNextTask_spec (owned : Owned held s) (matched : Matched s) (idle : s.conn ≠ .busy)
    (now : ℕ) (found : Found) :
    ∃ s', s.sendNextTask heap now found = some s' ∧ Sound held s' := by
  unfold sendNextTask
  rcases work : s.work with - | ⟨top, rest⟩
  · exact idleState_spec heap owned matched
  · have alive : top ∈ s.live := owned.top work
    simp only [task_of_live alive, Option.bind_eq_bind, Option.bind_some]
    split_ifs with later killed
    · exact idleState_spec heap owned matched
    · -- A task that has been killed in the queue is deleted in it, and popped at once.
      obtain ⟨s', deleted, owned', -, requests, conn⟩ := owned.delete_top heap work
      exact ⟨s'.pop heap, by simp [deleted], owned', matched.of_same requests,
        .of_not_busy (conn ▸ idle)⟩
    · have asked :
          Owned held (s.modTask top fun t => { t with state := .send, hasTerm := false }) :=
        owned.modTask fun _ => rfl
      obtain ⟨s', processed, owned', requests, alive', conn, sent⟩ :=
        asked.process_send heap work (by simp [modTask]) (by simp [modTask]) found
      have matched' : Matched s' := matched.of_same requests
      simp only [processed, Option.bind_some, task_of_live alive']
      split_ifs with term
      · obtain ⟨stays, state⟩ := sent term
        refine ⟨_, rfl, owned', ?_, fun _ => ⟨top, rest, s'.requests, stays.trans work, rfl, state⟩⟩
        intro r there
        rcases List.mem_cons.1 there with rfl | older
        · exact .inl rfl
        · exact matched' r older
      · exact idleState_spec heap owned' matched'

theorem deleteTasks_spec (owned : Owned held s) {fuel : ℕ} (enough : s.work.length = fuel) :
    ∃ s', s.deleteTasks heap fuel = some s' ∧ Owned held s' ∧ s'.requests = s.requests ∧
      s'.conn = s.conn := by
  induction fuel generalizing s with
  | zero => exact ⟨s, rfl, owned, rfl, rfl⟩
  | succ fuel ih =>
    obtain ⟨top, rest, work⟩ := List.exists_cons_of_length_eq_add_one enough
    obtain ⟨s₁, deleted, owned₁, rest₁, requests₁, conn₁⟩ := owned.delete_top heap work
    have shorter : (s₁.pop heap).work.length = fuel := by
      rw [rest₁.length_eq]
      simpa [work] using enough
    obtain ⟨s₂, emptied, owned₂, requests₂, conn₂⟩ := ih owned₁ shorter
    exact ⟨s₂, by simp [deleteTasks, work, deleted, emptied], owned₂, requests₂.trans requests₁,
      conn₂.trans conn₁⟩

theorem close_spec (owned : Owned held s) (matched : Matched s) :
    ∃ s', s.close heap = some s' ∧ Sound held s' := by
  obtain ⟨s', emptied, owned', requests, conn⟩ :=
    deleteTasks_spec heap (s := { s with conn := .closed }) owned rfl
  exact ⟨s', emptied, owned', matched.of_same requests, .of_not_busy (by simp [conn])⟩

theorem Sound.finish (sound : Sound held s) : ∃ s', s.finish heap = some s' ∧ Sound held s' := by
  unfold State.finish
  split_ifs
  · exact close_spec heap sound.owned sound.matched
  · exact ⟨s, rfl, sound⟩

theorem close_of_deleted {s : State} (there : i ∈ s.work) (deleted : (s.tasks i).deleted = true) :
    s.close heap = none := by
  have emptied : ∀ fuel (s : State), s.work.length = fuel → i ∈ s.work →
      (s.tasks i).deleted = true → s.deleteTasks heap fuel = none := by
    intro fuel
    induction fuel with
    | zero =>
      intro s none there
      simp [List.length_eq_zero_iff.1 none] at there
    | succ fuel ih =>
      intro s enough there deleted
      obtain ⟨top, rest, work⟩ := List.exists_cons_of_length_eq_add_one enough
      rcases gone : (s.tasks top).deleted with - | -
      · have other : i ≠ top := by
          rintro rfl
          simp [gone] at deleted
        have later : i ∈ rest := (List.mem_cons.1 (work ▸ there)).resolve_left other
        have popped : ((s.modTask top fun t => { t with deleted := true }).pop heap).work.Perm
            rest := by
          simpa [State.pop, State.modTask, work] using
            heap.perm (s.modTask top fun t => { t with deleted := true }).when rest
        have alive : s.delete top = some (s.modTask top fun t => { t with deleted := true }) := by
          simp [State.delete, State.task, Option.filter, gone]
        simp only [deleteTasks, work, alive, Option.bind_eq_bind, Option.bind_some]
        refine ih _ ?_ (popped.symm.subset later) (by simpa [State.pop, State.modTask, other])
        rw [popped.length_eq]
        simpa [work] using enough
      · simp [deleteTasks, work, delete_of_deleted gone]
  exact emptied _ { s with conn := .closed } rfl there deleted

theorem Owned.settle_held (owned : Owned [i] s)
    (left : (s.tasks i).state = .wait ∨ (s.tasks i).state = .killed) :
    ∃ s', s.settle i = some s' ∧ Owned [] s' ∧ s'.requests = s.requests ∧ s'.conn = s.conn := by
  unfold settle
  rcases left with state | state <;> rw [state]
  · refine ⟨_, rfl, ?_, rfl, rfl⟩
    have last : (s.work ++ (s.waiting ++ [i])).Perm (i :: (s.work ++ s.waiting)) := by
      rw [← List.append_assoc]
      exact List.perm_append_singleton _ _
    exact last.trans owned
  · exact ⟨_, owned.delete.1, owned.delete.2, rfl, rfl⟩

theorem settle_other (other : (s.tasks i).state ≠ .wait ∧ (s.tasks i).state ≠ .killed) :
    s.settle i = some s := by
  unfold settle
  split <;> simp_all

end State

/-- The reply leaves its task neither lost nor both queued and deleted: it is no reply that ends a
task which is done once, and no name that is no atom. -/
def Lasts (s : State) (found : Found) : Kind → Prop
  | .executeQuery | .heartbeat => True
  | .info | .reset => found.reply = .bad
  | .publish => False
  | .initConnection => found.reply = .bad ∨ s.idEmpty ∧ found.reply = .good
  | .addressDownloader => !s.isConnected ∨ found.early ≠ .no ∨ found.reply = .bad
  | .addressVerifier => !s.isConnected ∨ found.reply = .bad

namespace State

variable {s : State} (heap : Heap) {held : List ℕ} {i : ℕ}

theorem acts_received_of_lasts {found : Found} {k : Kind} (lasts : Lasts s found k) :
    ((s.acts found .received k).countP Act.isReschedule = 1 ∧
      leaves (s.acts found .received k) .received ≠ .wait ∧
      leaves (s.acts found .received k) .received ≠ .killed) ∨
    (s.acts found .received k).countP Act.isReschedule = 0 ∧
      (leaves (s.acts found .received k) .received = .wait ∨
        leaves (s.acts found .received k) .received = .killed) := by
  cases k <;> simp only [acts, addressDownloader, addressVerifier, initConnection, heartbeat, info,
    publish, reset, executeQuery, ifConnected, error]
  case initConnection =>
    rcases found with ⟨⟨⟩, early, heart, next⟩ <;> cases empty : s.idEmpty <;> cases heart <;>
      simp_all [Lasts, leaves, List.countP_cons, Act.isReschedule, Leave.state]
  case addressDownloader =>
    rcases found with ⟨⟨⟩, ⟨⟩, heart, next⟩ <;> cases connected : s.isConnected <;>
      simp_all [Lasts, leaves, List.countP_cons, Act.isReschedule, Leave.state]
  case addressVerifier =>
    rcases found with ⟨⟨⟩, early, heart, next⟩ <;> cases connected : s.isConnected <;>
      simp_all [Lasts, leaves, List.countP_cons, Act.isReschedule, Leave.state]
  case executeQuery =>
    cases s.isConnected <;>
      simp_all [Lasts, leaves, List.countP_cons, Act.isReschedule, Leave.state]
  all_goals
    rcases found with ⟨⟨⟩, early, heart, next⟩ <;>
      simp_all [Lasts, leaves, List.countP_cons, Act.isReschedule, Leave.state]

theorem acts_received_of_not_lasts {found : Found} {k : Kind} (ends : ¬Lasts s found k) :
    ((s.acts found .received k).countP Act.isReschedule = 0 ∧
      leaves (s.acts found .received k) .received ≠ .wait ∧
      leaves (s.acts found .received k) .received ≠ .killed) ∨
    (s.acts found .received k).countP Act.isReschedule = 1 ∧
      leaves (s.acts found .received k) .received = .killed ∧
      .stop ∈ s.acts found .received k := by
  cases k <;> simp only [acts, addressDownloader, addressVerifier, initConnection, heartbeat, info,
    publish, reset, executeQuery, ifConnected, error]
  case initConnection =>
    rcases found with ⟨⟨⟩, early, heart, next⟩ <;> cases empty : s.idEmpty <;> cases heart <;>
      simp_all [Lasts, leaves, List.countP_cons, Act.isReschedule, Leave.state]
  case addressDownloader =>
    rcases found with ⟨⟨⟩, ⟨⟩, heart, next⟩ <;> cases connected : s.isConnected <;>
      simp_all [Lasts, leaves, Leave.state]
  case addressVerifier =>
    rcases found with ⟨⟨⟩, early, heart, next⟩ <;> cases connected : s.isConnected <;>
      simp_all [Lasts, leaves, Act.isReschedule, Leave.state]
  case executeQuery =>
    simp [Lasts] at ends
  all_goals
    rcases found with ⟨⟨⟩, early, heart, next⟩ <;>
      simp_all [Lasts, leaves, Act.isReschedule, Leave.state]

/-- The task on top of a busy connection, with the reply to its request -/
def taken (heap : Heap) (s : State) (i : ℕ) : State :=
  { s.pop heap with conn := .received, requests := answer i s.requests }.modTask i
    fun t => { t with state := .received, hasTerm := true }

theorem onReceived_eq {rest : List ℕ} (owned : Owned [] s) (work : s.work = i :: rest)
    (found : Found) (now : ℕ) (next : Found) :
    s.onReceived heap found now next =
      ((s.taken heap i).process heap i found).bind fun s =>
        (s.settle i).bind (resume heap now next) := by
  have alive : i ∈
      State.live { s.pop heap with conn := .received, requests := answer i s.requests } :=
    owned.top work
  simp only [onReceived, work, task_of_live alive, Option.bind_eq_bind, Option.bind_some]
  rfl

theorem resume_spec (owned : Owned held s) (matched : Matched s) (idle : s.conn ≠ .busy) (now : ℕ)
    (next : Found) : ∃ s', s.resume heap now next = some s' ∧ Sound held s' := by
  unfold resume
  split_ifs
  · exact Sound.finish heap ⟨owned, matched, .of_not_busy idle⟩
  · obtain ⟨s₁, sent, sound⟩ := sendNextTask_spec heap owned matched idle now next
    simpa only [sent, Option.bind_eq_bind, Option.bind_some] using sound.finish heap

theorem Sound.taken (sound : Sound [] s) (busy : s.conn = .busy) :
    ∃ i rest, s.work = i :: rest ∧ Owned [i] (s.taken heap i) ∧ Matched (s.taken heap i) := by
  obtain ⟨i, rest, requests, work, sent, -⟩ := sound.awaits busy
  refine ⟨i, rest, work, Owned.modTask (sound.owned.pop heap work) fun _ => rfl, fun r there => ?_⟩
  simp only [State.taken, modTask, sent, answer, List.nil_append, List.mem_cons] at there
  rcases there with rfl | older
  · exact .inr rfl
  · exact sound.matched r (sent ▸ List.mem_cons_of_mem _ older)

/-- What a task has done with the reply that it got -/
structure Replied (heap : Heap) (s : State) (i : ℕ) (acts : List Act) (s' : State) : Prop where
  owned : Owned (if acts.countP Act.isReschedule = 0 then [i] else []) s'
  matched : Matched s'
  idle : s'.conn ≠ .busy
  state : (s'.tasks i).state = leaves acts .received
  waiting : s'.waiting = s.waiting
  old : i < s'.created
  stopped : .stop ∈ acts → s'.stopped = true

theorem process_taken (owned : Owned [i] (s.taken heap i))
    (matched : Matched (s.taken heap i)) {found : Found}
    (once : (s.acts found .received (s.tasks i).kind).countP Act.isReschedule ≤ 1) :
    ∃ s', (s.taken heap i).process heap i found = some s' ∧
      Replied heap s i (s.acts found .received (s.tasks i).kind) s' := by
  have state : ((s.taken heap i).tasks i).state = .received := by simp [State.taken, modTask]
  have same : (s.taken heap i).acts found ((s.taken heap i).tasks i).state
      ((s.taken heap i).tasks i).kind = s.acts found .received (s.tasks i).kind := by
    simp only [State.taken, modTask, Function.update_self]
    rfl
  have once' : (s.acts found .received (s.tasks i).kind).countP Act.isReschedule = 0 ∨
      (s.acts found .received (s.tasks i).kind).countP Act.isReschedule = 1 ∧ [i] = [i] :=
    (Nat.le_one_iff_eq_zero_or_eq_one.1 once).imp_right fun one => ⟨one, rfl⟩
  have old : i < (s.taken heap i).created := (mem_live.1 (owned.alive (i := i) (by simp))).1
  obtain ⟨s', processed, owned', did⟩ :=
    owned.process heap old (by simp [state]) once'
  refine ⟨s', by rw [State.process, same, processed], owned', matched.of_same did.requests, ?_,
    ?_, did.waiting, old.trans_le did.created, ?_⟩
  · simp [did.conn, State.taken, modTask]
  · rw [did.state, state]
  · exact fun stops => did.stopped.2 (.inr stops)

end State

/-- Nothing undefined has happened, every task is in one place, and every reply has gone to the
task that caused it. -/
def Holds (s : Option State) : Prop := ∃ t, s = some t ∧ t.Sound []

namespace State

variable {s : State} (heap : Heap) {i : ℕ} {found next : Found} {now : ℕ}

theorem holds_onReceived {rest : List ℕ} (sound : s.Sound []) (work : s.work = i :: rest)
    (owned : Owned [i] (s.taken heap i)) (matched : Matched (s.taken heap i))
    (lasts : Lasts s found (s.tasks i).kind) : Holds (s.onReceived heap found now next) := by
  rw [onReceived_eq heap sound.owned work]
  rcases acts_received_of_lasts lasts with ⟨once, alive⟩ | ⟨never, left⟩
  · obtain ⟨s₁, processed, replied⟩ := process_taken heap owned matched once.le
    have owned₁ : Owned [] s₁ := by simpa [once] using replied.owned
    obtain ⟨s₂, resumed, sound₂⟩ :=
      resume_spec heap owned₁ replied.matched replied.idle now next
    rw [← replied.state] at alive
    exact ⟨s₂, by simp [processed, settle_other alive, resumed], sound₂⟩
  · obtain ⟨s₁, processed, replied⟩ := process_taken heap owned matched (never.trans_le zero_le_one)
    have owned₁ : Owned [i] s₁ := by simpa [never] using replied.owned
    rw [← replied.state] at left
    obtain ⟨s₂, settled, owned₂, requests, conn⟩ := owned₁.settle_held left
    have matched₂ : Matched s₂ := replied.matched.of_same requests
    obtain ⟨s₃, resumed, sound₃⟩ :=
      resume_spec heap owned₂ matched₂ (conn ▸ replied.idle) now next
    exact ⟨s₃, by simp [processed, settled, resumed], sound₃⟩

theorem not_holds_onReceived {rest : List ℕ} (sound : s.Sound []) (work : s.work = i :: rest)
    (owned : Owned [i] (s.taken heap i)) (matched : Matched (s.taken heap i))
    (ends : ¬Lasts s found (s.tasks i).kind) : ¬Holds (s.onReceived heap found now next) := by
  rw [onReceived_eq heap sound.owned work]
  rintro ⟨t, same, sound'⟩
  rcases acts_received_of_not_lasts ends with ⟨never, alive⟩ | ⟨once, left, stops⟩
  · -- No place has the task any more.
    obtain ⟨s₁, processed, replied⟩ := process_taken heap owned matched (never.trans_le zero_le_one)
    have owned₁ : Owned [i] s₁ := by simpa [never] using replied.owned
    obtain ⟨s₂, resumed, sound₂⟩ :=
      resume_spec heap owned₁ replied.matched replied.idle now next
    rw [← replied.state] at alive
    have : s₂ = t := by simpa [processed, settle_other alive, resumed] using same
    exact sound₂.owned.not_released (this ▸ sound'.owned)
  · -- The task is deleted although it is queued, and then the connection is closed.
    obtain ⟨s₁, processed, replied⟩ := process_taken heap owned matched once.le
    have owned₁ : Owned [] s₁ := by simpa [once] using replied.owned
    have settled : s₁.settle i = s₁.delete i := by
      unfold settle
      rw [replied.state, left]
    rcases gone : (s₁.tasks i).deleted with - | -
    · have alive : i ∈ s₁.live := mem_live.2 ⟨replied.old, gone⟩
      have queued : i ∈ s₁.work := by
        have there : i ∈ s₁.work ++ s₁.waiting := List.Perm.symm owned₁ |>.subset alive
        refine (List.mem_append.1 there).resolve_right fun waits => ?_
        have apart := (List.nodup_cons.1 (owned.nodup_iff.2 nodup_live)).1
        exact apart (List.mem_append_right _ (List.mem_append_right _ (replied.waiting ▸ waits)))
      have closed := close_of_deleted heap (i := i)
        (s := s₁.modTask i fun t => { t with deleted := true }) queued (by simp [modTask])
      have stopped : (s₁.modTask i fun t => { t with deleted := true }).stopped = true :=
        replied.stopped stops
      simp [processed, settled, delete_of_live alive, resume, finish, stopped, closed] at same
    · simp [processed, settled, delete_of_deleted gone] at same

end State

theorem holds_spawn (heap : Heap) {s : State} (sound : s.Sound []) (k : Kind) :
    Holds (s.spawn heap k) := by
  obtain ⟨s', spawned, owned', keeps, stays⟩ := sound.owned.spawn heap k
  refine ⟨s', spawned, owned', sound.matched.of_same keeps.requests, fun busy => ?_⟩
  obtain ⟨i, rest, requests, work, sent, state⟩ := sound.awaits (keeps.conn ▸ busy)
  obtain ⟨rest', work'⟩ := stays i rest work (by simp [state])
  have old : i < s.created := (State.mem_live.1 (sound.owned.top work)).1
  exact ⟨i, rest', requests, work', keeps.requests.trans sent, (keeps.state i old).trans state⟩

open State in
theorem holds_processWaitingTask {s : State} (sound : s.Sound []) {i : ℕ} (there : i ∈ s.waiting)
    (consumed : List ℕ) :
    ∃ s', processWaitingTask consumed s i = some s' ∧ s'.Sound [] ∧
      ∀ j ∈ s.waiting, j ≠ i → j ∈ s'.waiting := by
  have alive : i ∈ s.live := sound.owned.alive (by simp [there])
  unfold processWaitingTask
  rw [task_of_live alive]
  simp only [Option.bind_eq_bind, Option.bind_some]
  split_ifs
  · have taken : Owned [i] { s with waiting := s.waiting.erase i } :=
      (((List.perm_cons_erase there).append_left s.work).trans List.perm_middle).symm.trans
        sound.owned
    rw [delete_of_live alive]
    refine ⟨_, rfl, ⟨taken.delete.2, sound.matched, fun busy => ?_⟩, fun j waits other =>
      (List.mem_erase_of_ne other).2 waits⟩
    obtain ⟨j, rest, requests, work, sent, state⟩ := sound.awaits busy
    refine ⟨j, rest, requests, work, sent, ?_⟩
    rcases eq_or_ne j i with rfl | apart
    · simpa [modTask] using state
    · simpa [modTask, apart] using state
  · exact ⟨s, rfl, sound, fun j waits _ => waits⟩

open State in
theorem holds_processWaiting {s : State} (sound : s.Sound []) (consumed : List ℕ) :
    Holds (s.processWaiting consumed) := by
  have each : ∀ (l : List ℕ) (s : State), s.Sound [] → l.Nodup → (∀ j ∈ l, j ∈ s.waiting) →
      Holds (l.foldlM (processWaitingTask consumed) s) := by
    intro l
    induction l with
    | nil => exact fun s sound _ _ => ⟨s, rfl, sound⟩
    | cons i l ih =>
      intro s sound apart waits
      obtain ⟨other, apart⟩ := List.nodup_cons.1 apart
      obtain ⟨s', processed, sound', kept⟩ :=
        holds_processWaitingTask sound (waits i (List.mem_cons_self ..)) consumed
      have waits' : ∀ j ∈ l, j ∈ s'.waiting := fun j later =>
        kept j (waits j (List.mem_cons_of_mem _ later)) (ne_of_mem_of_not_mem later other)
      simpa [processed] using ih s' sound' apart waits'
  have apart : (s.work ++ s.waiting).Nodup := List.Perm.nodup_iff sound.owned |>.2 nodup_live
  exact each s.waiting s sound (List.nodup_append.1 apart).2.1 fun _ waits => waits

/-- Every reply that comes meets a task that lasts. -/
def Meets : Option State → Event → Prop
  | some s, .reply found _ _ =>
    s.conn = .busy → ∀ i ∈ s.work.head?, Lasts s found (s.tasks i).kind
  | _, _ => True

end Exchange

section Runs

open State

variable (heap : Heap)

theorem holds_step_iff (s : Option State) (e : Event) (holds : Holds s) :
    Holds (step heap s e) ↔ Meets s e := by
  obtain ⟨s, rfl, sound⟩ := holds
  cases e with
  | timer now found =>
    refine iff_of_true ?_ trivial
    simp only [step, Option.bind_some]
    by_cases idle : s.conn = .idle
    · rw [if_pos idle]
      obtain ⟨s', resumed, sound'⟩ :=
        resume_spec heap sound.owned sound.matched (by simp [idle]) now found
      exact ⟨s', resumed, sound'⟩
    · rw [if_neg idle]
      exact ⟨s, rfl, sound⟩
  | reply found now next =>
    simp only [step, Option.bind_some, Meets]
    split_ifs with busy
    · obtain ⟨i, rest, work, owned, matched⟩ := sound.taken heap busy
      simp only [busy, work, forall_const, List.head?_cons, Option.mem_some_iff, forall_eq']
      exact ⟨fun holds => by_contra fun ends =>
        not_holds_onReceived heap sound work owned matched ends holds,
        holds_onReceived heap sound work owned matched⟩
    · exact iff_of_true ⟨s, rfl, sound⟩ fun ready => absurd ready busy
  | badLength =>
    refine iff_of_true ⟨_, rfl, ?_⟩ trivial
    split_ifs with busy
    · exact ⟨sound.owned, sound.matched, .of_not_busy (by simp)⟩
    · exact sound
  | schedule k => exact iff_of_true (holds_spawn heap sound k) trivial
  | tick consumed => exact iff_of_true (holds_processWaiting sound consumed) trivial
  | stop => exact iff_of_true ⟨_, rfl, sound.owned, sound.matched, sound.awaits⟩ trivial
  | fail =>
    refine iff_of_true ?_ trivial
    simp only [step, Option.bind_some]
    split_ifs
    · exact ⟨s, rfl, sound⟩
    · exact close_spec heap (s := { s with stopped := true }) sound.owned sound.matched

theorem holds_start : Holds (some start) :=
  ⟨start, rfl, .nil, fun _ there => (nomatch there), .of_not_busy (by simp [start])⟩

/-- A heap that keeps its items in the order of their due times -/
def dueFirst : Heap where
  arrange when l := l.insertionSort fun i j => when i ≤ when j
  perm when l := List.perm_insertionSort _ l
  first when l i head j there := by
    have : Std.Total fun i j => when i ≤ when j := ⟨fun _ _ => le_total _ _⟩
    have : IsTrans ℕ fun i j => when i ≤ when j := ⟨fun _ _ _ => le_trans⟩
    have sorted := List.pairwise_insertionSort (fun i j => when i ≤ when j) l
    obtain ⟨rest, shape⟩ := List.head?_eq_some_iff.1 head
    have sorts : j ∈ i :: rest := shape ▸ (List.mem_insertionSort _).2 there
    rw [shape, List.pairwise_cons] at sorted
    rcases List.mem_cons.1 sorts with rfl | later
    · exact le_rfl
    · exact sorted.1 j later

end Runs

end Epilog.Node.OutTasks
