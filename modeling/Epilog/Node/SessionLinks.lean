/- Module: Epilog/Node/SessionLinks
   source: src/src/node/connection.cpp (command_new, command_connect, command_kill, command_name,
     run, close), src/src/node/self_node.cpp (new_in_session, find_in_session, in_session_connect,
     kill_in_session, close, disconnect, prune_dead_connections), src/src/node/session.hpp
   digest: The pointers between sessions and connections over the life of a node. -/

import Epilog.Lib.FiniteMap
import Epilog.Lib.StepRuns

set_option autoImplicit false

namespace Epilog.Node.SessionLinks

open Epilog.Lib.FiniteMap Epilog.Lib.StepRuns

section Model

/-- Whether the socket has an operation under way, whose handler refers to the connection -/
inductive Io
  | pending
  /-- No reply was sent, and nothing is under way. -/
  | stalled
  | closed
  deriving DecidableEq

/-- `in_connection`; a pointer is the number of an allocation. -/
structure Conn where
  session : Option ℕ
  io : Io
  /-- How often it has been deleted -/
  deletions : ℕ

/-- `in_session_state` -/
structure Session where
  id : String
  connection : Option ℕ
  deleted : Bool

/-- All that was ever allocated, with the members `in_states_` and `closed_` of the node -/
structure State where
  conns : List Conn
  sessions : List Session
  inStates : FMap String ℕ
  closed : List ℕ

/-- The commands of a message, with the name of the atom that is the argument -/
inductive Command
  /-- The identifier of the session is chosen at random. -/
  | new (id : String)
  | connect (id : Option String)
  | kill (id : Option String)
  | name (name : Option String)
  /-- A query or another command, which uses the session and its connection -/
  | other

inductive Event
  | accept
  /-- The node makes a session for itself. -/
  | internal (id : String)
  /-- The handler of an operation of the connection is called: with the rest of a message, -/
  | message (c : ℕ) (command : Command)
  /-- or with an error. -/
  | fails (c : ℕ)
  | prune

namespace State

/-- The object at a pointer, if it has not been deleted; there is no behaviour to model otherwise. -/
def conn (s : State) (c : ℕ) : Option Conn := s.conns[c]?.filter (·.deletions = 0)

def session (s : State) (p : ℕ) : Option Session := s.sessions[p]?.filter (!·.deleted)

def modConn (s : State) (c : ℕ) (f : Conn → Conn) : State :=
  { s with conns := s.conns.modify c f }

def modSession (s : State) (p : ℕ) (f : Session → Session) : State :=
  { s with sessions := s.sessions.modify p f }

/-- `start_accept` -/
def accept (s : State) : State := { s with conns := s.conns ++ [⟨none, .pending, 0⟩] }

def newInSession (s : State) (conn : Option ℕ) (id : String) : State :=
  { s with
    sessions := s.sessions ++ [⟨id, conn, false⟩]
    inStates := s.inStates.insert id s.sessions.length }

def findInSession (s : State) (id : String) : Option ℕ := s.inStates.lookup id

/-- `disconnect`, which deletes the connection -/
def disconnect (s : State) (conn : Option ℕ) : Option State := do
  let c ← conn
  let _ ← s.conn c
  return s.modConn c fun k => { k with deletions := k.deletions + 1 }

def inSessionConnect (s : State) (sess c : ℕ) : Option State := do
  let old ← s.session sess
  if old.connection = some c then return s
  let s ← s.disconnect old.connection
  return s.modSession sess fun x => { x with connection := some c }

def killInSession (s : State) (sess : ℕ) : Option State := do
  let old ← s.session sess
  return { s with inStates := s.inStates.erase old.id }.modSession sess fun x =>
    { x with deleted := true }

/-- `command_new`; the connection is not attached to the session. -/
def commandNew (s : State) (c : ℕ) (id : String) : State := s.newInSession (some c) id

def commandConnect (s : State) (c : ℕ) (id : Option String) : Option State :=
  match id.bind s.findInSession with
  | none => some s
  | some sess => do
    let s ← s.inSessionConnect sess c
    return s.modConn c fun k => { k with session := some sess }

def commandKill (s : State) (c : ℕ) (id : Option String) : Option State :=
  match id.bind s.findInSession with
  | none => some s
  | some sess => do
    let s ← s.killInSession sess
    return s.modConn c fun k => { k with session := none }

/-- `command_name`; it does not reply, unless with an error. -/
def commandName (s : State) (c : ℕ) (name : Option String) : State :=
  if name.isSome then s.modConn c fun k => { k with io := .stalled } else s

/-- A query, whose builtins may ask for the connection of the session -/
def useSession (s : State) (k : Conn) : Option State :=
  match k.session with
  | none => some s
  | some p => do
    let x ← s.session p
    match x.connection with
    | none => return s
    | some c => do
      let _ ← s.conn c
      return s

def command (s : State) (c : ℕ) (k : Conn) : Command → Option State
  | .new id => s.commandNew c id
  | .connect id => s.commandConnect c id
  | .kill id => s.commandKill c id
  | .name name => s.commandName c name
  | .other => s.useSession k

def close (s : State) (c : ℕ) : State :=
  { s with closed := s.closed ++ [c] }.modConn c fun k => { k with io := .closed }

/-- A handler runs if its operation is under way, and uses the connection. -/
def handler (s : State) (c : ℕ) (run : Conn → Option State) : Option State :=
  if (s.conns[c]?.map (·.io)) = some .pending then (s.conn c).bind run else some s

/-- The body of the loop of `prune_dead_connections` -/
def pruneOne (s : State) (c : ℕ) : Option State := do
  let k ← s.conn c
  let s ← match k.session with
    | none => some s
    | some p => do
      let _ ← s.session p
      some (s.modSession p fun x => { x with connection := none })
  s.disconnect (some c)

def pruneDeadConnections (s : State) : Option State := do
  let s ← s.closed.foldlM pruneOne s
  return { s with closed := [] }

def event (s : State) : Event → Option State
  | .accept => s.accept
  | .internal id => s.newInSession none id
  | .message c command => s.handler c fun k => s.command c k command
  | .fails c => s.handler c fun _ => s.close c
  | .prune => s.pruneDeadConnections

end State

/-- The handlers run one at a time; there is no state after the use of a deleted object. -/
def step (s : Option State) (e : Event) : Option State := s.bind fun s => s.event e

/-- A node that has just started -/
def start : State := ⟨[], [], ∅, []⟩

end Model

section Statement

/-- A closed connection is deleted once, or still to be deleted once. -/
structure DeletedOnce (s : State) : Prop where
  once : s.closed.Nodup
  closed : ∀ c, c ∈ s.closed ↔ ∃ k : Conn, s.conns[c]? = some k ∧ k.io = .closed ∧ k.deletions = 0
  deletions : ∀ (c : ℕ) (k : Conn), s.conns[c]? = some k → k.deletions ≤ 1

/-- The pointers of what is not deleted do not refer to what is deleted. -/
structure Linked (s : State) : Prop where
  session : ∀ c k p, s.conn c = some k → k.session = some p → ∃ x, s.session p = some x
  connection : ∀ p x c, s.session p = some x → x.connection = some c → ∃ k, s.conn c = some k
  /-- A session is attached to at most one connection. -/
  one : ∀ c c' k k' p, s.conn c = some k → s.conn c' = some k' → k.session = some p →
    k'.session = some p → c = c'
  deletedOnce : DeletedOnce s

def Holds (s : Option State) : Prop := ∃ t, s = some t ∧ Linked t

/-- The connection may be taken over: it is open and that of no other session. -/
def MayTakeOver (s : State) (sess : ℕ) (conn : Option ℕ) : Prop :=
  ∃ o k, conn = some o ∧ s.conns[o]? = some k ∧ k.io ≠ .closed ∧
    ∀ p x, p ≠ sess → s.session p = some x → x.connection ≠ some o

def CommandMeets (s : State) (c : ℕ) : Command → Prop
  | .connect id => ∀ sess x, id.bind s.findInSession = some sess → s.session sess = some x →
      x.connection ≠ some c → MayTakeOver s sess x.connection
  -- No other connection is attached to the session.
  | .kill id => ∀ sess, id.bind s.findInSession = some sess → ∀ c' k, c' ≠ c →
      s.conn c' = some k → k.session ≠ some sess
  | _ => True

/-- The condition on an event: a handler is not that of a connection that was deleted in the
meantime, and a connection that is pruned is attached to each session whose connection it is. -/
def Meets (s : State) : Event → Prop
  | .message c command => ∀ k, s.conns[c]? = some k → k.io = .pending →
      k.deletions = 0 ∧ CommandMeets s c command
  | .fails c => ∀ k, s.conns[c]? = some k → k.io = .pending → k.deletions = 0
  | .prune => ∀ p x c k, s.session p = some x → x.connection = some c → c ∈ s.closed →
      s.conns[c]? = some k → k.session = some p
  | _ => True

end Statement

section Accessors

variable {s : State}

theorem conn_eq_some {c : ℕ} {k : Conn} :
    s.conn c = some k ↔ s.conns[c]? = some k ∧ k.deletions = 0 := by
  rw [State.conn, Option.filter_eq_some_iff, decide_eq_true_eq]

theorem session_eq_some {p : ℕ} {x : Session} :
    s.session p = some x ↔ s.sessions[p]? = some x ∧ x.deleted = false := by
  rw [State.session, Option.filter_eq_some_iff, Bool.not_eq_true']

theorem getElem?_modConn (c i : ℕ) (f : Conn → Conn) :
    (s.modConn c f).conns[i]? = if i = c then s.conns[i]?.map f else s.conns[i]? := by
  unfold State.modConn
  rw [List.getElem?_modify]
  split_ifs with same other other
  · rfl
  · exact absurd same.symm other
  · exact absurd other.symm same
  · exact congrFun Option.map_id _

theorem getElem?_modSession (p i : ℕ) (f : Session → Session) :
    (s.modSession p f).sessions[i]? = if i = p then s.sessions[i]?.map f else s.sessions[i]? := by
  unfold State.modSession
  rw [List.getElem?_modify]
  split_ifs with same other other
  · rfl
  · exact absurd same.symm other
  · exact absurd other.symm same
  · exact congrFun Option.map_id _

@[simp] theorem session_modConn (c p : ℕ) (f : Conn → Conn) :
    (s.modConn c f).session p = s.session p := rfl

@[simp] theorem conn_modSession (p c : ℕ) (f : Session → Session) :
    (s.modSession p f).conn c = s.conn c := rfl

theorem conn_modConn {f : Conn → Conn} (keeps : ∀ k, (f k).deletions = k.deletions) (c i : ℕ) :
    (s.modConn c f).conn i = if i = c then (s.conn i).map f else s.conn i := by
  unfold State.conn
  rw [getElem?_modConn]
  split_ifs
  · cases found : s.conns[i]? with
    | none => rfl
    | some k => by_cases live : k.deletions = 0 <;> simp [Option.filter, live, keeps]
  · rfl

theorem conn_delete (c i : ℕ) :
    (s.modConn c fun k => { k with deletions := k.deletions + 1 }).conn i =
      if i = c then none else s.conn i := by
  unfold State.conn
  rw [getElem?_modConn]
  split_ifs
  · cases found : s.conns[i]? with
    | none => rfl
    | some k => simp
  · rfl

theorem session_modSession {f : Session → Session} (keeps : ∀ x, (f x).deleted = x.deleted)
    (p i : ℕ) : (s.modSession p f).session i =
      if i = p then (s.session i).map f else s.session i := by
  unfold State.session
  rw [getElem?_modSession]
  split_ifs
  · cases found : s.sessions[i]? with
    | none => rfl
    | some x => by_cases live : x.deleted = true <;> simp [Option.filter, live, keeps]
  · rfl

theorem session_delete (p i : ℕ) :
    (s.modSession p fun x => { x with deleted := true }).session i =
      if i = p then none else s.session i := by
  unfold State.session
  rw [getElem?_modSession]
  split_ifs
  · cases found : s.sessions[i]? with
    | none => rfl
    | some x => simp
  · rfl

theorem getElem?_concat {α : Type} (l : List α) (a : α) (i : ℕ) :
    (l ++ [a])[i]? = if i = l.length then some a else l[i]? := by
  grind

theorem conn_accept (i : ℕ) :
    s.accept.conn i = if i = s.conns.length then some ⟨none, .pending, 0⟩ else s.conn i := by
  unfold State.conn State.accept
  dsimp only
  rw [getElem?_concat]
  split_ifs <;> rfl

theorem session_newInSession (conn : Option ℕ) (id : String) (i : ℕ) :
    (s.newInSession conn id).session i =
      if i = s.sessions.length then some ⟨id, conn, false⟩ else s.session i := by
  unfold State.session State.newInSession
  dsimp only
  rw [getElem?_concat]
  split_ifs <;> rfl

theorem session_length : s.session s.sessions.length = none := by
  rw [State.session, List.getElem?_eq_none (Nat.le_refl _)]
  rfl

end Accessors

section Deletions

variable {s : State}

theorem DeletedOnce.accept (deleted : DeletedOnce s) : DeletedOnce s.accept where
  once := deleted.once
  closed c := by
    change c ∈ s.closed ↔ _
    rw [deleted.closed, State.accept, getElem?_concat]
    split_ifs with last
    · subst last
      rw [List.getElem?_eq_none (Nat.le_refl _)]
      constructor
      · rintro ⟨_, missing, _⟩
        exact nomatch missing
      · rintro ⟨k, new, closed, _⟩
        cases new
        exact nomatch closed
    · rfl
  deletions c k found := by
    rw [State.accept, getElem?_concat] at found
    split_ifs at found
    · cases found
      exact Nat.zero_le 1
    · exact deleted.deletions c k found

theorem DeletedOnce.modConn (deleted : DeletedOnce s) {c : ℕ} {f : Conn → Conn}
    (keeps : ∀ k, s.conns[c]? = some k → ((f k).io = .closed ↔ k.io = .closed) ∧
      (f k).deletions = k.deletions) : DeletedOnce (s.modConn c f) where
  once := deleted.once
  closed c' := by
    change c' ∈ s.closed ↔ _
    rw [deleted.closed, getElem?_modConn]
    split_ifs with same
    · subst same
      constructor
      · rintro ⟨k, found, closed, live⟩
        obtain ⟨io, deletions⟩ := keeps k found
        exact ⟨f k, by rw [found, Option.map_some], io.2 closed, deletions.trans live⟩
      · rintro ⟨_, found, closed, live⟩
        obtain ⟨k, before, rfl⟩ := Option.map_eq_some_iff.1 found
        obtain ⟨io, deletions⟩ := keeps k before
        exact ⟨k, before, io.1 closed, deletions.symm.trans live⟩
    · rfl
  deletions c' k found := by
    rw [getElem?_modConn] at found
    split_ifs at found with same
    · subst same
      obtain ⟨k, before, rfl⟩ := Option.map_eq_some_iff.1 found
      rw [(keeps k before).2]
      exact deleted.deletions c' k before
    · exact deleted.deletions c' k found

theorem DeletedOnce.close (deleted : DeletedOnce s) {c : ℕ} {k : Conn} (live : s.conn c = some k)
    (opened : k.io ≠ .closed) : DeletedOnce (s.close c) := by
  obtain ⟨found, deletions⟩ := conn_eq_some.1 live
  have fresh : c ∉ s.closed := fun mem => by
    obtain ⟨k', found', closed, _⟩ := (deleted.closed c).1 mem
    cases found.symm.trans found'
    exact opened closed
  refine ⟨?_, fun c' => ?_, fun c' k' found' => ?_⟩
  · exact List.nodup_append.2 ⟨deleted.once, List.nodup_singleton c, fun a mem b mem' => by
      rw [List.mem_singleton.1 mem']
      rintro rfl
      exact fresh mem⟩
  · change c' ∈ s.closed ++ [c] ↔ _
    rw [List.mem_append, List.mem_singleton, deleted.closed, State.close, getElem?_modConn]
    split_ifs with same
    · subst same
      dsimp only
      rw [found]
      exact iff_of_true (.inr rfl) ⟨_, rfl, rfl, deletions⟩
    · exact or_iff_left same
  · rw [State.close, getElem?_modConn] at found'
    split_ifs at found' with same
    · obtain ⟨k', before, rfl⟩ := Option.map_eq_some_iff.1 found'
      exact deleted.deletions c' k' before
    · exact deleted.deletions c' k' found'

theorem DeletedOnce.not_closed {s' : State} (deleted : DeletedOnce s) (after : DeletedOnce s')
    (same : s'.closed = s.closed) {c : ℕ} {k : Conn} (live : s.conn c = some k)
    (gone : s'.conn c = none) : k.io ≠ .closed := by
  obtain ⟨found, deletions⟩ := conn_eq_some.1 live
  intro closed
  have mem := (deleted.closed c).2 ⟨k, found, closed, deletions⟩
  obtain ⟨k', found', _, deletions'⟩ := (after.closed c).1 (same ▸ mem)
  rw [conn_eq_some.2 ⟨found', deletions'⟩] at gone
  exact nomatch gone

theorem DeletedOnce.delete (deleted : DeletedOnce s) {c : ℕ} {k : Conn} (live : s.conn c = some k)
    (opened : k.io ≠ .closed) :
    DeletedOnce (s.modConn c fun k => { k with deletions := k.deletions + 1 }) := by
  obtain ⟨found, deletions⟩ := conn_eq_some.1 live
  refine ⟨deleted.once, fun c' => ?_, fun c' k' found' => ?_⟩
  · change c' ∈ s.closed ↔ _
    rw [deleted.closed, getElem?_modConn]
    split_ifs with same
    · subst same
      rw [found]
      constructor
      · rintro ⟨_, same, closed, _⟩
        cases same
        exact absurd closed opened
      · rintro ⟨_, same, closed, _⟩
        cases same
        exact absurd closed opened
    · rfl
  · rw [getElem?_modConn] at found'
    split_ifs at found' with same
    · subst same
      rw [found] at found'
      cases found'
      exact Nat.le_of_eq (congrArg (· + 1) deletions)
    · exact deleted.deletions c' k' found'

end Deletions

section Steps

/-- What the events keep as long as the pointers are good -/
structure Backlinked (s : State) : Prop where
  /-- The session that a connection is attached to refers to it. -/
  back : ∀ c k p, s.conn c = some k → k.session = some p →
    ∃ x, s.sessions[p]? = some x ∧ x.connection = some c
  registered : ∀ id p, s.findInSession id = some p → ∃ x, s.session p = some x ∧ x.id = id

variable {s : State}

theorem Backlinked.linked (back : Backlinked s)
    (session : ∀ c k p, s.conn c = some k → k.session = some p → ∃ x, s.session p = some x)
    (connection : ∀ p x c, s.session p = some x → x.connection = some c → ∃ k, s.conn c = some k)
    (deletedOnce : DeletedOnce s) : Linked s := by
  refine ⟨session, connection, fun c c' k k' p found found' attached attached' => ?_, deletedOnce⟩
  obtain ⟨x, there, refers⟩ := back.back c k p found attached
  obtain ⟨x', there', refers'⟩ := back.back c' k' p found' attached'
  cases there.symm.trans there'
  exact Option.some.inj (refers.symm.trans refers')

theorem Backlinked.accept (back : Backlinked s) : Backlinked s.accept where
  back c k p found attached := by
    rw [conn_accept] at found
    split_ifs at found
    · cases found
      exact nomatch attached
    · exact back.back c k p found attached
  registered := back.registered

theorem Linked.accept (linked : Linked s) (back : Backlinked s) : Linked s.accept := by
  refine back.accept.linked (fun c k p found attached => ?_) (fun p x c found connected => ?_)
    linked.deletedOnce.accept
  · rw [conn_accept] at found
    split_ifs at found
    · cases found
      exact nomatch attached
    · exact linked.session c k p found attached
  · obtain ⟨k, live⟩ := linked.connection p x c found connected
    rw [conn_accept]
    split_ifs
    · exact ⟨_, rfl⟩
    · exact ⟨k, live⟩

theorem Backlinked.newInSession (back : Backlinked s) (conn : Option ℕ) (id : String) :
    Backlinked (s.newInSession conn id) where
  back c k p found attached := by
    obtain ⟨x, there, connected⟩ := back.back c k p found attached
    refine ⟨x, ?_, connected⟩
    rw [State.newInSession, getElem?_concat, if_neg, there]
    rintro rfl
    rw [List.getElem?_eq_none (Nat.le_refl _)] at there
    exact nomatch there
  registered id' p found := by
    rw [State.findInSession, State.newInSession, lookup_insert_ite] at found
    split_ifs at found with same
    · cases found
      rw [session_newInSession, if_pos rfl]
      exact ⟨_, rfl, same.symm⟩
    · obtain ⟨x, there, named⟩ := back.registered id' p found
      rw [session_newInSession, if_neg]
      · exact ⟨x, there, named⟩
      · rintro rfl
        rw [session_length] at there
        exact nomatch there

theorem Linked.newInSession (linked : Linked s) (back : Backlinked s) {conn : Option ℕ}
    (live : ∀ c, conn = some c → ∃ k, s.conn c = some k) (id : String) :
    Linked (s.newInSession conn id) := by
  obtain ⟨once, closed, deletions⟩ := linked.deletedOnce
  refine (back.newInSession conn id).linked (fun c k p found attached => ?_)
    (fun p x c found connected => ?_) ⟨once, closed, deletions⟩
  · obtain ⟨x, there⟩ := linked.session c k p found attached
    rw [session_newInSession]
    split_ifs
    · exact ⟨_, rfl⟩
    · exact ⟨x, there⟩
  · rw [session_newInSession] at found
    split_ifs at found
    · cases found
      exact live c connected
    · exact linked.connection p x c found connected

/-- The connections refer to the same sessions in two states. -/
def SameLinks (s s' : State) : Prop :=
  (∀ c, (s'.conn c).map (·.session) = (s.conn c).map (·.session)) ∧ s'.sessions = s.sessions ∧
    s'.inStates = s.inStates

theorem sameLinks_modConn {c : ℕ} {f : Conn → Conn}
    (keeps : ∀ k, (f k).session = k.session ∧ (f k).deletions = k.deletions) :
    SameLinks s (s.modConn c f) := by
  refine ⟨fun c' => ?_, rfl, rfl⟩
  rw [conn_modConn fun k => (keeps k).2]
  split_ifs
  · rw [Option.map_map]
    exact congrFun (congrArg Option.map (funext fun k => (keeps k).1)) _
  · rfl

theorem SameLinks.conn {s' : State} (same : SameLinks s s') {c : ℕ} {k : Conn}
    (found : s'.conn c = some k) : ∃ k', s.conn c = some k' ∧ k'.session = k.session := by
  have map := same.1 c
  rw [found, Option.map_some] at map
  exact Option.map_eq_some_iff.1 map.symm

theorem SameLinks.symm {s' : State} (same : SameLinks s s') : SameLinks s' s :=
  ⟨fun c => (same.1 c).symm, same.2.1.symm, same.2.2.symm⟩

theorem SameLinks.session {s' : State} (same : SameLinks s s') (p : ℕ) :
    s'.session p = s.session p := by
  rw [State.session, State.session, same.2.1]

theorem Backlinked.same {s' : State} (back : Backlinked s) (same : SameLinks s s') :
    Backlinked s' where
  back c k p found attached := by
    obtain ⟨k', found', session⟩ := same.conn found
    rw [same.2.1]
    exact back.back c k' p found' (session.trans attached)
  registered id p found := by
    rw [same.session]
    rw [State.findInSession, same.2.2] at found
    exact back.registered id p found

theorem Linked.same {s' : State} (linked : Linked s) (back : Backlinked s)
    (same : SameLinks s s') (deletedOnce : DeletedOnce s') : Linked s' := by
  refine (back.same same).linked (fun c k p found attached => ?_)
    (fun p x c found connected => ?_) deletedOnce
  · obtain ⟨k', found', session⟩ := same.conn found
    rw [same.session]
    exact linked.session c k' p found' (session.trans attached)
  · rw [same.session] at found
    obtain ⟨k, live⟩ := linked.connection p x c found connected
    obtain ⟨k', live', _⟩ := same.symm.conn live
    exact ⟨k', live'⟩

/-- A connection is attached to a session that refers to it. -/
def State.attach (s : State) (c p : ℕ) : State :=
  s.modConn c fun k => { k with session := some p }

theorem conn_attach (c p i : ℕ) : (s.attach c p).conn i =
    if i = c then (s.conn i).map fun k => { k with session := some p } else s.conn i := by
  unfold State.attach
  rw [conn_modConn]
  exact fun _ => rfl

theorem Backlinked.attach (back : Backlinked s) {c p : ℕ} {x : Session}
    (found : s.session p = some x) (connected : x.connection = some c) :
    Backlinked (s.attach c p) where
  back c' k p' found' attached := by
    rw [conn_attach] at found'
    split_ifs at found' with same
    · obtain ⟨_, _, rfl⟩ := Option.map_eq_some_iff.1 found'
      cases attached
      exact ⟨x, (session_eq_some.1 found).1, same ▸ connected⟩
    · exact back.back c' k p' found' attached
  registered := back.registered

theorem Linked.attach (linked : Linked s) (back : Backlinked s) {c p : ℕ} {x : Session}
    (found : s.session p = some x) (connected : x.connection = some c) :
    Linked (s.attach c p) := by
  refine (back.attach found connected).linked (fun c' k p' found' attached => ?_)
    (fun p' x' c' found' connected' => ?_)
    (linked.deletedOnce.modConn fun _ _ => ⟨Iff.rfl, rfl⟩)
  · rw [conn_attach] at found'
    split_ifs at found'
    · obtain ⟨_, _, rfl⟩ := Option.map_eq_some_iff.1 found'
      cases attached
      exact ⟨x, found⟩
    · exact linked.session c' k p' found' attached
  · obtain ⟨k, live⟩ := linked.connection p' x' c' found' connected'
    rw [conn_attach, live]
    split_ifs
    · exact ⟨_, rfl⟩
    · exact ⟨k, rfl⟩

/-- A session comes to refer to another connection than the one it had, which is deleted. -/
def State.handOver (s : State) (p o c : ℕ) : State :=
  (s.modConn o fun k => { k with deletions := k.deletions + 1 }).modSession p fun x =>
    { x with connection := some c }

theorem conn_handOver (p o c i : ℕ) :
    (s.handOver p o c).conn i = if i = o then none else s.conn i :=
  conn_delete o i

theorem session_handOver (p o c i : ℕ) : (s.handOver p o c).session i =
    if i = p then (s.session i).map fun x => { x with connection := some c } else s.session i := by
  unfold State.handOver
  rw [session_modSession, session_modConn]
  exact fun _ => rfl

variable {p o c : ℕ} {x : Session}

theorem Backlinked.handOver (back : Backlinked s) (found : s.session p = some x)
    (connected : x.connection = some o) : Backlinked (s.handOver p o c) where
  back c' k p' found' attached := by
    rw [conn_handOver] at found'
    split_ifs at found' with apart
    obtain ⟨x', there, refers⟩ := back.back c' k p' found' attached
    refine ⟨x', ?_, refers⟩
    rw [State.handOver, getElem?_modSession, if_neg]
    · exact there
    · rintro rfl
      cases (session_eq_some.1 found).1.symm.trans there
      exact apart (Option.some.inj (refers.symm.trans connected))
  registered id p' named := by
    obtain ⟨x', there, id⟩ := back.registered id p' named
    rw [session_handOver, there]
    split_ifs
    · exact ⟨_, rfl, id⟩
    · exact ⟨x', rfl, id⟩

theorem linked_handOver_iff (linked : Linked s) (back : Backlinked s) (found : s.session p = some x)
    (connected : x.connection = some o) (live : ∃ k, s.conn c = some k) (apart : c ≠ o) :
    Linked ((s.handOver p o c).attach c p) ↔ MayTakeOver s p (some o) := by
  have same : (s.handOver p o c).session p = some { x with connection := some c } := by
    rw [session_handOver, if_pos rfl, found, Option.map_some]
  obtain ⟨k, live'⟩ := linked.connection p x o found connected
  have gone : ((s.handOver p o c).attach c p).conn o = none := by
    rw [conn_attach, if_neg apart.symm, conn_handOver, if_pos rfl]
  constructor
  · intro after
    refine ⟨o, k, rfl, (conn_eq_some.1 live').1,
      linked.deletedOnce.not_closed after.deletedOnce rfl live' gone,
      fun p' x' other found' connected' => ?_⟩
    have stays : (s.handOver p o c).session p' = some x' := by
      rw [session_handOver, if_neg other, found']
    obtain ⟨k', dangling⟩ := after.connection p' x' o stays connected'
    rw [gone] at dangling
    exact nomatch dangling
  · rintro ⟨o', k', same', there, opened, others⟩
    obtain rfl := Option.some.inj same'
    cases (conn_eq_some.1 live').1.symm.trans there
    obtain ⟨once, closed, deletions⟩ := linked.deletedOnce.delete live' opened
    refine Linked.attach ?_ (back.handOver found connected) same rfl
    refine (back.handOver found connected).linked (fun c' k p' found' attached => ?_)
      (fun p' x' c' found' connected' => ?_) ⟨once, closed, deletions⟩
    · rw [conn_handOver] at found'
      split_ifs at found'
      obtain ⟨x', there⟩ := linked.session c' k p' found' attached
      rw [session_handOver, there]
      split_ifs
      · exact ⟨_, rfl⟩
      · exact ⟨x', rfl⟩
    · rw [session_handOver] at found'
      rw [conn_handOver]
      split_ifs at found' with here
      · obtain ⟨_, _, rfl⟩ := Option.map_eq_some_iff.1 found'
        cases connected'
        rw [if_neg apart]
        exact live
      · have other : c' ≠ o := by
          rintro rfl
          exact others p' x' here found' connected'
        rw [if_neg other]
        exact linked.connection p' x' c' found' connected'

/-- A session is deleted, and the connection that asks for it is attached to none. -/
def State.detach (s : State) (p c : ℕ) (id : String) : State :=
  ({ s with inStates := s.inStates.erase id }.modSession p fun x =>
    { x with deleted := true }).modConn c fun k => { k with session := none }

theorem conn_detach (p c : ℕ) (id : String) (i : ℕ) : (s.detach p c id).conn i =
    if i = c then (s.conn i).map fun k => { k with session := none } else s.conn i := by
  unfold State.detach
  rw [conn_modConn]
  · rfl
  · exact fun _ => rfl

theorem session_detach (p c : ℕ) (id : String) (i : ℕ) :
    (s.detach p c id).session i = if i = p then none else s.session i :=
  session_delete p i

theorem Backlinked.detach (back : Backlinked s) (found : s.session p = some x) :
    Backlinked (s.detach p c x.id) where
  back c' k p' found' attached := by
    rw [conn_detach] at found'
    split_ifs at found'
    · obtain ⟨_, _, rfl⟩ := Option.map_eq_some_iff.1 found'
      exact nomatch attached
    · obtain ⟨x', there, refers⟩ := back.back c' k p' found' attached
      rw [State.detach, State.modConn, getElem?_modSession, there]
      split_ifs
      · exact ⟨_, rfl, refers⟩
      · exact ⟨x', rfl, refers⟩
  registered id p' named := by
    rw [State.findInSession, State.detach, State.modConn, State.modSession, lookup_erase_ite] at named
    split_ifs at named with other
    obtain ⟨x', there, rfl⟩ := back.registered id p' named
    rw [session_detach, if_neg]
    · exact ⟨x', there, rfl⟩
    · rintro rfl
      cases there.symm.trans found
      exact other rfl

theorem linked_detach_iff (linked : Linked s) (back : Backlinked s) (found : s.session p = some x) :
    Linked (s.detach p c x.id) ↔ ∀ c' k, c' ≠ c → s.conn c' = some k → k.session ≠ some p := by
  constructor
  · intro after c' k other live attached
    obtain ⟨x', dangling⟩ := after.session c' k p (by rw [conn_detach, if_neg other, live]) attached
    rw [session_detach, if_pos rfl] at dangling
    exact nomatch dangling
  · intro others
    have deletedOnce : DeletedOnce (s.modConn c fun k => { k with session := none }) :=
      linked.deletedOnce.modConn fun _ _ => ⟨Iff.rfl, rfl⟩
    obtain ⟨once, closed, deletions⟩ := deletedOnce
    refine (back.detach found).linked (fun c' k p' found' attached => ?_)
      (fun p' x' c' found' connected => ?_) ⟨once, closed, deletions⟩
    · rw [conn_detach] at found'
      split_ifs at found' with same
      · obtain ⟨_, _, rfl⟩ := Option.map_eq_some_iff.1 found'
        exact nomatch attached
      · have apart : p' ≠ p := by
          rintro rfl
          exact others c' k same found' attached
        rw [session_detach, if_neg apart]
        exact linked.session c' k p' found' attached
    · rw [session_detach] at found'
      split_ifs at found'
      obtain ⟨k, live⟩ := linked.connection p' x' c' found' connected
      rw [conn_detach, live]
      split_ifs
      · exact ⟨_, rfl⟩
      · exact ⟨k, rfl⟩

end Steps

section Prune

variable {s : State}

/-- A connection of the list is attached to the session. -/
def Attached (s : State) (l : List ℕ) (p : ℕ) : Prop :=
  ∃ c ∈ l, ∃ k, s.conn c = some k ∧ k.session = some p

/-- What pruning the connections of a list leaves -/
structure Pruned (s : State) (l : List ℕ) (s' : State) : Prop where
  conns : ∀ i, s'.conns[i]? = if i ∈ l then s.conns[i]?.map fun k =>
    { k with deletions := k.deletions + 1 } else s.conns[i]?
  attached : ∀ p, Attached s l p →
    s'.sessions[p]? = s.sessions[p]?.map fun x => { x with connection := none }
  kept : ∀ p, ¬ Attached s l p → s'.sessions[p]? = s.sessions[p]?
  inStates : s'.inStates = s.inStates

theorem Pruned.conn {s' : State} {l : List ℕ} (pruned : Pruned s l s') (c : ℕ) :
    s'.conn c = if c ∈ l then none else s.conn c := by
  unfold State.conn
  rw [pruned.conns]
  split_ifs
  · cases s.conns[c]? with
    | none => rfl
    | some k => simp
  · rfl

theorem Pruned.live {s' : State} {l : List ℕ} (pruned : Pruned s l s') {p : ℕ} {x : Session}
    (found : s.session p = some x) : ∃ x', s'.session p = some x' ∧ x'.id = x.id := by
  obtain ⟨there, live⟩ := session_eq_some.1 found
  by_cases attached : Attached s l p
  · refine ⟨{ x with connection := none }, session_eq_some.2 ⟨?_, live⟩, rfl⟩
    rw [pruned.attached p attached, there, Option.map_some]
  · refine ⟨x, session_eq_some.2 ⟨?_, live⟩, rfl⟩
    rw [pruned.kept p attached, there]

theorem Pruned.connected {s' : State} {l : List ℕ} (pruned : Pruned s l s') {p c : ℕ}
    {x : Session} (found : s'.session p = some x) (connected : x.connection = some c) :
    ¬ Attached s l p ∧ s.session p = some x := by
  obtain ⟨there, live⟩ := session_eq_some.1 found
  have kept : ¬ Attached s l p := fun attached => by
    rw [pruned.attached p attached] at there
    obtain ⟨_, _, rfl⟩ := Option.map_eq_some_iff.1 there
    exact nomatch connected
  rw [pruned.kept p kept] at there
  exact ⟨kept, session_eq_some.2 ⟨there, live⟩⟩

theorem pruneOne_spec {c : ℕ} {k : Conn} (live : s.conn c = some k)
    (good : ∀ p, k.session = some p → ∃ x, s.session p = some x) :
    ∃ s', s.pruneOne c = some s' ∧ s'.closed = s.closed ∧ Pruned s [c] s' := by
  have only {p : ℕ} : Attached s [c] p ↔ k.session = some p := by
    constructor
    · rintro ⟨c', mem, k', found, attached⟩
      cases List.mem_singleton.1 mem
      cases live.symm.trans found
      exact attached
    · exact fun attached => ⟨c, List.mem_singleton_self c, k, live, attached⟩
  unfold State.pruneOne
  rw [live]
  cases attached : k.session with
  | none =>
    refine ⟨s.modConn c fun k => { k with deletions := k.deletions + 1 }, ?_, rfl,
      fun i => ?_, fun p other => ?_, fun p _ => rfl, rfl⟩
    · simp [State.disconnect, live, attached]
    · rw [getElem?_modConn]
      simp only [List.mem_singleton]
    · rw [only, attached] at other
      exact nomatch other
  | some p =>
    obtain ⟨x, found⟩ := good p attached
    refine ⟨(s.modSession p fun x => { x with connection := none }).modConn c fun k =>
      { k with deletions := k.deletions + 1 }, ?_, rfl, fun i => ?_, fun p' same => ?_,
      fun p' other => ?_, rfl⟩
    · simp [State.disconnect, live, attached, found]
    · rw [getElem?_modConn]
      simp only [List.mem_singleton]
      rfl
    · rw [only, attached] at same
      cases same
      exact (getElem?_modSession p p _).trans (if_pos rfl)
    · rw [only, attached] at other
      exact (getElem?_modSession p p' _).trans (if_neg fun same => other (congrArg some same.symm))

theorem foldlM_pruneOne {l : List ℕ} (nodup : l.Nodup)
    (live : ∀ c ∈ l, ∃ k, s.conn c = some k)
    (good : ∀ c ∈ l, ∀ k p, s.conn c = some k → k.session = some p → ∃ x, s.session p = some x) :
    ∃ s', l.foldlM State.pruneOne s = some s' ∧ s'.closed = s.closed ∧ Pruned s l s' := by
  induction l generalizing s with
  | nil =>
    refine ⟨s, rfl, rfl, fun i => (if_neg List.not_mem_nil).symm, fun p attached => ?_,
      fun p _ => rfl, rfl⟩
    obtain ⟨c, mem, _⟩ := attached
    exact absurd mem List.not_mem_nil
  | cons c l ih =>
    obtain ⟨fresh, nodup⟩ := List.nodup_cons.1 nodup
    obtain ⟨k, here⟩ := live c List.mem_cons_self
    obtain ⟨s₁, first, closed₁, pruned₁⟩ := pruneOne_spec here fun p =>
      good c List.mem_cons_self k p here
    have later {c' : ℕ} (mem : c' ∈ l) : s₁.conn c' = s.conn c' := by
      rw [pruned₁.conn, if_neg]
      rw [List.mem_singleton]
      rintro rfl
      exact fresh mem
    obtain ⟨s₂, rest, closed₂, pruned₂⟩ := ih nodup
      (fun c' mem => by
        rw [later mem]
        exact live c' (List.mem_cons_of_mem c mem))
      (fun c' mem k p found attached => by
        rw [later mem] at found
        obtain ⟨x, there⟩ := good c' (List.mem_cons_of_mem c mem) k p found attached
        obtain ⟨x', there', _⟩ := pruned₁.live there
        exact ⟨x', there'⟩)
    have split {p : ℕ} : Attached s (c :: l) p ↔ Attached s [c] p ∨ Attached s₁ l p := by
      constructor
      · rintro ⟨c', mem, found⟩
        rcases List.mem_cons.1 mem with rfl | mem
        · exact .inl ⟨c', List.mem_singleton_self c', found⟩
        · exact .inr ⟨c', mem, by rwa [later mem]⟩
      · rintro (⟨c', mem, found⟩ | ⟨c', mem, found⟩)
        · exact ⟨c', List.mem_cons.2 (.inl (List.mem_singleton.1 mem)), found⟩
        · exact ⟨c', List.mem_cons_of_mem c mem, by rwa [later mem] at found⟩
    refine ⟨s₂, ?_, closed₂.trans closed₁, fun i => ?_, fun p attached => ?_, fun p apart => ?_,
      pruned₂.inStates.trans pruned₁.inStates⟩
    · rw [List.foldlM_cons, first]
      exact rest
    · rw [pruned₂.conns, pruned₁.conns]
      simp only [List.mem_cons, List.not_mem_nil, or_false]
      by_cases same : i = c
      · rw [same, if_neg fresh, if_pos rfl, if_pos (.inl rfl)]
      · simp only [same, false_or, if_false]
    · by_cases second : Attached s₁ l p
      · rw [pruned₂.attached p second]
        by_cases once : Attached s [c] p
        · rw [pruned₁.attached p once, Option.map_map]
          rfl
        · rw [pruned₁.kept p once]
      · rw [pruned₂.kept p second]
        exact pruned₁.attached p ((split.1 attached).resolve_right second)
    · rw [split, not_or] at apart
      rw [pruned₂.kept p apart.2, pruned₁.kept p apart.1]

theorem pruneDeadConnections_spec (linked : Linked s) :
    ∃ s', s.pruneDeadConnections = some s' ∧ s'.closed = [] ∧ Pruned s s.closed s' := by
  obtain ⟨s', fold, _, pruned⟩ := foldlM_pruneOne linked.deletedOnce.once
    (fun c mem => by
      obtain ⟨k, found, _, live⟩ := (linked.deletedOnce.closed c).1 mem
      exact ⟨k, conn_eq_some.2 ⟨found, live⟩⟩)
    (fun c _ => linked.session c)
  obtain ⟨conns, attached, kept, inStates⟩ := pruned
  refine ⟨{ s' with closed := [] }, ?_, rfl, conns, attached, kept, inStates⟩
  rw [State.pruneDeadConnections, fold]
  rfl

theorem Pruned.backlinked {s' : State} (pruned : Pruned s s.closed s') (back : Backlinked s) :
    Backlinked s' where
  back c k p found attached := by
    rw [pruned.conn] at found
    split_ifs at found with out
    obtain ⟨x, there, refers⟩ := back.back c k p found attached
    refine ⟨x, ?_, refers⟩
    rw [pruned.kept, there]
    rintro ⟨c', mem, k', found', attached'⟩
    obtain ⟨x', there', refers'⟩ := back.back c' k' p found' attached'
    cases there.symm.trans there'
    cases refers.symm.trans refers'
    exact out mem
  registered id p named := by
    rw [State.findInSession, pruned.inStates] at named
    obtain ⟨x, there, rfl⟩ := back.registered id p named
    exact pruned.live there

theorem Pruned.linked_iff {s' : State} (pruned : Pruned s s.closed s') (closed : s'.closed = [])
    (linked : Linked s) (back : Backlinked s) : Linked s' ↔ Meets s .prune := by
  constructor
  · intro after p x c k found connected mem there
    by_contra other
    have kept : ¬ Attached s s.closed p := by
      rintro ⟨c', _, k', found', attached⟩
      obtain ⟨x', there', refers⟩ := back.back c' k' p found' attached
      cases (session_eq_some.1 found).1.symm.trans there'
      cases connected.symm.trans refers
      cases there.symm.trans (conn_eq_some.1 found').1
      exact other attached
    obtain ⟨there', live⟩ := session_eq_some.1 found
    rw [← pruned.kept p kept] at there'
    obtain ⟨k', dangling⟩ := after.connection p x c (session_eq_some.2 ⟨there', live⟩) connected
    rw [pruned.conn, if_pos mem] at dangling
    exact nomatch dangling
  · intro told
    refine (pruned.backlinked back).linked (fun c k p found attached => ?_)
      (fun p x c found connected => ?_) ⟨?_, fun c => ?_, fun c k found => ?_⟩
    · rw [pruned.conn] at found
      split_ifs at found
      obtain ⟨x, there⟩ := linked.session c k p found attached
      obtain ⟨x', there', _⟩ := pruned.live there
      exact ⟨x', there'⟩
    · obtain ⟨kept, there⟩ := pruned.connected found connected
      obtain ⟨k, live⟩ := linked.connection p x c there connected
      refine ⟨k, ?_⟩
      rw [pruned.conn, if_neg, live]
      exact fun mem => kept ⟨c, mem, k, live,
        told p x c k there connected mem (conn_eq_some.1 live).1⟩
    · rw [closed]
      exact List.nodup_nil
    · rw [closed]
      refine iff_of_false List.not_mem_nil ?_
      rintro ⟨k, found, io, live⟩
      have there := conn_eq_some.2 ⟨found, live⟩
      rw [pruned.conn] at there
      split_ifs at there with out
      obtain ⟨found', live'⟩ := conn_eq_some.1 there
      exact out ((linked.deletedOnce.closed c).2 ⟨k, found', io, live'⟩)
    · rw [pruned.conns] at found
      split_ifs at found with mem
      · obtain ⟨k', there, rfl⟩ := Option.map_eq_some_iff.1 found
        obtain ⟨k'', there', _, live⟩ := (linked.deletedOnce.closed c).1 mem
        cases there.symm.trans there'
        exact Nat.le_of_eq (congrArg (· + 1) live)
      · exact linked.deletedOnce.deletions c k found

end Prune

section Events

variable {s : State} {c : ℕ} {k : Conn}

/-- What an event leaves, if the pointers are good before: good pointers exactly when the condition
is met, and in any case what the events keep -/
def Kept (after : Option State) (meets : Prop) : Prop :=
  (Holds after ↔ meets) ∧ ∀ t, after = some t → Backlinked t

theorem kept_of_linked {t : State} {meets : Prop} (linked : Linked t ↔ meets)
    (back : Backlinked t) : Kept (some t) meets := by
  refine ⟨?_, fun t' same => ?_⟩
  · rw [← linked]
    exact ⟨fun ⟨_, same, after⟩ => Option.some.inj same ▸ after, fun after => ⟨t, rfl, after⟩⟩
  · cases same
    exact back

theorem kept_none {meets : Prop} (fails : ¬ meets) : Kept none meets :=
  ⟨iff_of_false (fun ⟨_, same, _⟩ => nomatch same) fails, fun _ same => nomatch same⟩

theorem commandConnect_kept (linked : Linked s) (back : Backlinked s) (live : s.conn c = some k)
    (id : Option String) : Kept (s.commandConnect c id) (CommandMeets s c (.connect id)) := by
  unfold State.commandConnect CommandMeets
  dsimp only
  cases found : id.bind s.findInSession with
  | none => exact kept_of_linked (iff_of_true linked fun _ _ named => nomatch named) back
  | some sess =>
    obtain ⟨name, _, registered⟩ := Option.bind_eq_some_iff.1 found
    obtain ⟨x, there, _⟩ := back.registered name sess registered
    have only : (∀ sess' x', some sess = some sess' → s.session sess' = some x' →
        x'.connection ≠ some c → MayTakeOver s sess' x'.connection) ↔
          (x.connection ≠ some c → MayTakeOver s sess x.connection) := by
      constructor
      · exact fun all => all sess x rfl there
      · intro one sess' x' same there'
        cases same
        cases there.symm.trans there'
        exact one
    rw [only]
    unfold State.inSessionConnect
    dsimp only
    rw [there]
    by_cases own : x.connection = some c
    · have after : Kept (some (s.attach c sess))
          (x.connection ≠ some c → MayTakeOver s sess x.connection) :=
        kept_of_linked (iff_of_true (linked.attach back there own) fun other => absurd own other)
          (back.attach there own)
      simpa [own, State.attach] using after
    · cases connected : x.connection with
      | none =>
        have after : Kept none (x.connection ≠ some c → MayTakeOver s sess x.connection) := by
          refine kept_none fun all => ?_
          obtain ⟨_, _, missing, _⟩ := all own
          rw [connected] at missing
          exact nomatch missing
        simpa [connected, State.disconnect] using after
      | some o =>
        obtain ⟨k', old⟩ := linked.connection sess x o there connected
        have apart : c ≠ o := fun same => own (connected.trans (congrArg some same.symm))
        have after : Kept (some ((s.handOver sess o c).attach c sess)) (MayTakeOver s sess (some o)) :=
          kept_of_linked (linked_handOver_iff linked back there connected ⟨k, live⟩ apart)
            ((back.handOver there connected).attach (x := { x with connection := some c })
              (by rw [session_handOver, if_pos rfl, there, Option.map_some]) rfl)
        simpa [connected, State.disconnect, old, apart.symm, State.attach, State.handOver] using after

theorem commandKill_kept (linked : Linked s) (back : Backlinked s) (id : Option String) :
    Kept (s.commandKill c id) (CommandMeets s c (.kill id)) := by
  unfold State.commandKill CommandMeets
  dsimp only
  cases found : id.bind s.findInSession with
  | none => exact kept_of_linked (iff_of_true linked fun _ named => nomatch named) back
  | some sess =>
    obtain ⟨name, _, registered⟩ := Option.bind_eq_some_iff.1 found
    obtain ⟨x, there, _⟩ := back.registered name sess registered
    have after := kept_of_linked (linked_detach_iff linked back there (c := c)) (back.detach there)
    have only : (∀ sess', some sess = some sess' → ∀ c' k, c' ≠ c → s.conn c' = some k →
        k.session ≠ some sess') ↔ ∀ c' k, c' ≠ c → s.conn c' = some k → k.session ≠ some sess :=
      ⟨fun all => all sess rfl, fun one _ same => Option.some.inj same ▸ one⟩
    rw [only]
    unfold State.killInSession
    dsimp only
    rw [there]
    exact after

theorem useSession_eq (linked : Linked s) (live : s.conn c = some k) : s.useSession k = some s := by
  unfold State.useSession
  cases attached : k.session with
  | none => rfl
  | some p =>
    obtain ⟨x, there⟩ := linked.session c k p live attached
    dsimp only
    rw [there]
    cases connected : x.connection with
    | none => simp [connected]
    | some c' =>
      obtain ⟨k', there'⟩ := linked.connection p x c' there connected
      simp [connected, there']

theorem command_kept (linked : Linked s) (back : Backlinked s) (live : s.conn c = some k)
    (opened : k.io ≠ .closed) (command : Command) :
    Kept (s.command c k command) (CommandMeets s c command) := by
  cases command with
  | new id =>
    exact kept_of_linked (iff_of_true (linked.newInSession back (fun _ same => by
      cases same
      exact ⟨k, live⟩) id) trivial) (back.newInSession _ id)
  | connect id => exact commandConnect_kept linked back live id
  | kill id => exact commandKill_kept linked back id
  | name name =>
    unfold State.command State.commandName
    dsimp only
    split_ifs
    · have same : SameLinks s (s.modConn c fun k => { k with io := .stalled }) :=
        sameLinks_modConn fun _ => ⟨rfl, rfl⟩
      refine kept_of_linked (iff_of_true (linked.same back same
        (linked.deletedOnce.modConn fun k' found => ⟨?_, rfl⟩)) trivial) (back.same same)
      cases (conn_eq_some.1 live).1.symm.trans found
      exact iff_of_false nofun opened
    · exact kept_of_linked (iff_of_true linked trivial) back
  | other =>
    unfold State.command
    rw [useSession_eq linked live]
    exact kept_of_linked (iff_of_true linked trivial) back

theorem handler_kept (linked : Linked s) (back : Backlinked s) {run : Conn → Option State}
    {meets : Prop} (kept : ∀ k, s.conn c = some k → k.io = .pending → Kept (run k) meets) :
    Kept (s.handler c run)
      (∀ k, s.conns[c]? = some k → k.io = .pending → k.deletions = 0 ∧ meets) := by
  unfold State.handler
  cases found : s.conns[c]? with
  | none => exact kept_of_linked (iff_of_true linked fun _ there => nomatch there) back
  | some k =>
    have only : (∀ k', some k = some k' → k'.io = .pending → k'.deletions = 0 ∧ meets) ↔
        (k.io = .pending → k.deletions = 0 ∧ meets) :=
      ⟨fun all => all k rfl, fun one k' same => Option.some.inj same ▸ one⟩
    rw [only]
    simp only [Option.map_some, Option.some.injEq]
    split_ifs with pending
    · by_cases live : k.deletions = 0
      · have there := conn_eq_some.2 ⟨found, live⟩
        rw [there, Option.bind_some]
        simpa [pending, live] using kept k there pending
      · have gone : s.conn c = none := by
          rw [State.conn, found]
          simp [Option.filter, live]
        rw [gone, Option.bind_none]
        exact kept_none fun all => live (all pending).1
    · exact kept_of_linked (iff_of_true linked fun there => absurd there pending) back

theorem event_kept (linked : Linked s) (back : Backlinked s) (e : Event) :
    Kept (s.event e) (Meets s e) := by
  cases e with
  | accept => exact kept_of_linked (iff_of_true (linked.accept back) trivial) back.accept
  | internal id =>
    have none (c : ℕ) (same : (none : Option ℕ) = some c) : ∃ k, s.conn c = some k := nomatch same
    exact kept_of_linked (iff_of_true (linked.newInSession back none id) trivial)
      (back.newInSession _ id)
  | message c command =>
    exact handler_kept linked back fun k live pending =>
      command_kept linked back live (by rw [pending]; exact nofun) command
  | fails c =>
    have kept (k : Conn) (live : s.conn c = some k) (pending : k.io = .pending) :
        Kept (some (s.close c)) True := by
      have same : SameLinks s (s.close c) := sameLinks_modConn fun _ => ⟨rfl, rfl⟩
      exact kept_of_linked (iff_of_true (linked.same back same
        (linked.deletedOnce.close live (by rw [pending]; exact nofun))) trivial) (back.same same)
    have after := handler_kept linked back kept
    simp only [and_true] at after
    exact after
  | prune =>
    obtain ⟨t, after, closed, pruned⟩ := pruneDeadConnections_spec linked
    rw [State.event, after]
    exact kept_of_linked (pruned.linked_iff closed linked back) (pruned.backlinked back)

end Events

section Main

theorem linked_start : Linked start where
  session c k p found _ := nomatch found
  connection p x c found _ := nomatch found
  one c c' k k' p found _ _ _ := nomatch found
  deletedOnce := by
    refine ⟨List.nodup_nil, fun c => iff_of_false List.not_mem_nil ?_, fun _ _ found => nomatch found⟩
    rintro ⟨_, found, _⟩
    exact nomatch found

theorem backlinked_start : Backlinked start :=
  ⟨fun _ _ _ found _ => (nomatch found), fun _ _ found => nomatch found⟩

/-- In every run of a node, the pointers are good in every state just when every event meets the
condition. -/
theorem links_hold_iff (events : List Event) : Throughout step Holds (some start) events ↔
    EachStep step (fun s e => ∃ t, s = some t ∧ Meets t e) (some start) events := by
  have first : Holds (some start) := ⟨start, rfl, linked_start⟩
  have keeps (s : Option State) (e : Event) (back : ∀ t, s = some t → Backlinked t)
      (holds : Holds s) : ∀ t, step s e = some t → Backlinked t := by
    obtain ⟨t, rfl, linked⟩ := holds
    exact (event_kept linked (back t rfl) e).2
  have each (s : Option State) (e : Event) (back : ∀ t, s = some t → Backlinked t)
      (holds : Holds s) : Holds (step s e) ↔ ∃ t, s = some t ∧ Meets t e := by
    obtain ⟨t, rfl, linked⟩ := holds
    refine (event_kept linked (back t rfl) e).1.trans ⟨fun met => ⟨t, rfl, met⟩, ?_⟩
    rintro ⟨t', same, met⟩
    exact Option.some.inj same ▸ met
  have back (t : State) (same : some start = some t) : Backlinked t := by
    cases same
    exact backlinked_start
  exact (throughout_iff_of_invariant keeps each back events).trans (and_iff_right first)

/-- A client makes a session and leaves: the session refers to its deleted connection. -/
theorem left_session_dangles : ¬ Throughout step Holds (some start)
    [.accept, .message 0 (.new "s"), .fails 0, .prune] := by
  intro all
  obtain ⟨t, after, linked⟩ := all.last
  cases after
  obtain ⟨k, dangling⟩ := linked.connection 0 ⟨"s", some 0, false⟩ 0 rfl rfl
  exact nomatch dangling

end Main

end Epilog.Node.SessionLinks
