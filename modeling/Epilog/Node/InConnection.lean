/- Module: Epilog/Node/InConnection
   source: src/src/node/connection.cpp, src/src/node/connection.hpp (connection, in_connection)
   digest: A connection from another node: the framing of its messages and the replies to them. -/

import Epilog.Common.Deserializer
import Epilog.Common.TermWalk

set_option autoImplicit false

namespace Epilog.Node.InConnection

open Epilog.Common.Bits Epilog.Common.Term Epilog.Common.Heap Epilog.Common.Deserializer
open Epilog.Common.TermWalk (noTerm atomName)

section Data

/-- `connection::state` -/
inductive Phase
  | idle | receiveLength | receive | received | sendLength | send | sent | error | killed | closed
  deriving DecidableEq

/-- Why a handler does not return: a `std::exception` with its text, or the use of a deleted object
or a chain of references in a circle, which nothing catches. -/
inductive Fault
  | exception (what : Bytes)
  | undefined

/-- The terms of the replies; the cells are terms of the connection's own heap. -/
inductive ReplyTerm
  | atom (name : String)
  | name (name : Bytes)
  | text (text : Bytes)
  | int (v : ℤ)
  | cell (c : Cell)
  | struct (functor : String) (args : List ReplyTerm)

/-- `ok(T)` or `error(T)` -/
inductive Reply
  | ok (t : ReplyTerm)
  | error (t : ReplyTerm)

/-- The node around the connection, with sessions `ι` in its state `σ`. What the interpreters of the
sessions throw is a `std::exception`. -/
structure NodeOps (σ ι : Type) where
  /-- `is_local` of the remote endpoint of the socket, which throws if there is none -/
  remoteIsLocal : σ → Except Bytes Bool
  isGrantRootForLocal : σ → Bool
  name : σ → Bytes
  newInSession : σ → Bool → Bytes × σ
  findInSession : σ → Bytes → Option ι
  /-- The session object has not been deleted. -/
  alive : σ → ι → Bool
  /-- `none` is the use of a deleted connection. -/
  inSessionConnect : σ → ι → Option σ
  killInSession : σ → ι → σ
  deleteInstance : ι → σ → Except Bytes Unit × σ
  reset : ι → σ → Except Bytes Unit × σ
  localReset : ι → σ → Except Bytes Unit × σ
  next : ι → σ → Except Bytes Bool × σ
  execute : ι → Cell → Bool → σ → Except Bytes Bool × σ
  atEnd : σ → ι → Bool
  hasMore : σ → ι → Bool
  textOut : σ → ι → Bytes
  resetTextOut : ι → σ → σ
  lastCost : σ → ι → ℤ
  /-- A copy from the connection's heap into that of the session, which deletes no session -/
  copyIn : ι → TermEnv → Cell → σ → Except Bytes Cell × σ
  alive_copyIn : ∀ i env c node j, alive (copyIn i env c node).2 j = alive node j
  /-- A copy from the heap of the session into the connection's -/
  copyOut : ι → Cell → σ → TermEnv → Except Bytes Cell × TermEnv
  /-- The two arguments of a copy of the closure of the query -/
  queryClosure : ι → σ → TermEnv → Except Bytes (Cell × Cell) × TermEnv
  /-- The text of an exception of the reader -/
  what : ReadError → Bytes
  /-- What a reader that threw has left on the heap -/
  leftover : TermEnv → Bytes → TermEnv
  /-- A reply is built on the heap and written. -/
  write : TermEnv → Reply → Bytes × TermEnv

structure State (σ ι : Type) where
  phase : Phase
  receivedBytes : ℕ
  receiveLength : ℕ
  sentBytes : ℕ
  sendLength : ℕ
  bufferLen : Bytes
  buffer : Bytes
  session : Option ι
  env : TermEnv
  name : Bytes
  node : σ
  /-- How many messages have come in, and how many replies have been sent off -/
  messages : ℕ
  replies : ℕ

/-- A handler, which keeps its changes when it throws. -/
abbrev M (σ ι : Type) := EStateM Fault (State σ ι)

end Data

variable {σ ι : Type} (P : NodeOps σ ι)

section Access

variable (env : TermEnv)

def heapGet (addr : ℕ) : Except Fault Cell :=
  if addr < env.size then .ok (env.mem addr)
  else .error (.exception (Cell.ascii "heap index out of range"))

/-- The loop of `deref`, which sees at most as many cells as there are before it runs in a circle -/
def derefLoop : (fuel : ℕ) → Cell → Except Fault Cell
  | 0, _ => .error .undefined
  | fuel + 1, c =>
    if c.tag.isRef then do
      let referred ← heapGet env c.index
      if referred = c then return c
      derefLoop fuel referred
    else .ok c

def deref (c : Cell) : Except Fault Cell := derefLoop env (env.size + 1) c

def functor (c : Cell) : Except Fault Cell := do
  let ds ← deref env c
  if ds.tag = .CON then return ds
  if ds.tag ≠ .STR then throw (.exception (Cell.ascii "expected str cell"))
  let f ← heapGet env ds.index
  if f.tag ≠ .CON then throw (.exception (Cell.ascii "expected con cell"))
  return f

/-- `arg` of whatever the cell is -/
def arg (c : Cell) (i : ℕ) : Except Fault Cell := do
  let s ← deref env c
  deref env (← heapGet env (s.index + i + 1))

def isAtom (t : Cell) : Except Fault Bool := do
  let d ← deref env t
  if d.tag = .CON ∨ d.tag = .STR then return (← functor env t).arity = 0
  return false

end Access

section Replies

def intCell (v : ℤ) : Cell := Cell.make .INT (v % 2 ^ 61).toNat

def intValue (c : Cell) : ℤ := (c.value : ℤ).bmod (2 ^ 61)

def send (r : Reply) : M σ ι Unit := modify fun s =>
  let (bytes, env) := P.write s.env r
  { s with
    env
    buffer := bytes
    bufferLen := writeUint64 (intCell bytes.length).raw
    sentBytes := 0
    sendLength := bytes.length
    phase := .sendLength
    replies := s.replies + 1 }

def replyOk (t : ReplyTerm) : M σ ι Unit := send P (.ok t)

def replyError (t : ReplyTerm) : M σ ι Unit := send P (.error t)

def replyException (msg : Bytes) : M σ ι Unit :=
  replyError P (.struct "remote_exception" [.text msg])

/-- `try` with a handler for every `std::exception` -/
def guarded (m : M σ ι Unit) : M σ ι Unit := fun s =>
  match m s with
  | .error (.exception msg) s => replyException P msg s
  | r => r

end Replies

section Lift

/-- What reads the heap of the connection -/
def onEnv {α : Type} (f : TermEnv → Except Fault α) : M σ ι α := fun s =>
  match f s.env with
  | .ok a => .ok a s
  | .error e => .error e s

def onNode {α : Type} (f : σ → Except Bytes α × σ) : M σ ι α := fun s =>
  match f s.node with
  | (.ok a, node) => .ok a { s with node }
  | (.error msg, node) => .error (.exception msg) { s with node }

/-- What copies onto the heap of the connection -/
def ontoEnv {α : Type} (f : σ → TermEnv → Except Bytes α × TermEnv) : M σ ι α := fun s =>
  match f s.node s.env with
  | (.ok a, env) => .ok a { s with env }
  | (.error msg, env) => .error (.exception msg) { s with env }

/-- A session is used through a pointer. -/
def use (i : ι) : M σ ι Unit := fun s =>
  if P.alive s.node i then .ok () s else .error .undefined s

end Lift

section Commands

def commandNew : M σ ι Unit := do
  let isLocal ← onNode fun node => (P.remoteIsLocal node, node)
  let doRoot := isLocal && P.isGrantRootForLocal (← get).node
  let id ← onNode fun node => let (id, node) := P.newInSession node doRoot; (.ok id, node)
  replyOk P (.struct "session" [.name id, .name (P.name (← get).node)])

/-- `get_session`, which replies when there is none -/
def getSession (idTerm : Cell) : M σ ι (Option ι) := do
  if ! (← onEnv (isAtom · idTerm)) then
    replyError P (.struct "erroneous_session_id" [.cell idTerm])
    return none
  let f ← onEnv (functor · idTerm)
  let s ← get
  match P.findInSession s.node (atomName s.env f) with
  | none =>
    replyError P (.struct "session_not_found" [.cell idTerm])
    return none
  | some i => return some i

/-- `get_state_atom` -/
def stateAtom (s : State σ ι) : String :=
  match s.session with
  | none => "void"
  | some i => if P.atEnd s.node i then "at_end" else if P.hasMore s.node i then "more" else "ask"

def commandConnect (cmd : Cell) : M σ ι Unit := do
  let idTerm ← onEnv (arg · cmd 0)
  match ← getSession P idTerm with
  | none => return
  | some i =>
    use P i
    match P.inSessionConnect (← get).node i with
    | none => throw .undefined
    | some node => modify fun s => { s with node, session := some i }
    replyOk P (.struct "session_resumed" [.cell idTerm, .atom (stateAtom P (← get))])

/-- `command_name`, which replies to an erroneous name only -/
def commandName (cmd : Cell) : M σ ι Unit := do
  let nameTerm ← onEnv (arg · cmd 0)
  if ! (← onEnv (isAtom · nameTerm)) then
    replyError P (.struct "erroneous_name" [.cell nameTerm])
    return
  let f ← onEnv (functor · nameTerm)
  modify fun s => { s with name := atomName s.env f }

def commandKill (cmd : Cell) : M σ ι Unit := do
  let idTerm ← onEnv (arg · cmd 0)
  match ← getSession P idTerm with
  | none => return
  | some i =>
    use P i
    modify fun s => { s with node := P.killInSession s.node i, session := none }
    replyOk P (.struct "session_killed" [.cell idTerm])

/-- `command_delete_instance`, `command_reset` and `command_local_reset`, which differ in what they
call -/
def resetWith (call : ι → σ → Except Bytes Unit × σ) : M σ ι Unit := do
  match (← get).session with
  | none => replyError P (.atom "no_running_session")
  | some i => guarded P do
    use P i
    onNode (call i)
    replyOk P (.struct "result" (List.replicate 5 (.cell Cell.EMPTY_LIST)))

def commandDeleteInstance : M σ ι Unit := resetWith P P.deleteInstance

def commandReset : M σ ι Unit := resetWith P P.reset

def commandLocalReset : M σ ι Unit := resetWith P P.localReset

def con (name : String) (arity : ℕ) : Cell := Cell.conOfName (Cell.ascii name) arity

/-- The text that the query has put out, which is then reset -/
def takeTextOut (i : ι) : M σ ι ReplyTerm := do
  let text := P.textOut (← get).node i
  if text = [] then return .cell Cell.EMPTY_LIST
  modify fun s => { s with node := P.resetTextOut i s.node }
  return .text text

def processExecution (cmd : Cell) (inQuery silent : Bool) : M σ ι Unit := guarded P do
  match (← get).session with
  | none => replyError P (.atom "no_running_session")
  | some i =>
    use P i
    if inQuery && cmd ≠ con "next" 0 then
      let c ← ontoEnv (P.copyOut i cmd)
      replyError P (.struct "unrecognized_command" [.cell c])
    else
      let r ← onNode (if inQuery then P.next i else P.execute i cmd silent)
      let standardOut ← takeTextOut P i
      let lastCost := P.lastCost (← get).node i
      if ! r then
        replyOk P (.struct "result" [.atom "false", .cell Cell.EMPTY_LIST,
          .atom (stateAtom P (← get)), standardOut, .int lastCost])
      else if silent then
        replyOk P (.struct "result" [.atom "true", .cell Cell.EMPTY_LIST,
          .atom (stateAtom P (← get)), standardOut, .int lastCost])
      else
        let (result, varsTerm) ← ontoEnv (P.queryClosure i)
        replyOk P (.struct "result" [.cell result, .cell varsTerm,
          .atom (stateAtom P (← get)), standardOut, .int lastCost])

def commandNext (cmd : Cell) : M σ ι Unit := processExecution P cmd true false

/-- `process_command` with the table of `setup_commands` -/
def processCommand (cmd : Cell) : M σ ι Unit := do
  let f ← onEnv (functor · cmd)
  if f = con "new" 0 then commandNew P
  else if f = con "connect" 1 then commandConnect P cmd
  else if f = con "kill" 1 then commandKill P cmd
  else if f = con "next" 0 then commandNext P cmd
  else if f = con "delinst" 0 then commandDeleteInstance P
  else if f = con "reset" 0 then commandReset P
  else if f = con "lreset" 0 then commandLocalReset P
  else if f = con "name" 1 then commandName P cmd
  else replyError P (.struct "unrecognized_commmand" [.cell cmd])

end Commands

section Messages

/-- `received`: an exception of the serializer is replied to, and the term is `term()` then. -/
def received : M σ ι Cell := fun s =>
  match Epilog.Common.Deserializer.read s.env s.buffer with
  | .ok (t, env) => .ok t { s with env }
  | .error e =>
    let s := { s with env := P.leftover s.env s.buffer }
    if e.isSerializerException then
      (do replyError P (.struct "serializer_exception" [.name (P.what e)]); return noTerm) s
    else .error (.exception (P.what e)) s

/-- The part of `process_query` for a query, all of it in a `try` -/
def processGoal (t : Cell) (i : ι) : M σ ι Unit := guarded P do
  let silent := (← onEnv (arg · t 1)) = con "true" 0
  use P i
  let goal ← onEnv (arg · t 0)
  let env := (← get).env
  let qr ← onNode (P.copyIn i env goal)
  processExecution P qr false silent

/-- What `process_query` does with the term it has received -/
def processTerm (t : Cell) : M σ ι Unit :=
  if t = noTerm then return
  else if t.tag ≠ .STR then replyError P (.struct "unrecognized_command" [.cell t])
  else do
    let f ← onEnv (functor · t)
    if f = con "command" 1 then processCommand P (← onEnv (arg · t 0))
    else if f = con "query" 2 then
      match (← get).session with
      | none => replyError P (.atom "no_running_session")
      | some i => processGoal P t i
    else replyError P (.struct "unrecognized_command" [.cell t])

def processQuery : M σ ι Unit := do processTerm P (← received P)

end Messages

section Framing

def MAX_BUFFER_SIZE : ℤ := 16 * 1024 * 1024

/-- A length that is not good ends the message. -/
def refuse (t : ReplyTerm) : M σ ι Unit := do
  modify fun s => { s with messages := s.messages + 1 }
  replyError P t

/-- `received_length`, of a connection that sends by itself -/
def receivedLength : M σ ι Unit := do
  let c : Cell := ⟨readUint64 (← get).bufferLen⟩
  let max := MAX_BUFFER_SIZE - 8
  if c.tag ≠ .INT then refuse P (.atom "error_query_length_was_not_integer")
  else if max < intValue c then
    refuse P (.struct "error_query_length_exceeds_max" [.struct ">" [.cell c, .int max]])
  else if intValue c < 8 then
    refuse P (.struct "error_query_length_too_small" [.struct "<" [.cell c, .int 8]])
  else modify fun s =>
    { s with
      phase := .receive, receiveLength := (intValue c).toNat, receivedBytes := 0, buffer := [] }

/-- What the socket completes: bytes that have been read, or a number of bytes written -/
inductive Event
  | bytes (chunk : Bytes)
  | wrote (n : ℕ)

/-- The handlers of `run`, and the dispatch to `on_state`. The buffers grow by what is read. -/
def handle (s : State σ ι) : Event → M σ ι Unit
  | .bytes chunk =>
    if s.phase = .receiveLength ∧ chunk.length ≤ 8 - s.receivedBytes then do
      let n := s.receivedBytes + chunk.length
      modify fun s =>
        { s with bufferLen := s.bufferLen.take s.receivedBytes ++ chunk, receivedBytes := n }
      if 8 ≤ n then receivedLength P
    else if s.phase = .receive ∧ chunk.length ≤ s.receiveLength - s.receivedBytes then do
      let n := s.receivedBytes + chunk.length
      modify fun s => { s with buffer := s.buffer ++ chunk, receivedBytes := n }
      if s.receiveLength ≤ n then
        modify fun s => { s with phase := .received, messages := s.messages + 1 }
        processQuery P
    else return
  | .wrote n =>
    if s.phase = .sendLength ∧ n ≤ 8 - s.sentBytes then
      modify fun s =>
        if 8 ≤ s.sentBytes + n then { s with phase := .send, sentBytes := 0 }
        else { s with sentBytes := s.sentBytes + n }
    else if s.phase = .send ∧ n ≤ s.sendLength - s.sentBytes then
      modify fun s =>
        if s.buffer.length ≤ s.sentBytes + n then
          -- `STATE_SENT` is dispatched to `prepare_receive`
          { s with phase := .receiveLength, receivedBytes := 0, sentBytes := 0 }
        else { s with sentBytes := s.sentBytes + n }
    else return

end Framing

end Epilog.Node.InConnection
