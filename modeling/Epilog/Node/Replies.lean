/- Module: Epilog/Node/Replies
   source: src/src/node/connection.cpp (in_connection)
   digest: Which messages are replied to, and which runs of a connection go on. -/

import Epilog.Common.ReadSoundness
import Epilog.Lib.StepRuns
import Epilog.Node.InConnection

set_option autoImplicit false

namespace Epilog.Node.Replies

open Epilog.Common.Bits Epilog.Common.Term Epilog.Common.Heap Epilog.Common.Deserializer
open Epilog.Common.TermWalk (noTerm atomName)
open Epilog.Common Epilog.Lib.StepRuns Epilog.Node.InConnection

variable {σ ι : Type} (P : NodeOps σ ι)

section Specification

/-- The buffers hold a whole frame, the length of a reply and the reply. -/
structure Framed (s : State σ ι) : Prop where
  length : s.sendLength = s.buffer.length
  cell : s.bufferLen = writeUint64 (intCell s.buffer.length).raw

/-- A reply is about to be sent. -/
structure Sending (s : State σ ι) : Prop where
  phase : s.phase = .sendLength
  start : s.sentBytes = 0
  framed : Framed s

/-- The handler returns, and has sent one reply. -/
def Answers (m : M σ ι Unit) (s : State σ ι) : Prop :=
  ∃ s', m s = .ok () s' ∧ Sending s' ∧ s'.replies = s.replies + 1 ∧ s'.messages = s.messages

/-- The session of the connection has not been deleted. -/
def SessionAlive (s : State σ ι) : Prop := ∀ i, s.session = some i → P.alive s.node i = true

/-- The id of a command can be read, and the session that it names is good. -/
def IdServed (s : State σ ι) (cmd : Cell) (good : ι → Prop) : Prop :=
  ∃ idTerm atom, arg s.env cmd 0 = .ok idTerm ∧ isAtom s.env idTerm = .ok atom ∧
    ∀ f i, atom = true → functor s.env idTerm = .ok f →
      P.findInSession s.node (atomName s.env f) = some i → good i

/-- The commands that are replied to: those whose functor can be read, except for `new` when the
socket has no remote endpoint, `name` with an atom, and the use of what has been deleted. -/
def CommandServed (s : State σ ι) (cmd : Cell) : Prop :=
  ∃ f, functor s.env cmd = .ok f ∧
    (f = con "new" 0 → ∃ isLocal, P.remoteIsLocal s.node = .ok isLocal) ∧
    (f = con "connect" 1 → IdServed P s cmd fun i =>
      P.alive s.node i = true ∧ ∃ node, P.inSessionConnect s.node i = some node) ∧
    (f = con "kill" 1 → IdServed P s cmd fun i => P.alive s.node i = true) ∧
    (f = con "next" 0 ∨ f = con "delinst" 0 ∨ f = con "reset" 0 ∨ f = con "lreset" 0 →
      SessionAlive P s) ∧
    (f = con "name" 1 →
      ∃ nameTerm, arg s.env cmd 0 = .ok nameTerm ∧ isAtom s.env nameTerm = .ok false)

/-- The queries that are replied to; what they throw is caught. -/
def QueryServed (s : State σ ι) (t : Cell) : Prop :=
  ∀ i, s.session = some i → arg s.env t 1 ≠ .error .undefined ∧
    ∀ silent, arg s.env t 1 = .ok silent →
      P.alive s.node i = true ∧ arg s.env t 0 ≠ .error .undefined

def TermServed (s : State σ ι) (t : Cell) : Prop :=
  t ≠ noTerm ∧ (t.tag = .STR → ∃ f, functor s.env t = .ok f ∧
    (f = con "command" 1 → ∃ cmd, arg s.env t 0 = .ok cmd ∧ CommandServed P s cmd) ∧
    (f = con "query" 2 → QueryServed P s t))

/-- The messages that are replied to: those with a term that is, and those that the reader refuses
with an exception of its own. -/
def Served (s : State σ ι) : Prop :=
  match read s.env s.buffer with
  | .error e => e.isSerializerException = true
  | .ok (t, env) => TermServed P { s with env } t

end Specification

section Sends

/-- From one state to the other a reply has been sent off. -/
structure Replied (s s' : State σ ι) : Prop where
  sending : Sending s'
  replies : s'.replies = s.replies + 1
  messages : s'.messages = s.messages

structure Quiet (s s' : State σ ι) : Prop where
  replies : s'.replies = s.replies
  messages : s'.messages = s.messages

/-- Whatever it returns of the kind `once` it has sent one reply for; else, and when it throws, it
has sent none. -/
def Sends {α : Type} (once : α → Prop) (m : M σ ι α) : Prop := ∀ s,
  match m s with
  | .ok a s' => (once a → Replied s s') ∧ (¬ once a → Quiet s s')
  | .error _ s' => Quiet s s'

def Silent {α : Type} (m : M σ ι α) : Prop := Sends (fun _ => False) m

def SendsOnce (m : M σ ι Unit) : Prop := Sends (fun _ => True) m

variable {α β : Type}

theorem bind_eq (m : M σ ι α) (k : α → M σ ι β) (s : State σ ι) :
    (m >>= k) s = match m s with
      | .ok a s' => k a s'
      | .error e s' => .error e s' := by
  change EStateM.bind m k s = _
  unfold EStateM.bind
  cases m s <;> rfl

theorem get_bind (k : State σ ι → M σ ι β) (s : State σ ι) : (get >>= k) s = k s s := rfl

theorem Quiet.trans {s s' s'' : State σ ι} (first : Quiet s s') (second : Quiet s' s'') :
    Quiet s s'' :=
  ⟨second.replies.trans first.replies, second.messages.trans first.messages⟩

theorem Quiet.replied {s s' s'' : State σ ι} (first : Quiet s s') (second : Replied s' s'') :
    Replied s s'' :=
  ⟨second.sending, first.replies ▸ second.replies, second.messages.trans first.messages⟩

theorem Sends.bind {once : β → Prop} {m : M σ ι α} {k : α → M σ ι β} (silent : Silent m)
    (next : ∀ a, Sends once (k a)) : Sends once (m >>= k) := by
  intro s
  have first := silent s
  rw [bind_eq]
  cases done : m s with
  | error e s' =>
    rw [done] at first
    exact first
  | ok a s' =>
    rw [done] at first
    have quiet := first.2 not_false
    have second := next a s'
    dsimp only
    cases after : k a s' with
    | error e s'' =>
      rw [after] at second
      exact quiet.trans second
    | ok b s'' =>
      rw [after] at second
      exact ⟨fun sent => quiet.replied (second.1 sent), fun not => quiet.trans (second.2 not)⟩

theorem sends_pure {once : α → Prop} {a : α} (not : ¬ once a) : Sends once (pure a : M σ ι α) :=
  fun _ => ⟨fun sent => absurd sent not, fun _ => ⟨rfl, rfl⟩⟩

theorem sendsOnce_send (r : Reply) : SendsOnce (send P r) :=
  fun _ => ⟨fun _ => ⟨⟨rfl, rfl, ⟨rfl, rfl⟩⟩, rfl, rfl⟩, fun not => absurd trivial not⟩

theorem silent_onEnv (f : TermEnv → Except Fault α) : Silent (onEnv f : M σ ι α) := by
  intro s
  unfold onEnv
  cases f s.env with
  | ok a => exact ⟨False.elim, fun _ => ⟨rfl, rfl⟩⟩
  | error e => exact ⟨rfl, rfl⟩

theorem silent_onNode (f : σ → Except Bytes α × σ) : Silent (onNode f : M σ ι α) := by
  intro s
  unfold onNode
  rcases f s.node with ⟨_ | _, node⟩
  · exact ⟨rfl, rfl⟩
  · exact ⟨False.elim, fun _ => ⟨rfl, rfl⟩⟩

theorem silent_ontoEnv (f : σ → TermEnv → Except Bytes α × TermEnv) :
    Silent (ontoEnv f : M σ ι α) := by
  intro s
  unfold ontoEnv
  rcases f s.node s.env with ⟨_ | _, env⟩
  · exact ⟨rfl, rfl⟩
  · exact ⟨False.elim, fun _ => ⟨rfl, rfl⟩⟩

theorem silent_use (i : ι) : Silent (use P i) := by
  intro s
  unfold use
  split_ifs
  · exact ⟨False.elim, fun _ => ⟨rfl, rfl⟩⟩
  · exact ⟨rfl, rfl⟩

theorem silent_get : Silent (get : M σ ι (State σ ι)) :=
  fun _ => ⟨False.elim, fun _ => ⟨rfl, rfl⟩⟩

theorem silent_modify {f : State σ ι → State σ ι} (quiet : ∀ s, Quiet s (f s)) :
    Silent (modify f : M σ ι PUnit) :=
  fun s => ⟨False.elim, fun _ => quiet s⟩

theorem silent_throw (e : Fault) : Silent (throw e : M σ ι α) := fun _ => ⟨rfl, rfl⟩

theorem SendsOnce.guarded {m : M σ ι Unit} (once : SendsOnce m) :
    SendsOnce (InConnection.guarded P m) := by
  intro s
  have here := once s
  unfold InConnection.guarded
  cases done : m s with
  | ok a s' =>
    rw [done] at here
    exact here
  | error e s' =>
    rw [done] at here
    cases e with
    | undefined => exact here
    | exception msg =>
      have reply := sendsOnce_send P (.error (.struct "remote_exception" [.text msg])) s'
      exact ⟨fun _ => here.replied (reply.1 trivial), fun not => absurd trivial not⟩

def Returns (m : M σ ι α) (s : State σ ι) : Prop := ∃ a s', m s = .ok a s'

theorem SendsOnce.answers_iff {m : M σ ι Unit} (once : SendsOnce m) (s : State σ ι) :
    Answers m s ↔ Returns m s := by
  constructor
  · rintro ⟨s', done, _⟩
    exact ⟨(), s', done⟩
  · rintro ⟨_, s', done⟩
    have here := once s
    rw [done] at here
    obtain ⟨sending, replies, messages⟩ := here.1 trivial
    exact ⟨s', done, sending, replies, messages⟩

theorem returns_bind_iff (m : M σ ι α) (k : α → M σ ι β) (s : State σ ι) :
    Returns (m >>= k) s ↔ ∃ a s', m s = .ok a s' ∧ Returns (k a) s' := by
  unfold Returns
  rw [bind_eq]
  cases done : m s with
  | ok a s' =>
    constructor
    · exact fun there => ⟨a, s', rfl, there⟩
    · rintro ⟨_, _, same, there⟩
      cases same
      exact there
  | error e s' =>
    constructor
    · exact fun ⟨_, _, never⟩ => nomatch never
    · exact fun ⟨_, _, never, _⟩ => nomatch never

theorem returns_onEnv_bind_iff (f : TermEnv → Except Fault α) (k : α → M σ ι β) (s : State σ ι) :
    Returns (onEnv f >>= k) s ↔ ∃ a, f s.env = .ok a ∧ Returns (k a) s := by
  rw [returns_bind_iff]
  unfold onEnv
  cases f s.env with
  | ok a =>
    constructor
    · rintro ⟨_, _, same, there⟩
      cases same
      exact ⟨a, rfl, there⟩
    · rintro ⟨_, same, there⟩
      cases same
      exact ⟨a, s, rfl, there⟩
  | error e => exact ⟨fun ⟨_, _, never, _⟩ => (nomatch never), fun ⟨_, never, _⟩ => (nomatch never)⟩

theorem returns_onNode_bind_iff (f : σ → Except Bytes α × σ) (k : α → M σ ι β) (s : State σ ι) :
    Returns (onNode f >>= k) s ↔
      ∃ a, (f s.node).1 = .ok a ∧ Returns (k a) { s with node := (f s.node).2 } := by
  rw [returns_bind_iff]
  unfold onNode
  rcases f s.node with ⟨_ | a, node⟩
  · exact ⟨fun ⟨_, _, never, _⟩ => (nomatch never), fun ⟨_, never, _⟩ => (nomatch never)⟩
  · constructor
    · rintro ⟨_, _, same, there⟩
      cases same
      exact ⟨a, rfl, there⟩
    · rintro ⟨_, same, there⟩
      cases same
      exact ⟨a, _, rfl, there⟩

theorem returns_use_bind_iff (i : ι) (k : Unit → M σ ι β) (s : State σ ι) :
    Returns (use P i >>= k) s ↔ P.alive s.node i = true ∧ Returns (k ()) s := by
  rw [returns_bind_iff]
  unfold use
  split_ifs with alive
  · constructor
    · rintro ⟨_, _, same, there⟩
      cases same
      exact ⟨alive, there⟩
    · exact fun ⟨_, there⟩ => ⟨(), s, rfl, there⟩
  · exact ⟨fun ⟨_, _, never, _⟩ => (nomatch never), fun ⟨there, _⟩ => absurd there alive⟩

theorem answers_onEnv_bind_iff (f : TermEnv → Except Fault α) (k : α → M σ ι Unit)
    (s : State σ ι) : Answers (onEnv f >>= k) s ↔ ∃ a, f s.env = .ok a ∧ Answers (k a) s := by
  unfold Answers
  rw [bind_eq, onEnv]
  cases f s.env with
  | ok a =>
    constructor
    · exact fun there => ⟨a, rfl, there⟩
    · rintro ⟨_, same, there⟩
      cases same
      exact there
  | error e => exact ⟨fun ⟨_, never, _⟩ => (nomatch never), fun ⟨_, never, _⟩ => (nomatch never)⟩

/-- It throws nothing but exceptions. -/
def Catchable (m : M σ ι α) : Prop := ∀ s s', m s ≠ .error .undefined s'

theorem Catchable.bind {m : M σ ι α} {k : α → M σ ι β} (first : Catchable m)
    (next : ∀ a, Catchable (k a)) : Catchable (m >>= k) := by
  intro s s''
  rw [bind_eq]
  cases done : m s with
  | ok a s' => exact next a s' s''
  | error e s' =>
    intro same
    cases same
    exact first s s'' done

theorem catchable_onNode (f : σ → Except Bytes α × σ) : Catchable (onNode f : M σ ι α) := by
  intro s s'
  unfold onNode
  rcases f s.node with ⟨_ | _, node⟩ <;> exact fun never => nomatch never

theorem catchable_ontoEnv (f : σ → TermEnv → Except Bytes α × TermEnv) :
    Catchable (ontoEnv f : M σ ι α) := by
  intro s s'
  unfold ontoEnv
  rcases f s.node s.env with ⟨_ | _, env⟩ <;> exact fun never => nomatch never

theorem catchable_get : Catchable (get : M σ ι (State σ ι)) := fun _ _ never => nomatch never

theorem catchable_replyOk (t : ReplyTerm) : Catchable (replyOk P t) :=
  fun _ _ never => nomatch never

theorem catchable_replyError (t : ReplyTerm) : Catchable (replyError P t) :=
  fun _ _ never => nomatch never

theorem catchable_takeTextOut (i : ι) : Catchable (takeTextOut P i) := by
  intro s s'
  unfold takeTextOut
  rw [bind_eq]
  change (if P.textOut s.node i = [] then _ else _ : M σ ι ReplyTerm) s ≠ _
  split <;> exact fun never => nomatch never

theorem returns_guarded_iff (m : M σ ι Unit) (s : State σ ι) :
    Returns (guarded P m) s ↔ ∀ s', m s ≠ .error .undefined s' := by
  unfold Returns guarded
  cases m s with
  | ok a s' =>
    refine ⟨?_, fun _ => ⟨a, s', rfl⟩⟩
    rintro _ _ ⟨⟩
  | error e s' =>
    cases e with
    | undefined =>
      refine ⟨?_, fun caught => absurd rfl (caught s')⟩
      rintro ⟨_, _, ⟨⟩⟩
    | exception msg =>
      refine ⟨?_, fun _ => ⟨_, _, rfl⟩⟩
      rintro _ _ ⟨⟩

end Sends

section Commands

theorem sendsOnce_replyOk (t : ReplyTerm) : SendsOnce (replyOk P t) := sendsOnce_send P _

theorem sendsOnce_replyError (t : ReplyTerm) : SendsOnce (replyError P t) := sendsOnce_send P _

theorem sendsOnce_commandNew : SendsOnce (commandNew P) := by
  unfold commandNew
  exact .bind (silent_onNode _) fun _ => .bind silent_get fun _ => .bind (silent_onNode _) fun _ =>
    .bind silent_get fun _ => sendsOnce_replyOk P _

theorem sendsOnce_resetWith (call : ι → σ → Except Bytes Unit × σ) :
    SendsOnce (resetWith P call) := by
  unfold resetWith
  refine .bind silent_get fun s => ?_
  cases s.session with
  | none => exact sendsOnce_replyError P _
  | some i =>
    exact SendsOnce.guarded P (.bind (silent_use P i) fun _ => .bind (silent_onNode _) fun _ =>
      sendsOnce_replyOk P _)

theorem silent_takeTextOut (i : ι) : Silent (takeTextOut P i) := by
  unfold takeTextOut
  refine .bind silent_get fun s => ?_
  dsimp only
  split
  · exact sends_pure not_false
  · exact .bind (silent_modify fun _ => ⟨rfl, rfl⟩) fun _ => sends_pure not_false

theorem sendsOnce_processExecution (cmd : Cell) (inQuery silent : Bool) :
    SendsOnce (processExecution P cmd inQuery silent) := by
  unfold processExecution
  refine SendsOnce.guarded P (.bind silent_get fun s => ?_)
  cases s.session with
  | none => exact sendsOnce_replyError P _
  | some i =>
    refine .bind (silent_use P i) fun _ => ?_
    split
    · exact .bind (silent_ontoEnv _) fun _ => sendsOnce_replyError P _
    · refine .bind (silent_onNode _) fun r => .bind (silent_takeTextOut P i) fun _ =>
        .bind silent_get fun _ => ?_
      dsimp only
      split
      · exact .bind silent_get fun _ => sendsOnce_replyOk P _
      · split
        · exact .bind silent_get fun _ => sendsOnce_replyOk P _
        · exact .bind (silent_ontoEnv _) fun _ => .bind silent_get fun _ => sendsOnce_replyOk P _

theorem Sends.bind_none {m : M σ ι (Option ι)} {k : Option ι → M σ ι Unit}
    (once : Sends (· = none) m) (done : k none = pure ()) (next : ∀ i, SendsOnce (k (some i))) :
    SendsOnce (m >>= k) := by
  intro s
  have first := once s
  rw [bind_eq]
  cases here : m s with
  | error e s' =>
    rw [here] at first
    exact first
  | ok a s' =>
    rw [here] at first
    dsimp only
    cases a with
    | none =>
      rw [done]
      exact ⟨fun _ => first.1 rfl, fun not => absurd trivial not⟩
    | some i =>
      have quiet := first.2 (Option.some_ne_none i)
      have second := next i s'
      cases after : k (some i) s' with
      | error e s'' =>
        rw [after] at second
        exact quiet.trans second
      | ok b s'' =>
        rw [after] at second
        exact ⟨fun sent => quiet.replied (second.1 sent), fun not => absurd trivial not⟩

theorem sends_error_none (t : ReplyTerm) :
    Sends (· = none) (do replyError P t; return none : M σ ι (Option ι)) :=
  fun _ => ⟨fun _ => ⟨⟨rfl, rfl, ⟨rfl, rfl⟩⟩, rfl, rfl⟩, fun not => absurd rfl not⟩

theorem sends_getSession (idTerm : Cell) : Sends (· = none) (getSession P idTerm) := by
  unfold getSession
  refine .bind (silent_onEnv _) fun atom => ?_
  split
  · exact sends_error_none P _
  · refine .bind (silent_onEnv _) fun f => .bind silent_get fun s => ?_
    cases P.findInSession s.node (atomName s.env f) with
    | none => exact sends_error_none P _
    | some i => exact sends_pure (Option.some_ne_none i)

theorem sendsOnce_commandConnect (cmd : Cell) : SendsOnce (commandConnect P cmd) := by
  unfold commandConnect
  refine .bind (silent_onEnv _) fun idTerm => .bind_none (sends_getSession P idTerm) rfl fun i =>
    .bind (silent_use P i) fun _ => .bind silent_get fun s => ?_
  cases P.inSessionConnect s.node i with
  | none =>
    exact .bind (silent_throw _) fun _ => .bind silent_get fun _ => sendsOnce_replyOk P _
  | some node =>
    exact .bind (silent_modify fun _ => ⟨rfl, rfl⟩) fun _ => .bind silent_get fun _ =>
      sendsOnce_replyOk P _

theorem sendsOnce_commandKill (cmd : Cell) : SendsOnce (commandKill P cmd) := by
  unfold commandKill
  exact .bind (silent_onEnv _) fun idTerm => .bind_none (sends_getSession P idTerm) rfl fun i =>
    .bind (silent_use P i) fun _ => .bind (silent_modify fun _ => ⟨rfl, rfl⟩) fun _ =>
      sendsOnce_replyOk P _

theorem functor_of_isAtom {env : TermEnv} {t : Cell} (atom : isAtom env t = .ok true) :
    ∃ f, functor env t = .ok f := by
  unfold isAtom at atom
  cases h : deref env t with
  | error e => rw [h] at atom; exact nomatch atom
  | ok d =>
    rw [h] at atom
    cases read : functor env t with
    | ok f => exact ⟨f, rfl⟩
    | error e =>
      rw [read] at atom
      change (if d.tag = .CON ∨ d.tag = .STR then .error e else .ok false : Except Fault Bool) = _
        at atom
      split at atom <;> exact nomatch atom

theorem returns_getSession_bind_iff (idTerm : Cell) {k : Option ι → M σ ι Unit}
    (done : k none = pure ()) (s : State σ ι) :
    Returns (getSession P idTerm >>= k) s ↔ ∃ atom, isAtom s.env idTerm = .ok atom ∧
      ∀ f i, atom = true → functor s.env idTerm = .ok f →
        P.findInSession s.node (atomName s.env f) = some i → Returns (k (some i)) s := by
  have replied (t : ReplyTerm) (s : State σ ι) :
      Returns ((do replyError P t; return none : M σ ι (Option ι)) >>= k) s := by
    rw [bind_assoc, returns_bind_iff]
    refine ⟨(), _, rfl, ?_⟩
    rw [pure_bind, done]
    exact ⟨(), _, rfl⟩
  unfold getSession
  rw [bind_assoc, returns_onEnv_bind_iff]
  refine exists_congr fun atom => and_congr_right fun isAtom => ?_
  cases atom with
  | false => exact ⟨fun _ _ _ never => (nomatch never), fun _ => replied _ s⟩
  | true =>
    obtain ⟨f, here⟩ := functor_of_isAtom isAtom
    rw [if_neg (by simp), bind_assoc, returns_onEnv_bind_iff]
    constructor
    · rintro ⟨f', same, rest⟩ f'' i _ again found
      cases same.symm.trans again
      obtain ⟨_, _, got, rest⟩ := (returns_bind_iff _ _ _).1 (by rwa [bind_assoc] at rest)
      cases got
      dsimp only at rest
      rw [found] at rest
      rwa [pure_bind] at rest
    · intro good
      refine ⟨f, here, ?_⟩
      rw [bind_assoc, returns_bind_iff]
      refine ⟨s, s, rfl, ?_⟩
      cases found : P.findInSession s.node (atomName s.env f) with
      | none => exact replied _ s
      | some i =>
        rw [pure_bind]
        exact good f i rfl here found

theorem answers_commandNew_iff (s : State σ ι) :
    Answers (commandNew P) s ↔ ∃ isLocal, P.remoteIsLocal s.node = .ok isLocal := by
  rw [(sendsOnce_commandNew P).answers_iff]
  unfold commandNew
  rw [returns_onNode_bind_iff]
  exact ⟨fun ⟨isLocal, there, _⟩ => ⟨isLocal, there⟩,
    fun ⟨isLocal, there⟩ => ⟨isLocal, there, _, _, rfl⟩⟩

theorem answers_commandConnect_iff (cmd : Cell) (s : State σ ι) :
    Answers (commandConnect P cmd) s ↔ IdServed P s cmd fun i =>
      P.alive s.node i = true ∧ ∃ node, P.inSessionConnect s.node i = some node := by
  rw [(sendsOnce_commandConnect P cmd).answers_iff]
  unfold commandConnect IdServed
  rw [returns_onEnv_bind_iff]
  refine exists_congr fun idTerm => ?_
  rw [returns_getSession_bind_iff P idTerm rfl]
  constructor
  · rintro ⟨read, atom, isAtom, good⟩
    refine ⟨atom, read, isAtom, fun f i true here found => ?_⟩
    obtain ⟨alive, rest⟩ := (returns_use_bind_iff P i _ s).1 (good f i true here found)
    obtain ⟨_, _, got, rest⟩ := (returns_bind_iff _ _ _).1 rest
    cases got
    cases connect : P.inSessionConnect s.node i with
    | none =>
      rw [connect] at rest
      obtain ⟨_, _, never⟩ := rest
      exact nomatch never
    | some node => exact ⟨alive, node, rfl⟩
  · rintro ⟨atom, read, isAtom, good⟩
    refine ⟨read, atom, isAtom, fun f i true here found => ?_⟩
    obtain ⟨alive, node, connect⟩ := good f i true here found
    refine (returns_use_bind_iff P i _ s).2 ⟨alive, (returns_bind_iff _ _ _).2 ⟨s, s, rfl, ?_⟩⟩
    rw [connect]
    exact ⟨(), _, rfl⟩

theorem answers_commandKill_iff (cmd : Cell) (s : State σ ι) :
    Answers (commandKill P cmd) s ↔ IdServed P s cmd fun i => P.alive s.node i = true := by
  rw [(sendsOnce_commandKill P cmd).answers_iff]
  unfold commandKill IdServed
  rw [returns_onEnv_bind_iff]
  refine exists_congr fun idTerm => ?_
  rw [returns_getSession_bind_iff P idTerm rfl]
  constructor
  · rintro ⟨read, atom, isAtom, good⟩
    exact ⟨atom, read, isAtom, fun f i true here found =>
      ((returns_use_bind_iff P i _ s).1 (good f i true here found)).1⟩
  · rintro ⟨atom, read, isAtom, good⟩
    exact ⟨read, atom, isAtom, fun f i true here found =>
      (returns_use_bind_iff P i _ s).2 ⟨good f i true here found, (), _, rfl⟩⟩

theorem answers_commandName_iff (cmd : Cell) (s : State σ ι) :
    Answers (commandName P cmd) s ↔
      ∃ nameTerm, arg s.env cmd 0 = .ok nameTerm ∧ isAtom s.env nameTerm = .ok false := by
  unfold commandName
  rw [answers_onEnv_bind_iff]
  refine exists_congr fun nameTerm => and_congr_right fun _ => ?_
  rw [answers_onEnv_bind_iff]
  constructor
  · rintro ⟨atom, isAtom, answers⟩
    cases atom with
    | false => exact isAtom
    | true =>
      rw [if_neg (by simp), answers_onEnv_bind_iff] at answers
      obtain ⟨f, _, s', done, _, replies, _⟩ := answers
      cases done
      exact absurd replies (Nat.ne_of_lt (Nat.lt_succ_self _))
  · exact fun isAtom => ⟨false, isAtom, _, rfl, ⟨rfl, rfl, ⟨rfl, rfl⟩⟩, rfl, rfl⟩

theorem returns_guarded_use_iff (i : ι) {k : Unit → M σ ι Unit} (catchable : Catchable (k ()))
    (s : State σ ι) : Returns (guarded P (use P i >>= k)) s ↔ P.alive s.node i = true := by
  rw [returns_guarded_iff, bind_eq, use]
  split_ifs with alive
  · exact ⟨fun _ => alive, fun _ => catchable s⟩
  · exact ⟨fun caught => absurd rfl (caught s), fun there => absurd there alive⟩

theorem sessionAlive_none {s : State σ ι} (none : s.session = none) : SessionAlive P s := by
  intro i some
  rw [none] at some
  exact nomatch some

theorem sessionAlive_some {s : State σ ι} {i : ι} (some : s.session = some i) :
    SessionAlive P s ↔ P.alive s.node i = true := by
  constructor
  · exact fun alive => alive i some
  · intro alive j session
    cases some.symm.trans session
    exact alive

theorem returns_guarded_get_iff (k : State σ ι → M σ ι Unit) (s : State σ ι) :
    Returns (guarded P (get >>= k)) s ↔ Returns (guarded P (k s)) s := Iff.rfl

theorem answers_resetWith_iff (call : ι → σ → Except Bytes Unit × σ) (s : State σ ι) :
    Answers (resetWith P call) s ↔ SessionAlive P s := by
  rw [(sendsOnce_resetWith P call).answers_iff]
  unfold Returns resetWith
  rw [get_bind]
  cases session : s.session with
  | none => exact ⟨fun _ => sessionAlive_none P session, fun _ => ⟨(), _, rfl⟩⟩
  | some i =>
    rw [sessionAlive_some P session]
    exact returns_guarded_use_iff P i
      (.bind (catchable_onNode _) fun _ => catchable_replyOk P _) s

theorem answers_processExecution_iff (cmd : Cell) (inQuery silent : Bool) (s : State σ ι) :
    Answers (processExecution P cmd inQuery silent) s ↔ SessionAlive P s := by
  rw [(sendsOnce_processExecution P cmd inQuery silent).answers_iff]
  unfold processExecution
  rw [returns_guarded_get_iff]
  cases session : s.session with
  | none =>
    exact ⟨fun _ => sessionAlive_none P session,
      fun _ => (returns_guarded_iff P _ s).2 (catchable_replyError P _ s)⟩
  | some i =>
    rw [sessionAlive_some P session]
    refine returns_guarded_use_iff P i ?_ s
    split
    · exact .bind (catchable_ontoEnv _) fun _ => catchable_replyError P _
    · refine .bind (catchable_onNode _) fun r => .bind (catchable_takeTextOut P i) fun _ =>
        .bind catchable_get fun _ => ?_
      dsimp only
      split
      · exact .bind catchable_get fun _ => catchable_replyOk P _
      · split
        · exact .bind catchable_get fun _ => catchable_replyOk P _
        · exact .bind (catchable_ontoEnv _) fun _ => .bind catchable_get fun _ =>
            catchable_replyOk P _

private theorem alive_only {f : Cell} {alive new connect kill name : Prop}
    (which : (f = con "next" 0 ∨ f = con "delinst" 0 ∨ f = con "reset" 0 ∨ f = con "lreset" 0) ∧
      f ≠ con "new" 0 ∧ f ≠ con "connect" 1 ∧ f ≠ con "kill" 1 ∧ f ≠ con "name" 1) :
    alive ↔ (f = con "new" 0 → new) ∧ (f = con "connect" 1 → connect) ∧
      (f = con "kill" 1 → kill) ∧
      (f = con "next" 0 ∨ f = con "delinst" 0 ∨ f = con "reset" 0 ∨ f = con "lreset" 0 → alive) ∧
      (f = con "name" 1 → name) := by
  obtain ⟨one, notNew, notConnect, notKill, notName⟩ := which
  exact ⟨fun there => ⟨fun no => absurd no notNew, fun no => absurd no notConnect,
    fun no => absurd no notKill, fun _ => there, fun no => absurd no notName⟩,
    fun all => all.2.2.2.1 one⟩

theorem answers_processCommand_iff (cmd : Cell) (s : State σ ι) :
    Answers (processCommand P cmd) s ↔ CommandServed P s cmd := by
  unfold processCommand CommandServed
  rw [answers_onEnv_bind_iff]
  refine exists_congr fun f => and_congr_right fun _ => ?_
  split
  · next same =>
    subst same
    rw [answers_commandNew_iff]
    exact ⟨fun answers => ⟨fun _ => answers, fun no => absurd no (by decide),
      fun no => absurd no (by decide), fun no => absurd no (by decide),
      fun no => absurd no (by decide)⟩, fun served => served.1 rfl⟩
  split
  · next same =>
    subst same
    rw [answers_commandConnect_iff]
    exact ⟨fun answers => ⟨fun no => absurd no (by decide), fun _ => answers,
      fun no => absurd no (by decide), fun no => absurd no (by decide),
      fun no => absurd no (by decide)⟩, fun served => served.2.1 rfl⟩
  split
  · next same =>
    subst same
    rw [answers_commandKill_iff]
    exact ⟨fun answers => ⟨fun no => absurd no (by decide), fun no => absurd no (by decide),
      fun _ => answers, fun no => absurd no (by decide), fun no => absurd no (by decide)⟩,
      fun served => served.2.2.1 rfl⟩
  split
  · next same =>
    subst same
    rw [commandNext, answers_processExecution_iff]
    exact alive_only (by decide)
  split
  · next same =>
    subst same
    rw [commandDeleteInstance, answers_resetWith_iff]
    exact alive_only (by decide)
  split
  · next same =>
    subst same
    rw [commandReset, answers_resetWith_iff]
    exact alive_only (by decide)
  split
  · next same =>
    subst same
    rw [commandLocalReset, answers_resetWith_iff]
    exact alive_only (by decide)
  split
  · next same =>
    subst same
    rw [answers_commandName_iff]
    exact ⟨fun answers => ⟨fun no => absurd no (by decide), fun no => absurd no (by decide),
      fun no => absurd no (by decide), fun no => absurd no (by decide), fun _ => answers⟩,
      fun served => served.2.2.2.2 rfl⟩
  · next new connect kill next delinst reset lreset name =>
    refine ⟨fun _ => ⟨fun no => absurd no new, fun no => absurd no connect,
      fun no => absurd no kill, ?_, fun no => absurd no name⟩,
      fun _ => ((sendsOnce_replyError P _).answers_iff s).2 ⟨(), _, rfl⟩⟩
    rintro (no | no | no | no)
    · exact absurd no next
    · exact absurd no delinst
    · exact absurd no reset
    · exact absurd no lreset

end Commands

section Messages

theorem sendsOnce_processGoal (t : Cell) (i : ι) : SendsOnce (processGoal P t i) := by
  unfold processGoal
  exact SendsOnce.guarded P (.bind (silent_onEnv _) fun _ => .bind (silent_use P i) fun _ =>
    .bind (silent_onEnv _) fun _ => .bind silent_get fun _ => .bind (silent_onNode _) fun _ =>
      sendsOnce_processExecution P _ _ _)

theorem catchable_execution (env : TermEnv) (goal : Cell) (silent : Bool) (i : ι) {s : State σ ι}
    (session : s.session = some i) (alive : P.alive s.node i = true) (s' : State σ ι) :
    (onNode (P.copyIn i env goal) >>= fun qr => processExecution P qr false silent) s ≠
      .error .undefined s' := by
  rw [bind_eq, onNode]
  have kept := P.alive_copyIn i env goal s.node i
  rcases copied : P.copyIn i env goal s.node with ⟨_ | qr, node⟩
  · exact fun never => nomatch never
  · have there : SessionAlive P { s with node } := by
      intro j same
      cases session.symm.trans same
      rw [copied] at kept
      exact kept.trans alive
    obtain ⟨_, done, _⟩ := (answers_processExecution_iff P qr false silent _).2 there
    dsimp only
    rw [done]
    exact fun never => nomatch never

theorem answers_processGoal_iff (t : Cell) (i : ι) {s : State σ ι} (session : s.session = some i) :
    Answers (processGoal P t i) s ↔ QueryServed P s t := by
  rw [(sendsOnce_processGoal P t i).answers_iff]
  unfold processGoal
  rw [returns_guarded_iff]
  have only : QueryServed P s t ↔ arg s.env t 1 ≠ .error .undefined ∧
      ∀ silent, arg s.env t 1 = .ok silent →
        P.alive s.node i = true ∧ arg s.env t 0 ≠ .error .undefined :=
    ⟨fun served => served i session, fun served j same => by
      cases session.symm.trans same
      exact served⟩
  rw [only, bind_eq, onEnv]
  cases first : arg s.env t 1 with
  | error e =>
    cases e with
    | undefined => exact ⟨fun caught => absurd rfl (caught s), fun ⟨never, _⟩ => absurd rfl never⟩
    | exception msg =>
      exact ⟨fun _ => ⟨fun never => (nomatch never), fun _ never => (nomatch never)⟩,
        fun _ _ never => (nomatch never)⟩
  | ok silent =>
    dsimp only
    rw [bind_eq, use]
    by_cases alive : P.alive s.node i = true
    · rw [if_pos alive]
      dsimp only
      rw [bind_eq, onEnv]
      cases second : arg s.env t 0 with
      | error e =>
        cases e with
        | undefined =>
          exact ⟨fun caught => absurd rfl (caught s),
            fun ⟨_, good⟩ => absurd rfl (good silent rfl).2⟩
        | exception msg =>
          exact ⟨fun _ => ⟨fun never => (nomatch never), fun _ _ => ⟨alive, fun never =>
            (nomatch never)⟩⟩, fun _ _ never => (nomatch never)⟩
      | ok goal =>
        exact ⟨fun _ => ⟨fun never => (nomatch never), fun _ _ => ⟨alive, fun never =>
          (nomatch never)⟩⟩, fun _ => catchable_execution P s.env goal _ i session alive⟩
    · rw [if_neg alive]
      exact ⟨fun caught => absurd rfl (caught s),
        fun ⟨_, good⟩ => absurd (good silent rfl).1 alive⟩

theorem answers_processTerm_iff (t : Cell) (s : State σ ι) :
    Answers (processTerm P t) s ↔ TermServed P s t := by
  have replied (r : ReplyTerm) : Answers (replyError P r) s :=
    ((sendsOnce_replyError P r).answers_iff s).2 ⟨(), _, rfl⟩
  unfold processTerm TermServed
  split
  · next none =>
    refine ⟨?_, fun served => absurd none served.1⟩
    rintro ⟨s', done, _, replies, _⟩
    cases done
    exact absurd replies (Nat.ne_of_lt (Nat.lt_succ_self _))
  · next real =>
    split
    · next other => exact ⟨fun _ => ⟨real, fun str => absurd str other⟩, fun _ => replied _⟩
    · next str =>
      rw [answers_onEnv_bind_iff, and_iff_right real, imp_iff_right (not_not.1 str)]
      refine exists_congr fun f => and_congr_right fun _ => ?_
      split
      · next command =>
        subst command
        simp only [answers_onEnv_bind_iff, answers_processCommand_iff]
        exact ⟨fun answers => ⟨fun _ => answers, fun no => absurd no (by decide)⟩,
          fun served => served.1 trivial⟩
      · next noCommand =>
        rw [and_iff_right fun command => absurd command noCommand]
        split
        · next query =>
          rw [imp_iff_right query]
          unfold Answers
          rw [get_bind]
          cases session : s.session with
          | none =>
            refine ⟨fun _ i there => ?_, fun _ => replied _⟩
            rw [session] at there
            cases there
          | some i => exact answers_processGoal_iff P t i session
        · next noQuery => exact ⟨fun _ query => absurd query noQuery, fun _ => replied _⟩

theorem answers_processQuery_iff (s : State σ ι) : Answers (processQuery P) s ↔ Served P s := by
  unfold Served Answers processQuery
  rw [bind_eq, received]
  cases reading : read s.env s.buffer with
  | error e =>
    dsimp only
    by_cases own : e.isSerializerException = true
    · rw [if_pos own]
      exact ⟨fun _ => own, fun _ => ⟨_, rfl, ⟨rfl, rfl, ⟨rfl, rfl⟩⟩, rfl, rfl⟩⟩
    · rw [if_neg own]
      exact ⟨fun ⟨_, never, _⟩ => (nomatch never), fun there => absurd there own⟩
  | ok read => exact answers_processTerm_iff P read.1 { s with env := read.2 }

/-- At most one reply is sent for a message. -/
def AtMostOnce (m : M σ ι Unit) : Prop := ∀ s s', m s = .ok () s' → Replied s s' ∨ Quiet s s'

theorem SendsOnce.atMostOnce {m : M σ ι Unit} (once : SendsOnce m) : AtMostOnce m := by
  intro s s' done
  have here := once s
  rw [done] at here
  exact .inl (here.1 trivial)

theorem AtMostOnce.bind {α : Type} {m : M σ ι α} {k : α → M σ ι Unit} (silent : Silent m)
    (next : ∀ a, AtMostOnce (k a)) : AtMostOnce (m >>= k) := by
  intro s s'' done
  have first := silent s
  rw [bind_eq] at done
  cases here : m s with
  | error e s' =>
    rw [here] at done
    exact nomatch done
  | ok a s' =>
    rw [here] at first done
    have quiet := first.2 not_false
    exact (next a s' s'' done).imp quiet.replied quiet.trans

theorem atMostOnce_pure : AtMostOnce (pure () : M σ ι Unit) := by
  intro s s' done
  cases done
  exact .inr ⟨rfl, rfl⟩

theorem atMostOnce_commandName (cmd : Cell) : AtMostOnce (commandName P cmd) := by
  unfold commandName
  refine .bind (silent_onEnv _) fun nameTerm => .bind (silent_onEnv _) fun atom => ?_
  split
  · exact (sendsOnce_replyError P _).atMostOnce
  · refine .bind (silent_onEnv _) fun f s s' done => ?_
    cases done
    exact .inr ⟨rfl, rfl⟩

theorem atMostOnce_processCommand (cmd : Cell) : AtMostOnce (processCommand P cmd) := by
  unfold processCommand
  refine .bind (silent_onEnv _) fun f => ?_
  split
  · exact (sendsOnce_commandNew P).atMostOnce
  split
  · exact (sendsOnce_commandConnect P cmd).atMostOnce
  split
  · exact (sendsOnce_commandKill P cmd).atMostOnce
  split
  · exact (sendsOnce_processExecution P cmd true false).atMostOnce
  split
  · exact (sendsOnce_resetWith P _).atMostOnce
  split
  · exact (sendsOnce_resetWith P _).atMostOnce
  split
  · exact (sendsOnce_resetWith P _).atMostOnce
  split
  · exact atMostOnce_commandName P cmd
  · exact (sendsOnce_replyError P _).atMostOnce

theorem atMostOnce_processTerm (t : Cell) : AtMostOnce (processTerm P t) := by
  unfold processTerm
  split
  · exact atMostOnce_pure
  split
  · exact (sendsOnce_replyError P _).atMostOnce
  refine .bind (silent_onEnv _) fun f => ?_
  split
  · exact .bind (silent_onEnv _) fun cmd => atMostOnce_processCommand P cmd
  split
  · refine .bind silent_get fun s => ?_
    cases s.session with
    | none => exact (sendsOnce_replyError P _).atMostOnce
    | some i => exact (sendsOnce_processGoal P t i).atMostOnce
  · exact (sendsOnce_replyError P _).atMostOnce

theorem atMostOnce_processQuery : AtMostOnce (processQuery P) := by
  intro s s' done
  unfold processQuery at done
  rw [bind_eq, received] at done
  cases reading : read s.env s.buffer with
  | error e =>
    rw [reading] at done
    dsimp only at done
    split_ifs at done
    cases done
    exact .inl ⟨⟨rfl, rfl, ⟨rfl, rfl⟩⟩, rfl, rfl⟩
  | ok read =>
    rw [reading] at done
    exact (atMostOnce_processTerm P read.1 _ s' done).imp
      (fun replied => ⟨replied.sending, replied.replies, replied.messages⟩)
      (fun quiet => ⟨quiet.replies, quiet.messages⟩)

end Messages

section Runs

/-- The connection after an event; an exception or a use of what is deleted ends it. -/
def step (s : Option (State σ ι)) (e : Event) : Option (State σ ι) := s.bind fun s =>
  match handle P s e s with
  | .ok _ s' => some s'
  | .error _ _ => none

/-- An operation of the socket is under way, and as many replies have been sent as messages have
come in. -/
structure Live (s : State σ ι) : Prop where
  balanced : s.replies = s.messages
  goesOn : (s.phase = .receiveLength ∧ s.receivedBytes < 8) ∨
    (s.phase = .receive ∧ s.receivedBytes < s.receiveLength) ∨
    (s.phase = .sendLength ∧ s.sentBytes < 8 ∧ Framed s) ∨
    (s.phase = .send ∧ Framed s ∧ (s.sentBytes < s.buffer.length ∨ s.sentBytes = 0))

/-- The connection goes on, and once a reply has been written it is ready for the next message. -/
def Holds (s : Option (State σ ι)) : Prop :=
  ∃ t, s = some t ∧ Live t ∧ (t.phase = .sendLength →
    [Event.wrote (8 - t.sentBytes), .wrote t.buffer.length].foldl (step P) s =
      some { t with phase := .receiveLength, receivedBytes := 0, sentBytes := 0 })

/-- The state in which the last bytes of a message are dispatched -/
def withMessage (s : State σ ι) (chunk : Bytes) : State σ ι :=
  { s with
    buffer := s.buffer ++ chunk
    receivedBytes := s.receivedBytes + chunk.length
    phase := .received
    messages := s.messages + 1 }

/-- If an event completes a message, it is one that is served. -/
def Meets (s : Option (State σ ι)) (e : Event) : Prop :=
  ∀ t chunk, s = some t → e = .bytes chunk → t.phase = .receive →
    chunk.length = t.receiveLength - t.receivedBytes → Served P (withMessage t chunk)

theorem Sending.live {s : State σ ι} (sending : Sending s) (balanced : s.replies = s.messages) :
    Live s := by
  refine ⟨balanced, .inr (.inr (.inl ⟨sending.phase, ?_, sending.framed⟩))⟩
  rw [sending.start]
  decide

theorem step_written {s : State σ ι} (sending : s.phase = .sendLength) (started : s.sentBytes < 8)
    (framed : Framed s) :
    [Event.wrote (8 - s.sentBytes), .wrote s.buffer.length].foldl (step P) (some s) =
      some { s with phase := .receiveLength, receivedBytes := 0, sentBytes := 0 } := by
  have first : step P (some s) (.wrote (8 - s.sentBytes)) =
      some { s with phase := .send, sentBytes := 0 } := by
    have all : 8 ≤ s.sentBytes + (8 - s.sentBytes) := by omega
    unfold step handle
    dsimp only [Option.bind_some]
    rw [if_pos ⟨sending, Nat.le_refl _⟩]
    change some (if 8 ≤ s.sentBytes + (8 - s.sentBytes) then _ else _) = _
    rw [if_pos all]
  have second : step P (some { s with phase := .send, sentBytes := 0 }) (.wrote s.buffer.length) =
      some { s with phase := .receiveLength, receivedBytes := 0, sentBytes := 0 } := by
    have all : s.buffer.length ≤ 0 + s.buffer.length := by omega
    unfold step handle
    dsimp only [Option.bind_some]
    rw [if_neg fun never => (nomatch never.1), if_pos ⟨rfl, by rw [framed.length]; omega⟩]
    change some (if s.buffer.length ≤ 0 + s.buffer.length then _ else _) = _
    rw [if_pos all]
  rw [List.foldl_cons, first, List.foldl_cons, second]
  rfl

theorem Live.holds {s : State σ ι} (live : Live s) : Holds P (some s) := by
  refine ⟨s, rfl, live, fun sending => ?_⟩
  rcases live.goesOn with ⟨other, _⟩ | ⟨other, _⟩ | ⟨_, started, framed⟩ | ⟨other, _⟩
  · exact absurd (sending.symm.trans other) (by decide)
  · exact absurd (sending.symm.trans other) (by decide)
  · exact step_written P sending started framed
  · exact absurd (sending.symm.trans other) (by decide)

theorem receivedLength_live {s : State σ ι} (balanced : s.replies = s.messages) :
    ∃ s', receivedLength P s = .ok () s' ∧ Live s' := by
  have refused (t : ReplyTerm) : ∃ s', refuse P t s = .ok () s' ∧ Live s' :=
    ⟨_, rfl, Sending.live ⟨rfl, rfl, ⟨rfl, rfl⟩⟩ (congrArg Nat.succ balanced)⟩
  unfold receivedLength
  rw [get_bind]
  split
  · exact refused _
  split
  · exact refused _
  split
  · exact refused _
  · next large =>
    refine ⟨_, rfl, balanced, .inr (.inl ⟨rfl, ?_⟩)⟩
    dsimp only
    omega

theorem Live.framed {s : State σ ι} (live : Live s)
    (writes : s.phase = .sendLength ∨ s.phase = .send) : Framed s := by
  rcases live.goesOn with ⟨other, _⟩ | ⟨other, _⟩ | ⟨_, _, framed⟩ | ⟨_, framed, _⟩
  · rw [other] at writes
    exact absurd writes (by decide)
  · rw [other] at writes
    exact absurd writes (by decide)
  · exact framed
  · exact framed

theorem live_wrote {s : State σ ι} (live : Live s) (n : ℕ) :
    ∃ s', step P (some s) (.wrote n) = some s' ∧ Live s' := by
  unfold step handle
  dsimp only [Option.bind_some]
  by_cases length : s.phase = .sendLength ∧ n ≤ 8 - s.sentBytes
  · rw [if_pos length]
    have framed := live.framed (.inl length.1)
    refine ⟨_, rfl, ?_⟩
    dsimp only
    split
    · exact ⟨live.balanced, .inr (.inr (.inr ⟨rfl, ⟨framed.length, framed.cell⟩, .inr rfl⟩))⟩
    · next more =>
      exact ⟨live.balanced, .inr (.inr (.inl ⟨length.1, Nat.lt_of_not_le more,
        ⟨framed.length, framed.cell⟩⟩))⟩
  rw [if_neg length]
  by_cases body : s.phase = .send ∧ n ≤ s.sendLength - s.sentBytes
  · rw [if_pos body]
    have framed := live.framed (.inr body.1)
    refine ⟨_, rfl, ?_⟩
    dsimp only
    split
    · exact ⟨live.balanced, .inl ⟨rfl, Nat.succ_pos 7⟩⟩
    · next more =>
      exact ⟨live.balanced, .inr (.inr (.inr ⟨body.1, ⟨framed.length, framed.cell⟩,
        .inl (Nat.lt_of_not_le more)⟩))⟩
  · rw [if_neg body]
    exact ⟨s, rfl, live⟩

theorem live_bytes {s : State σ ι} (live : Live s) {chunk : Bytes}
    (part : ¬ (s.phase = .receive ∧ chunk.length = s.receiveLength - s.receivedBytes)) :
    ∃ s', step P (some s) (.bytes chunk) = some s' ∧ Live s' := by
  unfold step handle
  dsimp only [Option.bind_some]
  by_cases length : s.phase = .receiveLength ∧ chunk.length ≤ 8 - s.receivedBytes
  · rw [if_pos length, bind_eq]
    change ∃ s', (match (if 8 ≤ s.receivedBytes + chunk.length then receivedLength P else pure ())
      { s with
        bufferLen := s.bufferLen.take s.receivedBytes ++ chunk
        receivedBytes := s.receivedBytes + chunk.length } with
      | .ok _ s' => some s'
      | .error _ _ => none) = some s' ∧ Live s'
    by_cases all : 8 ≤ s.receivedBytes + chunk.length
    · rw [if_pos all]
      obtain ⟨s', done, live'⟩ := receivedLength_live P (s := { s with
        bufferLen := s.bufferLen.take s.receivedBytes ++ chunk
        receivedBytes := s.receivedBytes + chunk.length }) live.balanced
      rw [done]
      exact ⟨s', rfl, live'⟩
    · rw [if_neg all]
      exact ⟨_, rfl, live.balanced, .inl ⟨length.1, Nat.lt_of_not_le all⟩⟩
  rw [if_neg length]
  by_cases body : s.phase = .receive ∧ chunk.length ≤ s.receiveLength - s.receivedBytes
  · have more : ¬ s.receiveLength ≤ s.receivedBytes + chunk.length := fun all =>
      part ⟨body.1, by omega⟩
    rw [if_pos body, bind_eq]
    change ∃ s', (match (if s.receiveLength ≤ s.receivedBytes + chunk.length then do
        modify fun s => { s with phase := .received, messages := s.messages + 1 }
        processQuery P
      else pure () : M σ ι Unit)
      { s with
        buffer := s.buffer ++ chunk
        receivedBytes := s.receivedBytes + chunk.length } with
      | .ok _ s' => some s'
      | .error _ _ => none) = some s' ∧ Live s'
    rw [if_neg more]
    exact ⟨_, rfl, live.balanced, .inr (.inl ⟨body.1, Nat.lt_of_not_le more⟩)⟩
  · rw [if_neg body]
    exact ⟨s, rfl, live⟩

theorem holds_message_iff {s : State σ ι} (live : Live s) {chunk : Bytes}
    (receive : s.phase = .receive) (last : chunk.length = s.receiveLength - s.receivedBytes) :
    Holds P (step P (some s) (.bytes chunk)) ↔ Served P (withMessage s chunk) := by
  have all : s.receiveLength ≤ s.receivedBytes + chunk.length := by omega
  have result : step P (some s) (.bytes chunk) = match processQuery P (withMessage s chunk) with
      | .ok _ s' => some s'
      | .error _ _ => none := by
    unfold step handle
    dsimp only [Option.bind_some]
    rw [if_neg fun never => absurd (receive.symm.trans never.1) (by decide),
      if_pos ⟨receive, Nat.le_of_eq last⟩, bind_eq]
    change (match (if s.receiveLength ≤ s.receivedBytes + chunk.length then do
        modify fun s => { s with phase := .received, messages := s.messages + 1 }
        processQuery P
      else pure () : M σ ι Unit)
      { s with
        buffer := s.buffer ++ chunk
        receivedBytes := s.receivedBytes + chunk.length } with
      | .ok _ s' => some s'
      | .error _ _ => none) = _
    rw [if_pos all]
    rfl
  rw [result, ← answers_processQuery_iff]
  constructor
  · rintro ⟨t, there, live', _⟩
    cases done : processQuery P (withMessage s chunk) with
    | error e s' =>
      rw [done] at there
      exact nomatch there
    | ok a s' =>
      rw [done] at there
      cases there
      rcases atMostOnce_processQuery P _ t done with replied | quiet
      · exact ⟨t, done, replied.sending, replied.replies, replied.messages⟩
      · have before := live.balanced
        have after := live'.balanced
        rw [quiet.replies, quiet.messages] at after
        exact absurd (before.symm.trans after) (Nat.ne_of_lt (Nat.lt_succ_self _))
  · rintro ⟨s', done, sending, replies, messages⟩
    rw [done]
    refine (sending.live ?_).holds P
    rw [replies, messages]
    exact congrArg Nat.succ live.balanced

theorem holds_step_iff (s : Option (State σ ι)) (e : Event) (holds : Holds P s) :
    Holds P (step P s e) ↔ Meets P s e := by
  obtain ⟨t, rfl, live, _⟩ := holds
  cases e with
  | wrote n =>
    obtain ⟨t', there, live'⟩ := live_wrote P live n
    rw [there]
    exact iff_of_true (live'.holds P) fun _ _ _ never => nomatch never
  | bytes chunk =>
    by_cases last : t.phase = .receive ∧ chunk.length = t.receiveLength - t.receivedBytes
    · rw [holds_message_iff P live last.1 last.2]
      constructor
      · intro served _ _ same event _ _
        cases same
        cases event
        exact served
      · exact fun meets => meets t chunk rfl rfl last.1 last.2
    · obtain ⟨t', there, live'⟩ := live_bytes P live last
      rw [there]
      refine iff_of_true (live'.holds P) fun _ _ same event receive all => ?_
      cases same
      cases event
      exact absurd ⟨receive, all⟩ last

/-- A connection that has just been accepted -/
def start (env : TermEnv) (node : σ) : State σ ι where
  phase := .receiveLength
  receivedBytes := 0
  receiveLength := 0
  sentBytes := 0
  sendLength := 0
  bufferLen := []
  buffer := []
  session := none
  env := env
  name := []
  node := node
  messages := 0
  replies := 0

theorem start_live (env : TermEnv) (node : σ) : Live (start env node : State σ ι) :=
  ⟨rfl, .inl ⟨rfl, Nat.succ_pos 7⟩⟩

/-- A node without sessions, whose replies are empty -/
def idleNode : NodeOps Unit Unit where
  remoteIsLocal := fun _ => .ok true
  isGrantRootForLocal := fun _ => true
  name := fun _ => []
  newInSession := fun _ _ => ([], ())
  findInSession := fun _ _ => none
  alive := fun _ _ => false
  inSessionConnect := fun _ _ => none
  killInSession := fun _ _ => ()
  deleteInstance := fun _ _ => (.ok (), ())
  reset := fun _ _ => (.ok (), ())
  localReset := fun _ _ => (.ok (), ())
  next := fun _ _ => (.ok false, ())
  execute := fun _ _ _ _ => (.ok false, ())
  atEnd := fun _ _ => false
  hasMore := fun _ _ => false
  textOut := fun _ _ => []
  resetTextOut := fun _ _ => ()
  lastCost := fun _ _ => 0
  copyIn := fun _ _ c _ => (.ok c, ())
  alive_copyIn := fun _ _ _ _ _ => rfl
  copyOut := fun _ c _ env => (.ok c, env)
  queryClosure := fun _ _ env => (.ok (Cell.EMPTY_LIST, Cell.EMPTY_LIST), env)
  what := fun _ => []
  leftover := fun env _ => env
  write := fun env _ => ([], env)

/-- `command(name(a))` -/
def nameMessage : Bytes := ReadSoundness.bufferOf
  [Cell.make .STR 4, con "command" 1, Cell.make .STR 6, con "name" 1, con "a" 0]

end Runs

end Epilog.Node.Replies
