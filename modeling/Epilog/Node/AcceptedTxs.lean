/- Module: Epilog/Node/AcceptedTxs
   source: src/src/node/mempool.cpp, src/src/node/local_interpreter.cpp (new_tx_1),
     src/src/global/global_interpreter.cpp (execute_goal)
   digest: The transactions that a node accepts, and what its mempool keeps of them. -/

import Epilog.Lib.StepRuns
import Mathlib.Data.List.Nodup
import Mathlib.Logic.Function.Basic

set_option autoImplicit false

namespace Epilog.Node.AcceptedTxs

open Epilog.Lib.StepRuns

section Model

/-- How the engine of the global interpreter ends with a goal -/
inductive Outcome
  | yes | no
  /-- A `serializer_exception` or an `interpreter_exception` -/
  | throws
  /-- An exception that `execute_goal` does not catch -/
  | escapes
  deriving DecidableEq

/-- What the engine makes of its state: when it reads and executes a serialized goal, and in
`reset` and `stop`. -/
structure Engine (G B : Type) where
  execute : G → B → Outcome × G
  reset : G → G
  stop : G → G

/-- `term_serializer`: its bytes, what is read back from them, and `hash_small` -/
structure Serializer (T B H : Type) where
  write : T → B
  read : B → Option T
  hashSmall : B → H

/-- The clauses of `tx/2` and of `index/2`, in their order -/
structure Mempool (T H : Type) where
  tx : List (H × T)
  index : List (ℕ × H)
  idCount : ℕ
  deriving DecidableEq

structure SelfNode (G T H : Type) where
  global : G
  mempool : Mempool T H
  /-- How often the session has been punished -/
  punished : ℕ
  deriving DecidableEq

variable {G T B H : Type} [DecidableEq T] [DecidableEq H]
  (engine : Engine G B) (serializer : Serializer T B H)

/-- `execute_goal`, when it is silent: whether the goal succeeds, nothing when it throws -/
def executeGoal (g : G) (b : B) : Option Bool × G :=
  match engine.execute g b with
  | (.yes, g) => (some true, engine.stop g)
  | (.no, g) => (some false, engine.reset g)
  | (.throws, g) => (none, engine.reset g)
  | (.escapes, g) => (none, g)

/-- `add_tx`, which throws when the transaction cannot be read -/
def Mempool.addTx (m : Mempool T H) (b : B) : Option (Mempool T H) :=
  let h := serializer.hashSmall b
  if h ∈ m.tx.map Prod.fst then some m
  else do
    let t ← serializer.read b
    return ⟨m.tx ++ [(h, t)], m.index ++ [(m.idCount + 1, h)], m.idCount + 1⟩

/-- `add_tx` to the mempool of a node, and the end of `new_tx_1` -/
def SelfNode.addTx (n : SelfNode G T H) (b : B) : Option Bool × SelfNode G T H :=
  match n.mempool.addTx serializer b with
  | some m => (some true, { n with mempool := m })
  | none => (none, n)

/-- `new_tx_1` -/
def newTx (n : SelfNode G T H) (t : T) : Option Bool × SelfNode G T H :=
  let b := serializer.write t
  match executeGoal engine n.global b with
  | (none, g) => (none, { n with global := g })
  | (some true, g) => { n with global := g }.addTx serializer b
  | (some false, g) =>
    { n with global := engine.reset g, punished := n.punished + 1 }.addTx serializer b

end Model

section Statement

variable {G T B H : Type} [DecidableEq T] [DecidableEq H]
  (engine : Engine G B) (serializer : Serializer T B H)

/-- The transactions that have been accepted so far, each of them once, and the global state that
they make, one on top of the other -/
structure Ledger (G T : Type) where
  global : G
  accepted : List T

/-- A transaction that does not succeed changes nothing. -/
def Ledger.submit (l : Ledger G T) (t : T) : Ledger G T :=
  match executeGoal engine l.global (serializer.write t) with
  | (some true, g) => ⟨g, if t ∈ l.accepted then l.accepted else l.accepted ++ [t]⟩
  | _ => l

/-- The mempool that keeps these transactions -/
def Mempool.keeping (accepted : List T) : Mempool T H where
  tx := accepted.map fun t => (serializer.hashSmall (serializer.write t), t)
  index := accepted.mapIdx fun i t => (i + 1, serializer.hashSmall (serializer.write t))
  idCount := accepted.length

/-- A node and the ledger it should keep -/
structure Pair (G T H : Type) where
  node : SelfNode G T H
  ledger : Ledger G T

def step (s : Pair G T H) (t : T) : Pair G T H :=
  ⟨(newTx engine serializer s.node t).2, s.ledger.submit engine serializer t⟩

/-- A node starts with an empty mempool. -/
def start (g : G) (punished : ℕ) : Pair G T H := ⟨⟨g, ⟨[], [], 0⟩, punished⟩, ⟨g, []⟩⟩

/-- The mempool keeps just what has been accepted, and the rest has left no trace. -/
def Holds (s : Pair G T H) : Prop :=
  s.node.global = s.ledger.global ∧ s.node.mempool = .keeping serializer s.ledger.accepted

/-- A transaction that succeeds is read back. One that fails is in the mempool already, or cannot
be read, and is undone; and so is one that throws. -/
def Meets (s : Pair G T H) (t : T) : Prop :=
  match engine.execute s.node.global (serializer.write t) with
  | (.yes, _) => serializer.read (serializer.write t) = some t
  | (.no, g) =>
    ((∃ p ∈ s.node.mempool.tx, p.1 = serializer.hashSmall (serializer.write t)) ∨
      serializer.read (serializer.write t) = none) ∧
    engine.reset (engine.reset g) = s.node.global
  | (.throws, g) => engine.reset g = s.node.global
  | (.escapes, g) => g = s.node.global

end Statement

section Ledger

variable {G T B H : Type} [DecidableEq T]
  {engine : Engine G B} {serializer : Serializer T B H}

theorem Ledger.nodup_submit {l : Ledger G T} (once : l.accepted.Nodup) (t : T) :
    (l.submit engine serializer t).accepted.Nodup := by
  unfold submit
  split
  case h_2 => exact once
  case h_1 =>
    split_ifs with known
    · exact once
    · exact once.append (List.nodup_singleton t) (List.disjoint_singleton.2 known)

theorem Ledger.mem_submit {l : Ledger G T} {t u : T} :
    u ∈ (l.submit engine serializer t).accepted ↔
      u ∈ l.accepted ∨
        u = t ∧ (executeGoal engine l.global (serializer.write t)).1 = some true := by
  unfold submit
  split
  case h_1 succeeds =>
    split_ifs with known
    · simp only [succeeds, and_true]
      exact ⟨.inl, fun either => either.elim id fun same => same ▸ known⟩
    · simp [succeeds]
  case h_2 other =>
    have fails : (executeGoal engine l.global (serializer.write t)).1 ≠ some true := fun yes =>
      other _ (Prod.ext yes rfl)
    simp [fails]

end Ledger

section Keeping

variable {G T B H : Type} {engine : Engine G B} {serializer : Serializer T B H}

theorem Mempool.keeping_append (accepted : List T) (t : T) :
    Mempool.keeping serializer (accepted ++ [t]) =
      ⟨(keeping serializer accepted).tx ++ [(serializer.hashSmall (serializer.write t), t)],
        (keeping serializer accepted).index ++
          [((keeping serializer accepted).idCount + 1,
            serializer.hashSmall (serializer.write t))],
        (keeping serializer accepted).idCount + 1⟩ := by
  simp [keeping, List.mapIdx_append]

variable [DecidableEq H]

/-- What the mempool has under a hash has been read from bytes with this hash. -/
def Mempool.Read (serializer : Serializer T B H) (m : Mempool T H) : Prop :=
  ∀ p ∈ m.tx, ∃ b, serializer.hashSmall b = p.1 ∧ serializer.read b = some p.2

theorem Mempool.Read.addTx {m m' : Mempool T H} (read : Mempool.Read serializer m) {b : B}
    (added : m.addTx serializer b = some m') : Mempool.Read serializer m' := by
  simp only [Mempool.addTx] at added
  split_ifs at added with known
  · obtain rfl := Option.some.inj added
    exact read
  · obtain ⟨t, there, same⟩ := Option.bind_eq_some_iff.1 added
    obtain rfl := Option.some.inj same
    intro p which
    rcases List.mem_append.1 which with old | new
    · exact read p old
    · obtain rfl := List.mem_singleton.1 new
      exact ⟨b, rfl, there⟩

theorem SelfNode.read_addTx (n : SelfNode G T H) (read : n.mempool.Read serializer) (b : B) :
    (n.addTx serializer b).2.mempool.Read serializer := by
  unfold SelfNode.addTx
  split
  case h_1 m added => exact read.addTx added
  case h_2 => exact read

theorem read_newTx {n : SelfNode G T H} (read : n.mempool.Read serializer) (t : T) :
    (newTx engine serializer n t).2.mempool.Read serializer := by
  unfold newTx
  dsimp only
  split
  · exact read
  · apply SelfNode.read_addTx
    exact read
  · apply SelfNode.read_addTx
    exact read

theorem SelfNode.global_addTx (n : SelfNode G T H) (b : B) :
    (n.addTx serializer b).2.global = n.global := by
  unfold SelfNode.addTx
  split <;> rfl

theorem SelfNode.mempool_addTx_eq_iff (n : SelfNode G T H) (b : B) :
    (n.addTx serializer b).2.mempool = n.mempool ↔
      (∃ p ∈ n.mempool.tx, p.1 = serializer.hashSmall b) ∨ serializer.read b = none := by
  have known : serializer.hashSmall b ∈ n.mempool.tx.map Prod.fst ↔
      ∃ p ∈ n.mempool.tx, p.1 = serializer.hashSmall b := List.mem_map
  rw [← known]
  unfold SelfNode.addTx Mempool.addTx
  by_cases there : serializer.hashSmall b ∈ n.mempool.tx.map Prod.fst
  · simp [there]
  · rcases read : serializer.read b with - | t
    · simp [there]
    · simp only [there, if_false, Option.bind_eq_bind, Option.bind_some, false_or]
      refine iff_of_false (fun same => ?_) (by simp)
      simpa using congrArg (·.tx.length) same

end Keeping

section Runs

variable {G T B H : Type} {engine : Engine G B} {serializer : Serializer T B H}

theorem read_of_accepted (apart : Function.Injective serializer.hashSmall) {s : Pair G T H}
    (holds : Holds serializer s) (read : s.node.mempool.Read serializer) {t : T}
    (there : t ∈ s.ledger.accepted) : serializer.read (serializer.write t) = some t := by
  have kept : (serializer.hashSmall (serializer.write t), t) ∈ s.node.mempool.tx := by
    rw [holds.2]
    exact List.mem_map.2 ⟨t, there, rfl⟩
  obtain ⟨b, same, back⟩ := read _ kept
  rwa [apart same] at back

theorem known_iff (apart : Function.Injective serializer.hashSmall) {s : Pair G T H}
    (holds : Holds serializer s) (read : s.node.mempool.Read serializer) {t : T}
    (back : serializer.read (serializer.write t) = some t) :
    serializer.hashSmall (serializer.write t) ∈ s.node.mempool.tx.map Prod.fst ↔
      t ∈ s.ledger.accepted := by
  have heads : s.node.mempool.tx.map Prod.fst =
      s.ledger.accepted.map fun t => serializer.hashSmall (serializer.write t) := by
    rw [holds.2]
    exact List.map_map
  rw [heads, List.mem_map]
  constructor
  · rintro ⟨u, there, same⟩
    have back' := read_of_accepted apart holds read there
    rw [apart same, back] at back'
    exact Option.some.inj back' ▸ there
  · exact fun there => ⟨t, there, rfl⟩

variable [DecidableEq T] [DecidableEq H]

omit [DecidableEq T] in
theorem mempool_addTx_of_new {n : SelfNode G T H} {t : T}
    (new : serializer.hashSmall (serializer.write t) ∉ n.mempool.tx.map Prod.fst)
    (back : serializer.read (serializer.write t) = some t) {accepted : List T}
    (keeps : n.mempool = .keeping serializer accepted) :
    (n.addTx serializer (serializer.write t)).2.mempool =
      .keeping serializer (accepted ++ [t]) := by
  rw [keeps] at new
  have added : n.mempool.addTx serializer (serializer.write t) =
      some (.keeping serializer (accepted ++ [t])) := by
    simp only [Mempool.addTx, keeps, if_neg new, back, Option.bind_eq_bind, Option.bind_some,
      Mempool.keeping_append]
    rfl
  simp only [SelfNode.addTx, added]

variable (engine) in
theorem holds_step_iff (apart : Function.Injective serializer.hashSmall) (s : Pair G T H) (t : T)
    (read : s.node.mempool.Read serializer) (holds : Holds serializer s) :
    Holds serializer (step engine serializer s t) ↔ Meets engine serializer s t := by
  rcases ends : engine.execute s.node.global (serializer.write t) with ⟨outcome, g⟩
  have same : engine.execute s.ledger.global (serializer.write t) = (outcome, g) := by
    rw [← holds.1, ends]
  simp only [Meets, ends]
  cases outcome with
  | yes =>
    have read' : (step engine serializer s t).node.mempool.Read serializer := read_newTx read t
    have global' : (step engine serializer s t).node.global =
        (step engine serializer s t).ledger.global := by
      simp only [step, newTx, Ledger.submit, executeGoal, ends, same, SelfNode.global_addTx]
    have accepts : t ∈ (step engine serializer s t).ledger.accepted :=
      Ledger.mem_submit.2 (.inr ⟨rfl, by simp only [executeGoal, same]⟩)
    refine ⟨fun holds' => read_of_accepted apart holds' read' accepts, fun back => ⟨global', ?_⟩⟩
    have known := known_iff apart holds read back
    simp only [step, newTx, Ledger.submit, executeGoal, ends, same]
    split_ifs with there
    · obtain ⟨p, kept, hash⟩ := List.mem_map.1 (known.2 there)
      exact ((SelfNode.mempool_addTx_eq_iff ⟨engine.stop g, s.node.mempool, s.node.punished⟩
        (serializer.write t)).2 (.inl ⟨p, kept, hash⟩)).trans holds.2
    · exact mempool_addTx_of_new (n := ⟨engine.stop g, s.node.mempool, s.node.punished⟩)
        (fun kept => there (known.1 kept)) back holds.2
  | no =>
    simp only [step, newTx, Ledger.submit, executeGoal, ends, same, Holds, SelfNode.global_addTx]
    rw [← holds.2, ← holds.1, and_comm]
    exact and_congr_left fun _ => SelfNode.mempool_addTx_eq_iff
      ⟨engine.reset (engine.reset g), s.node.mempool, s.node.punished + 1⟩ (serializer.write t)
  | throws =>
    simp only [step, newTx, Ledger.submit, executeGoal, ends, same, Holds]
    rw [and_iff_left holds.2, holds.1]
  | escapes =>
    simp only [step, newTx, Ledger.submit, executeGoal, ends, same, Holds]
    rw [and_iff_left holds.2, holds.1]

theorem accepted_once (engine : Engine G B) (serializer : Serializer T B H) (txs : List T)
    {s : Pair G T H} (once : s.ledger.accepted.Nodup) :
    (txs.foldl (step engine serializer) s).ledger.accepted.Nodup := by
  induction txs generalizing s with
  | nil => exact once
  | cons t txs ih => exact ih (Ledger.nodup_submit once t)

end Runs

section Example

inductive Goal
  | true | fail
  deriving DecidableEq

/-- An engine with nothing to remember -/
def plain : Engine Unit Goal where
  execute _ goal := (match goal with | .true => .yes | .fail => .no, ())
  reset := id
  stop := id

def written : Serializer Goal Goal Goal := ⟨id, some, id⟩

end Example

end Epilog.Node.AcceptedTxs
