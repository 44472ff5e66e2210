/- Module: Epilog/Global/ProgramStore
   source: src/src/global/global.cpp (db_get_predicate, db_set_predicate),
     src/src/global/global_interpreter.cpp (load_predicate, commit_program),
     src/src/interp/interpreter_base.cpp (managed_clauses, load_clause, remove_clauses)
   digest: Predicates in memory and in the program database, and what a commit stores of them. -/

import Epilog.Common.Bits
import Epilog.Common.TermWalk
import Epilog.Global.Interpreter
import Epilog.Lib.ProbeTable

set_option autoImplicit false

namespace Epilog.Global.ProgramStore

open Epilog.Common.Bits Epilog.Common.Term Epilog.Common.TermWalk Epilog.Lib
  Epilog.Lib.FiniteMap Epilog.Global.Interpreter

section Leaves

/-- The custom data of a predicate: its name and its clauses, all as 64-bit words. -/
def leafData (qn : Qname) (clauses : Clauses) : Bytes :=
  writeUint64 qn.1.raw ++ (writeUint64 qn.2.raw ++ clauses.flatMap fun c => writeUint64 c.raw)

def leafName (data : Bytes) : Qname := (⟨readUint64 data⟩, ⟨readUint64 (data.drop 8)⟩)

def readCells : ℕ → Bytes → Clauses
  | 0, _ => []
  | n + 1, p => ⟨readUint64 p⟩ :: readCells n (p.drop 8)

def leafClauses (data : Bytes) : Clauses := readCells ((data.length - 16) / 8) (data.drop 16)

theorem readUint64_append (v : BitVec 64) (rest : Bytes) :
    readUint64 (writeUint64 v ++ rest) = v :=
  readUint64_writeUint64 v

@[simp] theorem leafName_leafData (qn : Qname) (clauses : Clauses) :
    leafName (leafData qn clauses) = qn := by
  rw [leafName, leafData, readUint64_append, List.drop_left' (length_writeUint64 _),
    readUint64_append]

@[simp] theorem leafClauses_leafData (qn : Qname) (clauses : Clauses) :
    leafClauses (leafData qn clauses) = clauses := by
  have cells (cs : Clauses) :
      readCells cs.length (cs.flatMap fun c => writeUint64 c.raw) = cs := by
    induction cs with
    | nil => rfl
    | cons c cs ih =>
      rw [List.length_cons, List.flatMap_cons, readCells, readUint64_append,
        List.drop_left' (length_writeUint64 _), ih]
  have size (cs : Clauses) : (cs.flatMap fun c => writeUint64 c.raw).length = 8 * cs.length := by
    induction cs with
    | nil => rfl
    | cons c cs ih =>
      rw [List.flatMap_cons, List.length_append, length_writeUint64, ih, List.length_cons]
      omega
  have rest : (leafData qn clauses).drop 16 = clauses.flatMap fun c => writeUint64 c.raw := rfl
  have length : (leafData qn clauses).length = 16 + 8 * clauses.length := by
    rw [leafData, List.length_append, List.length_append, size]
    simp only [length_writeUint64]
    omega
  have count : (16 + 8 * clauses.length - 16) / 8 = clauses.length := by omega
  rw [leafClauses, rest, length, count, cells]

end Leaves

section Database

abbrev Key := BitVec 64

/-- `program_db` at the root of the tip -/
abbrev Store := FMap Key Bytes

def MAX_COLLISIONS : ℕ := 10

def MAX_CLAUSES : ℕ := 32

-- `fast_hash` of the two cells of the name and the number of the attempt
variable (hash : Qname → ℕ → Key)

def keys (qn : Qname) : List Key := (List.range MAX_COLLISIONS).map (hash qn)

def dbGetPredicate (db : Store) (qn : Qname) : Option Clauses :=
  (ProbeTable.get (keys hash) leafName db qn).map leafClauses

def dbSetPredicate (db : Store) (qn : Qname) (clauses : Clauses) : Bool × Store :=
  if clauses.length > MAX_CLAUSES then (false, db)
  else
    ((ProbeTable.slot (keys hash) leafName db qn).isSome,
      ProbeTable.set (keys hash) leafName db qn (leafData qn clauses))

abbrev Probed (db : Store) : Prop := ProbeTable.Probed (keys hash) leafName db

variable {hash} {db : Store} {qn : Qname}

theorem Probed.set (probed : Probed hash db) (clauses : Clauses) :
    Probed hash (dbSetPredicate hash db qn clauses).2 := by
  unfold dbSetPredicate
  split_ifs
  · exact probed
  · exact ProbeTable.Probed.set probed (leafName_leafData qn clauses)

theorem dbGet_dbSet_of_ne (probed : Probed hash db) {qn' : Qname} (other : qn' ≠ qn)
    (clauses : Clauses) :
    dbGetPredicate hash (dbSetPredicate hash db qn clauses).2 qn' = dbGetPredicate hash db qn' := by
  unfold dbSetPredicate
  split_ifs
  · rfl
  · rw [dbGetPredicate, dbGetPredicate,
      ProbeTable.get_set_of_ne probed (leafName_leafData qn clauses) other]

theorem dbGet_dbSet_self (probed : Probed hash db)
    (room : ProbeTable.slot (keys hash) leafName db qn ≠ none) (clauses : Clauses) :
    dbGetPredicate hash (dbSetPredicate hash db qn clauses).2 qn =
      if clauses.length ≤ MAX_CLAUSES then some clauses else dbGetPredicate hash db qn := by
  unfold dbSetPredicate
  by_cases fits : clauses.length ≤ MAX_CLAUSES
  · rw [if_neg (by omega), if_pos fits, dbGetPredicate,
      ProbeTable.get_set_self probed (leafName_leafData qn clauses) room, Option.map_some,
      leafClauses_leafData]
  · rw [if_pos (by omega), if_neg fits]

/-- The names of the predicates that are stored are known. -/
def Named (names : Set Qname) (db : Store) : Prop :=
  ∀ k d, db.lookup k = some d → leafName d ∈ names

theorem Named.set {names : Set Qname} (named : Named names db) (member : qn ∈ names)
    (clauses : Clauses) : Named names (dbSetPredicate hash db qn clauses).2 := by
  unfold dbSetPredicate
  split_ifs
  · exact named
  · intro k d found
    unfold ProbeTable.set at found
    split at found
    · exact named k d found
    · rw [lookup_insert_ite] at found
      split_ifs at found
      · rw [← Option.some.inj found, leafName_leafData]
        exact member
      · exact named k d found

end Database

section Memory

/-- `managed_clauses`: erased clauses stay as `term()`. -/
structure Predicate where
  clauses : Clauses
  numClauses : ℕ
  deriving DecidableEq

inductive ClausePosition
  | FIRST_CLAUSE
  | LAST_CLAUSE
  deriving DecidableEq

namespace Predicate

def none : Predicate := { clauses := [], numClauses := 0 }

def empty (p : Predicate) : Bool := p.numClauses = 0

def addClause (p : Predicate) (clause : Cell) : ClausePosition → Predicate
  | .FIRST_CLAUSE => { clauses := clause :: p.clauses, numClauses := p.numClauses + 1 }
  | .LAST_CLAUSE => { clauses := p.clauses ++ [clause], numClauses := p.numClauses + 1 }

/-- `erase` of the clause at an index, if it is not erased yet -/
def erase (p : Predicate) (i : ℕ) : Predicate :=
  match p.clauses[i]? with
  | some c =>
    if c = noTerm then p
    else { clauses := p.clauses.set i noTerm, numClauses := p.numClauses - 1 }
  | Option.none => p

def removeClauses (p : Predicate) (indices : List ℕ) : Predicate := indices.foldl erase p

/-- `remove_clause`: the first clause that is this one -/
def removeClause (p : Predicate) (clause : Cell) : Predicate :=
  match p.clauses.findIdx? fun c => c ≠ noTerm ∧ c = clause with
  | some i => p.erase i
  | Option.none => p

end Predicate

/-- The clauses that are not erased -/
def live (clauses : Clauses) : Clauses := clauses.filter (· ≠ noTerm)

/-- The predicates in memory, those to be committed, and the database -/
structure ProgramState where
  programDb : FMap Qname Predicate := ∅
  updatedPredicates : List Qname := []
  store : Store := ∅

inductive Op
  | getPredicate (qn : Qname)
  | loadClause (qn : Qname) (clause : Cell) (pos : ClausePosition)
  | removeClauses (qn : Qname)
  | retractall (qn : Qname) (indices : List ℕ)
  | retract (qn : Qname) (clause : Cell)
  | commitProgram
  /-- Another interpreter opens the database. -/
  | restart
  deriving DecidableEq

/-- The predicate that an operation is about -/
def Op.name : Op → Option Qname
  | .getPredicate qn | .loadClause qn _ _ | .removeClauses qn | .retractall qn _
  | .retract qn _ => some qn
  | .commitProgram | .restart => none

variable (hash : Qname → ℕ → Key)

/-- What `load_predicate` adds: the clauses in the database, or those inherited from `system`. -/
def loadPredicate (db : Store) (qn : Qname) : Clauses :=
  match dbGetPredicate hash db qn with
  | some clauses => clauses
  | none => (dbGetPredicate hash db (SYSTEM, qn.2)).getD []

namespace ProgramState

def inMemory (s : ProgramState) (qn : Qname) : Predicate := (s.programDb.lookup qn).getD .none

/-- `get_predicate`, which loads a predicate without clauses. -/
def getPredicate (s : ProgramState) (qn : Qname) : ProgramState :=
  let p := s.inMemory qn
  let p := if p.empty then
      (loadPredicate hash s.store qn).foldl (fun p c => p.addClause c .LAST_CLAUSE) p
    else p
  { s with programDb := s.programDb.insert qn p }

def change (s : ProgramState) (qn : Qname) (f : Predicate → Predicate) : ProgramState :=
  { s with programDb := s.programDb.insert qn (f (s.inMemory qn)) }

/-- `updated_predicate_post` -/
def updated (s : ProgramState) (qn : Qname) : ProgramState :=
  { s with updatedPredicates := s.updatedPredicates ++ [qn] }

/-- The loop body of `commit_program`; the result of `db_set_predicate` is not looked at. -/
def turn (s : ProgramState) (qn : Qname) : ProgramState :=
  let s := s.getPredicate hash qn
  { s with store := (dbSetPredicate hash s.store qn (s.inMemory qn).clauses).2 }

def commitProgram (s : ProgramState) : ProgramState :=
  { s.updatedPredicates.foldl (turn hash) s with updatedPredicates := [] }

def step (s : ProgramState) : Op → ProgramState
  | .getPredicate qn => s.getPredicate hash qn
  | .loadClause qn clause pos =>
    ((s.getPredicate hash qn).change qn fun p => p.addClause clause pos).updated qn
  | .removeClauses qn =>
    let s := s.getPredicate hash qn
    if (s.inMemory qn).empty then s else (s.change qn fun _ => .none).updated qn
  | .retractall qn indices =>
    let s := (s.getPredicate hash qn).change qn fun p => p.removeClauses indices
    if indices = [] then s else s.updated qn
  | .retract qn clause => (s.getPredicate hash qn).change qn fun p => p.removeClause clause
  | .commitProgram => s.commitProgram hash
  | .restart => { store := s.store }

/-- The clauses of a predicate, with the erased ones: those in memory, or else those stored. -/
def clausesOf (s : ProgramState) (qn : Qname) : Clauses :=
  match s.programDb.lookup qn with
  | some p => p.clauses
  | none => (dbGetPredicate hash s.store qn).getD []

/-- What is loaded on top of a predicate without clauses when its turn comes. -/
def reloaded (s : ProgramState) (qn : Qname) : Clauses :=
  if (s.inMemory qn).empty then
    let earlier := (s.updatedPredicates.takeWhile (· ≠ qn)).foldl (turn hash) s
    loadPredicate hash earlier.store qn
  else []

/-- The commit is going to store the live clauses of the predicate, or has them stored already. -/
def Kept (s : ProgramState) (qn : Qname) : Prop :=
  if qn ∈ s.updatedPredicates ∧
      (s.clausesOf hash qn ++ s.reloaded hash qn).length ≤ MAX_CLAUSES then
    noTerm ∉ s.clausesOf hash qn ∧ s.reloaded hash qn = []
  else (dbGetPredicate hash s.store qn).getD [] = live (s.clausesOf hash qn)

end ProgramState

end Memory

section Sound

variable {hash : Qname → ℕ → Key} {names : Set Qname} {s : ProgramState} {qn : Qname}

namespace Predicate

theorem live_set_length {clauses : Clauses} {i : ℕ} {c : Cell} (here : clauses[i]? = some c)
    (alive : c ≠ noTerm) :
    (live (clauses.set i noTerm)).length + 1 = (live clauses).length := by
  induction clauses generalizing i with
  | nil => exact nomatch here
  | cons head clauses ih =>
    cases i with
    | zero =>
      obtain rfl : head = c := by simpa using here
      simp [live, alive]
    | succ i =>
      have rest := ih (by simpa using here)
      by_cases erased : head = noTerm
      · simpa [live, erased] using rest
      · simpa [live, erased] using rest

/-- The count covers the live clauses. -/
def Counted (p : Predicate) : Prop := (live p.clauses).length ≤ p.numClauses

theorem Counted.addClause {p : Predicate} (counted : p.Counted) (clause : Cell)
    (pos : ClausePosition) : (p.addClause clause pos).Counted := by
  have one : (live [clause]).length ≤ 1 := List.length_filter_le _ [clause]
  unfold Counted at *
  cases pos with
  | FIRST_CLAUSE =>
    have split : live (clause :: p.clauses) = live [clause] ++ live p.clauses :=
      List.filter_append [clause] p.clauses
    rw [Predicate.addClause, split, List.length_append]
    dsimp only
    omega
  | LAST_CLAUSE =>
    have split : live (p.clauses ++ [clause]) = live p.clauses ++ live [clause] :=
      List.filter_append p.clauses [clause]
    rw [Predicate.addClause, split, List.length_append]
    dsimp only
    omega

theorem Counted.erase {p : Predicate} (counted : p.Counted) (i : ℕ) : (p.erase i).Counted := by
  unfold Predicate.erase
  split
  case h_1 c here =>
    split_ifs with erased
    · exact counted
    · have shorter := live_set_length here erased
      unfold Counted at *
      dsimp only
      omega
  case h_2 => exact counted

theorem Counted.removeClauses {p : Predicate} (counted : p.Counted) (indices : List ℕ) :
    (p.removeClauses indices).Counted := by
  induction indices generalizing p with
  | nil => exact counted
  | cons i indices ih => exact ih (counted.erase i)

theorem Counted.removeClause {p : Predicate} (counted : p.Counted) (clause : Cell) :
    (p.removeClause clause).Counted := by
  unfold Predicate.removeClause
  split
  · exact counted.erase _
  · exact counted

theorem foldl_addClause (p : Predicate) (clauses : Clauses) :
    clauses.foldl (fun p c => p.addClause c .LAST_CLAUSE) p =
      { clauses := p.clauses ++ clauses, numClauses := p.numClauses + clauses.length } := by
  induction clauses generalizing p with
  | nil => simp
  | cons c clauses ih =>
    rw [List.foldl_cons, ih, addClause]
    simp only [List.append_assoc, List.singleton_append, List.length_cons, mk.injEq, true_and]
    omega

theorem Counted.add {p : Predicate} (counted : p.Counted) (clauses : Clauses) :
    Counted { clauses := p.clauses ++ clauses, numClauses := p.numClauses + clauses.length } := by
  rw [← foldl_addClause]
  induction clauses generalizing p with
  | nil => exact counted
  | cons c clauses ih => exact ih (counted.addClause c .LAST_CLAUSE)

end Predicate

namespace ProgramState

variable (hash) in
/-- What `get_predicate` adds to the predicate in memory -/
def loads (s : ProgramState) (qn : Qname) : Clauses :=
  if (s.inMemory qn).empty then loadPredicate hash s.store qn else []

theorem inMemory_getPredicate_self : (s.getPredicate hash qn).inMemory qn =
    { clauses := (s.inMemory qn).clauses ++ s.loads hash qn
      numClauses := (s.inMemory qn).numClauses + (s.loads hash qn).length } := by
  rw [getPredicate, inMemory, lookup_insert_ite, if_pos rfl, Option.getD_some, loads,
    Predicate.foldl_addClause]
  split_ifs
  · rfl
  · simp

theorem lookup_getPredicate_self :
    ((s.getPredicate hash qn).programDb.lookup qn).isSome := by
  rw [getPredicate, lookup_insert_ite, if_pos rfl]
  rfl

theorem lookup_getPredicate_of_ne {qn' : Qname} (other : qn' ≠ qn) :
    (s.getPredicate hash qn).programDb.lookup qn' = s.programDb.lookup qn' := by
  rw [getPredicate, lookup_insert_ite, if_neg other]

/-- What the operations keep up. -/
structure Sound (hash : Qname → ℕ → Key) (names : Set Qname) (s : ProgramState) : Prop where
  probed : Probed hash s.store
  known : Named names s.store
  updated : ∀ qn ∈ s.updatedPredicates, qn ∈ names ∧ (s.programDb.lookup qn).isSome
  counted : ∀ qn, (s.inMemory qn).Counted

theorem Sound.change (sound : Sound hash names s) {f : Predicate → Predicate}
    (counts : ∀ p, p.Counted → (f p).Counted) : Sound hash names (s.change qn f) where
  probed := sound.probed
  known := sound.known
  updated qn' member := by
    refine ⟨(sound.updated qn' member).1, ?_⟩
    rw [ProgramState.change, lookup_insert_ite]
    split_ifs
    · rfl
    · exact (sound.updated qn' member).2
  counted qn' := by
    rw [inMemory, ProgramState.change, lookup_insert_ite]
    split_ifs
    · exact counts _ (sound.counted qn)
    · exact sound.counted qn'

theorem Sound.getPredicate (sound : Sound hash names s) :
    Sound hash names (s.getPredicate hash qn) where
  probed := sound.probed
  known := sound.known
  updated qn' member := by
    refine ⟨(sound.updated qn' member).1, ?_⟩
    by_cases here : qn' = qn
    · rw [here]
      exact lookup_getPredicate_self
    · rw [lookup_getPredicate_of_ne here]
      exact (sound.updated qn' member).2
  counted qn' := by
    by_cases here : qn' = qn
    · rw [here, inMemory_getPredicate_self]
      exact (sound.counted qn).add _
    · rw [inMemory, lookup_getPredicate_of_ne here]
      exact sound.counted qn'

theorem Sound.tell (sound : Sound hash names s) (member : qn ∈ names)
    (loaded : (s.programDb.lookup qn).isSome) : Sound hash names (s.updated qn) where
  probed := sound.probed
  known := sound.known
  updated qn' mem := by
    rcases List.mem_append.1 mem with mem | mem
    · exact sound.updated qn' mem
    · rw [List.mem_singleton.1 mem]
      exact ⟨member, loaded⟩
  counted := sound.counted

theorem Sound.turn (sound : Sound hash names s) (member : qn ∈ names) :
    Sound hash names (s.turn hash qn) where
  probed := sound.probed.set _
  known := sound.known.set member _
  updated := sound.getPredicate.updated
  counted := sound.getPredicate.counted

theorem Sound.turns {qns : List Qname} (sound : Sound hash names s)
    (members : ∀ qn ∈ qns, qn ∈ names) :
    Sound hash names (qns.foldl (ProgramState.turn hash) s) := by
  induction qns generalizing s with
  | nil => exact sound
  | cons qn qns ih =>
    exact ih (sound.turn (members qn List.mem_cons_self))
      fun qn' mem => members qn' (List.mem_cons_of_mem qn mem)

theorem lookup_change_self (f : Predicate → Predicate) :
    ((s.change qn f).programDb.lookup qn).isSome := by
  rw [change, lookup_insert_ite, if_pos rfl]
  rfl

theorem Sound.step (sound : Sound hash names s) (op : Op)
    (known : ∀ qn, op.name = some qn → qn ∈ names) : Sound hash names (s.step hash op) := by
  cases op with
  | getPredicate qn => exact sound.getPredicate
  | loadClause qn clause pos =>
    exact (sound.getPredicate.change fun p counted => counted.addClause clause pos).tell
      (known qn rfl) (lookup_change_self _)
  | removeClauses qn =>
    unfold ProgramState.step
    dsimp only
    split_ifs
    · exact sound.getPredicate
    · have zero : Predicate.none.Counted := Nat.le_refl 0
      exact (sound.getPredicate.change fun _ _ => zero).tell (known qn rfl) (lookup_change_self _)
  | retractall qn indices =>
    have changed : Sound hash names
        ((s.getPredicate hash qn).change qn fun p => p.removeClauses indices) :=
      sound.getPredicate.change fun p counted => counted.removeClauses indices
    unfold ProgramState.step
    dsimp only
    split_ifs
    · exact changed
    · exact changed.tell (known qn rfl) (lookup_change_self _)
  | retract qn clause => exact sound.getPredicate.change fun p counted => counted.removeClause clause
  | commitProgram =>
    have turned := sound.turns fun qn mem => (sound.updated qn mem).1
    exact ⟨turned.probed, turned.known, nofun, turned.counted⟩
  | restart => exact ⟨sound.probed, sound.known, nofun, fun _ => Nat.le_refl 0⟩

/-- The state after some operations on a new database. -/
def run (hash : Qname → ℕ → Key) (ops : List Op) : ProgramState :=
  ops.foldl (ProgramState.step hash) {}

theorem sound_run (ops : List Op) (known : ∀ op ∈ ops, ∀ qn, op.name = some qn → qn ∈ names) :
    Sound hash names (run hash ops) := by
  have general : ∀ (ops : List Op) (s : ProgramState), Sound hash names s →
      (∀ op ∈ ops, ∀ qn, op.name = some qn → qn ∈ names) →
      Sound hash names (ops.foldl (ProgramState.step hash) s) := by
    intro ops
    induction ops with
    | nil => exact fun _ sound _ => sound
    | cons op ops ih =>
      intro s sound known
      exact ih _ (sound.step op (known op List.mem_cons_self))
        fun op' mem => known op' (List.mem_cons_of_mem op mem)
  exact general ops {} ⟨nofun, nofun, nofun, fun _ => Nat.le_refl 0⟩ known

end ProgramState

end Sound

section Commit

variable {hash : Qname → ℕ → Key} {names : Set Qname} {s : ProgramState} {qn qn' : Qname}

namespace ProgramState

theorem inMemory_turn_self : (s.turn hash qn).inMemory qn =
    { clauses := (s.inMemory qn).clauses ++ s.loads hash qn
      numClauses := (s.inMemory qn).numClauses + (s.loads hash qn).length } :=
  inMemory_getPredicate_self

theorem lookup_turn_of_ne (other : qn' ≠ qn) :
    (s.turn hash qn).programDb.lookup qn' = s.programDb.lookup qn' :=
  lookup_getPredicate_of_ne other

theorem stored_turn_of_ne (sound : Sound hash names s) (other : qn' ≠ qn) :
    dbGetPredicate hash (s.turn hash qn).store qn' = dbGetPredicate hash s.store qn' :=
  dbGet_dbSet_of_ne sound.probed other _

theorem stored_turn_self (sound : Sound hash names s) (roomy : ProbeTable.Roomy (keys hash) names)
    (member : qn ∈ names) :
    dbGetPredicate hash (s.turn hash qn).store qn =
      if ((s.inMemory qn).clauses ++ s.loads hash qn).length ≤ MAX_CLAUSES then
        some ((s.inMemory qn).clauses ++ s.loads hash qn)
      else dbGetPredicate hash s.store qn := by
  have room := ProbeTable.slot_of_roomy sound.probed roomy sound.known member
  have stored := dbGet_dbSet_self sound.probed room ((s.getPredicate hash qn).inMemory qn).clauses
  rw [inMemory_getPredicate_self] at stored
  rw [turn, inMemory_getPredicate_self]
  exact stored

theorem turns_of_ne {qns : List Qname} (sound : Sound hash names s)
    (members : ∀ qn ∈ qns, qn ∈ names) (apart : qn' ∉ qns) :
    (qns.foldl (turn hash) s).programDb.lookup qn' = s.programDb.lookup qn' ∧
      dbGetPredicate hash (qns.foldl (turn hash) s).store qn' = dbGetPredicate hash s.store qn' := by
  induction qns generalizing s with
  | nil => exact ⟨rfl, rfl⟩
  | cons qn qns ih =>
    rw [List.mem_cons, not_or] at apart
    obtain ⟨other, apart⟩ := apart
    have later := ih (sound.turn (members qn List.mem_cons_self))
      (fun qn' mem => members qn' (List.mem_cons_of_mem qn mem)) apart
    exact ⟨later.1.trans (lookup_turn_of_ne other), later.2.trans (stored_turn_of_ne sound other)⟩

theorem turns_keep (qn' : Qname) {P : Predicate → Option Clauses → Prop} {qns : List Qname}
    (sound : Sound hash names s) (members : ∀ qn ∈ qns, qn ∈ names)
    (keeps : ∀ s : ProgramState, Sound hash names s →
      P (s.inMemory qn') (dbGetPredicate hash s.store qn') →
      P ((s.turn hash qn').inMemory qn') (dbGetPredicate hash (s.turn hash qn').store qn'))
    (start : P (s.inMemory qn') (dbGetPredicate hash s.store qn')) :
    P ((qns.foldl (turn hash) s).inMemory qn')
      (dbGetPredicate hash (qns.foldl (turn hash) s).store qn') := by
  induction qns generalizing s with
  | nil => exact start
  | cons qn qns ih =>
    apply ih (sound.turn (members qn List.mem_cons_self))
      (fun qn' mem => members qn' (List.mem_cons_of_mem qn mem))
    by_cases here : qn' = qn
    · exact here ▸ keeps s sound start
    · rw [inMemory, lookup_turn_of_ne here, stored_turn_of_ne sound here]
      exact start

theorem live_eq_self_iff (clauses : Clauses) : clauses = live clauses ↔ noTerm ∉ clauses := by
  rw [live, eq_comm, List.filter_eq_self]
  exact ⟨fun all mem => by simpa using all noTerm mem,
    fun absent c mem => by simpa using fun same : c = noTerm => absent (same ▸ mem)⟩

theorem append_eq_live_iff (clauses more : Clauses) :
    clauses ++ more = live clauses ↔ noTerm ∉ clauses ∧ more = [] := by
  constructor
  · intro same
    have shorter : (live clauses).length ≤ clauses.length := List.length_filter_le _ clauses
    have length := congrArg List.length same
    rw [List.length_append] at length
    have nothing : more = [] := List.eq_nil_of_length_eq_zero (by omega)
    rw [nothing, List.append_nil, live_eq_self_iff] at same
    exact ⟨same, nothing⟩
  · rintro ⟨absent, rfl⟩
    rw [List.append_nil, live_eq_self_iff]
    exact absent

theorem stored_turns_self (sound : Sound hash names s)
    (roomy : ProbeTable.Roomy (keys hash) names) (member : qn ∈ names) {qns : List Qname}
    (members : ∀ qn ∈ qns, qn ∈ names) :
    (dbGetPredicate hash ((qn :: qns).foldl (turn hash) s).store qn).getD [] =
        live (s.inMemory qn).clauses ↔
      if ((s.inMemory qn).clauses ++ s.loads hash qn).length ≤ MAX_CLAUSES then
        noTerm ∉ (s.inMemory qn).clauses ∧ s.loads hash qn = []
      else (dbGetPredicate hash s.store qn).getD [] = live (s.inMemory qn).clauses := by
  have first := sound.turn member
  have memory : (s.turn hash qn).inMemory qn =
      { clauses := (s.inMemory qn).clauses ++ s.loads hash qn
        numClauses := (s.inMemory qn).numClauses + (s.loads hash qn).length } := inMemory_turn_self
  have stored := stored_turn_self sound roomy member
  rw [List.foldl_cons]
  generalize total : (s.inMemory qn).clauses ++ s.loads hash qn = w at memory stored ⊢
  split_ifs at stored ⊢ with fits
  · by_cases stable : ((s.turn hash qn).inMemory qn).numClauses ≠ 0 ∨ w = []
    · -- nothing more is loaded later on
      have final := turns_keep qn
        (P := fun p st => p.clauses = w ∧ (p.numClauses ≠ 0 ∨ w = []) ∧ st = some w)
        first members ?_ ⟨by rw [memory], stable, stored⟩
      · rw [final.2.2, Option.getD_some, ← append_eq_live_iff, total]
      · rintro s' sound' ⟨clauses, more, st⟩
        have none : s'.loads hash qn = [] := by
          rw [loads, Predicate.empty]
          split_ifs with zero
          · rw [loadPredicate, st]
            exact more.resolve_left fun nonzero => nonzero (of_decide_eq_true zero)
          · rfl
        rw [inMemory_turn_self, stored_turn_self sound' roomy member, none, List.append_nil,
          clauses, if_pos fits]
        exact ⟨rfl, more, rfl⟩
    · -- the predicate has erased clauses only, and these are stored
      rw [not_or, not_not, memory] at stable
      obtain ⟨zero, nonempty⟩ := stable
      dsimp only at zero
      have none : s.loads hash qn = [] := List.eq_nil_of_length_eq_zero (by omega)
      rw [none, List.append_nil] at total
      have dead : live (s.inMemory qn).clauses = [] := by
        have counted := sound.counted qn
        unfold Predicate.Counted at counted
        exact List.eq_nil_of_length_eq_zero (by omega)
      have erased : noTerm ∈ w := by
        by_contra absent
        rw [← total, ← live_eq_self_iff, dead, total] at absent
        exact nonempty absent
      have final := turns_keep qn
        (P := fun p st => noTerm ∈ p.clauses ∧ ∃ cs, st = some cs ∧ noTerm ∈ cs)
        first members ?_ ⟨by rw [memory]; exact erased, w, stored, erased⟩
      · obtain ⟨_, cs, st, mem⟩ := final
        rw [st, Option.getD_some, dead, total]
        refine ⟨fun empty => ?_, fun absent => absurd erased absent.1⟩
        rw [empty] at mem
        exact nomatch mem
      · rintro s' sound' ⟨mem, cs, st, mem'⟩
        rw [inMemory_turn_self, stored_turn_self sound' roomy member]
        refine ⟨List.mem_append_left _ mem, ?_⟩
        split_ifs
        · exact ⟨_, rfl, List.mem_append_left _ mem⟩
        · exact ⟨cs, st, mem'⟩
  · have final := turns_keep qn
      (P := fun p st => MAX_CLAUSES < p.clauses.length ∧ st = dbGetPredicate hash s.store qn)
      first members ?_ ⟨by rw [memory]; exact Nat.lt_of_not_le fits, stored⟩
    · rw [final.2]
    · rintro s' sound' ⟨long, st⟩
      rw [inMemory_turn_self, stored_turn_self sound' roomy member]
      dsimp only
      rw [List.length_append]
      refine ⟨by omega, ?_⟩
      rw [if_neg (by omega)]
      exact st

theorem split_at_first {qns : List Qname} (mem : qn ∈ qns) :
    ∃ later, qns = qns.takeWhile (· ≠ qn) ++ qn :: later := by
  induction qns with
  | nil => exact nomatch mem
  | cons head qns ih =>
    by_cases here : head = qn
    · exact ⟨qns, by simp [here]⟩
    · obtain ⟨later, split⟩ := ih ((List.mem_cons.1 mem).resolve_left (Ne.symm here))
      refine ⟨later, ?_⟩
      rw [List.takeWhile_cons_of_pos (by simpa using here), List.cons_append, ← split]

theorem stored_commitProgram (sound : Sound hash names s)
    (roomy : ProbeTable.Roomy (keys hash) names) (qn : Qname) :
    (dbGetPredicate hash (s.commitProgram hash).store qn).getD [] = live (s.clausesOf hash qn) ↔
      s.Kept hash qn := by
  have members : ∀ qn ∈ s.updatedPredicates, qn ∈ names := fun qn mem => (sound.updated qn mem).1
  change (dbGetPredicate hash (s.updatedPredicates.foldl (turn hash) s).store qn).getD [] = _ ↔ _
  unfold Kept
  by_cases mem : qn ∈ s.updatedPredicates
  · obtain ⟨p, here⟩ := Option.isSome_iff_exists.1 (sound.updated qn mem).2
    obtain ⟨later, split⟩ := split_at_first mem
    have before : ∀ qn' ∈ s.updatedPredicates.takeWhile (· ≠ qn), qn' ∈ names :=
      fun qn' mem' => members qn' ((List.takeWhile_prefix _).mem mem')
    have apart : qn ∉ s.updatedPredicates.takeWhile (· ≠ qn) := by
      intro mem'
      have other := List.all_eq_true.mp (List.all_takeWhile) qn mem'
      exact absurd rfl (of_decide_eq_true other)
    have after : ∀ qn' ∈ later, qn' ∈ names := by
      intro qn' mem'
      apply members
      rw [split]
      exact List.mem_append_right _ (List.mem_cons_of_mem qn mem')
    -- the turns before leave the predicate and what is stored of it alone
    have waiting := turns_of_ne sound before apart
    have sound' := sound.turns before
    have memory : ((s.updatedPredicates.takeWhile (· ≠ qn)).foldl (turn hash) s).inMemory qn =
        s.inMemory qn := by
      rw [inMemory, waiting.1]
      rfl
    have clauses : s.clausesOf hash qn = (s.inMemory qn).clauses := by
      rw [clausesOf, inMemory, here]
      rfl
    have decided := stored_turns_self sound' roomy (members qn mem) after
    rw [← List.foldl_append, ← split, memory, waiting.2] at decided
    rw [clauses, decided, reloaded]
    simp only [loads, memory, mem, true_and]
  · rw [(turns_of_ne sound members mem).2, if_neg fun both => mem both.1]

end ProgramState

section Examples

/-- `user:parent/2` -/
def parent : Qname :=
  (Cell.conOfName (Cell.ascii "user") 0, Cell.conOfName (Cell.ascii "parent") 2)

def sumHash (qn : Qname) (i : ℕ) : Key := qn.1.raw + qn.2.raw + BitVec.ofNat 64 i

def clauseAt (addr : ℕ) : Cell := Cell.make .STR addr

end Examples

end Commit

end Epilog.Global.ProgramStore
