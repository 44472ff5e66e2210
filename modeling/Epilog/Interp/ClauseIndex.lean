/- Module: Epilog/Interp/ClauseIndex
   source: src/src/interp/interpreter_base.hpp, src/src/interp/interpreter_base.cpp
     (managed_clauses)
   digest: The clauses of a predicate with their index, and runs of changes and lookups. -/

import Epilog.Interp.ClauseTerms
import Epilog.Lib.StepRuns
import Mathlib.Data.List.ReduceOption

set_option autoImplicit false

namespace Epilog.Interp.ClauseIndex

open Epilog.Common.Term Epilog.Common.Term.Cell Epilog.Common.TermWalk Epilog.Common.HeapTrees
  Epilog.Common.Unification Epilog.Common.MostGeneral Epilog.Interp.ClauseTerms Epilog.Lib.StepRuns

section Source

/-- `index_`: the buckets by tag and hash value -/
abbrev Index := List ((Tag × ℕ) × List ℕ)

namespace Index

/-- What is in a bucket; one that is not there is as good as empty. -/
def bucket (index : Index) (key : Tag × ℕ) : List ℕ := (index.lookup key).getD []

/-- `index_[tag][h]`, which makes the bucket if it is not there -/
def modify (index : Index) (key : Tag × ℕ) (change : List ℕ → List ℕ) : Index :=
  if (index.lookup key).isSome then
    index.map fun p => if p.1 = key then (p.1, change p.2) else p
  else index ++ [(key, change [])]

end Index

/-- `managed_clauses`: a clause that is erased is `term()`, and so is the largest number in `all_`
where a clause was removed. -/
structure ManagedClauses where
  clauses : List Cell
  numClauses : ℕ
  hasVars : Bool
  isIndexed : Bool
  index : Index
  all : List (Option ℕ)

namespace ManagedClauses

def clear : ManagedClauses where
  clauses := []
  numClauses := 0
  hasVars := false
  isIndexed := true
  index := []
  all := []

variable (r : Reader) (db : ManagedClauses)

def addIndex (i : ℕ) : Option ManagedClauses := do
  let clause ← db.clauses[i]?
  let firstArg ← r.clauseFirstArg clause
  let db := { db with all := db.all ++ [some i] }
  if firstArg = noTerm then return db
  if firstArg.tag.isRef then return { db with hasVars := true }
  let h ← r.simpleHash firstArg
  return { db with index := db.index.modify (firstArg.tag, h) (· ++ [i]) }

/-- `add_clause` at the front; `all_` stays as it is. -/
def addFirst (clause : Cell) : ManagedClauses :=
  { db with
    clauses := clause :: db.clauses
    numClauses := db.numClauses + 1
    isIndexed := false
    index := [] }

/-- `add_clause` at the back -/
def addLast (clause : Cell) : Option ManagedClauses := do
  let db ← { db with clauses := db.clauses ++ [clause] }.addIndex r db.clauses.length
  return { db with numClauses := db.numClauses + 1 }

/-- The loop of `all_var_based_clauses`: an erased clause is read as what is in the first cell of
the heap. -/
def varBasedFrom : ℕ → List Cell → Option (List ℕ)
  | _, [] => some []
  | i, clause :: rest => do
    let firstArg ← r.clauseFirstArg clause
    let later ← varBasedFrom (i + 1) rest
    return if firstArg ≠ noTerm ∧ firstArg.tag.isRef then i :: later else later

def allVarBasedClauses : Option (List ℕ) := varBasedFrom r 0 db.clauses

/-- The body of the loop of `do_index` -/
def indexClause (varBased : List ℕ) (db : ManagedClauses) (i : ℕ) : Option ManagedClauses := do
  let clause ← db.clauses[i]?
  let db := { db with all := db.all ++ [some i] }
  if clause = noTerm then return db
  let firstArg ← r.clauseFirstArg clause
  if firstArg = noTerm then return db
  if firstArg.tag.isRef then return { db with hasVars := true }
  let h ← r.simpleHash firstArg
  -- nothing is put into the bucket unless there are such clauses
  let indices := varBased.flatMap fun j => if j < i then [i, j] else [j]
  return { db with index := db.index.modify (firstArg.tag, h) (· ++ indices) }

def doIndex : Option ManagedClauses :=
  if db.isIndexed then some db
  else do
    let varBased ← db.allVarBasedClauses r
    let db ← (List.range db.clauses.length).foldlM (indexClause r varBased)
      { db with hasVars := false, index := [], all := [] }
    return { db with isIndexed := true }

def getIndexedFirstArg (firstArg : Cell) : Option (List (Option ℕ) × ManagedClauses) :=
  if firstArg = noTerm then some (db.all, db)
  else do
    let db ← db.doIndex r
    if firstArg.tag.isRef ∨ db.hasVars then return (db.all, db)
    let h ← r.simpleHash firstArg
    let key := (firstArg.tag, h)
    return ((db.index.bucket key).map some, { db with index := db.index.modify key id })

def getIndexed (goal : Cell) : Option (List (Option ℕ) × ManagedClauses) := do
  db.getIndexedFirstArg r (← r.getFirstArg goal)

/-- The loop of `remove_clause` -/
def findClause (clauses : List Cell) (clause : Cell) : List (Option ℕ) → Option (Option ℕ)
  | [] => some none
  | none :: rest => findClause clauses clause rest
  | some i :: rest => do
    let c ← clauses[i]?
    if c ≠ noTerm ∧ clause = c then return some i else findClause clauses clause rest

/-- `erase` of a managed clause, and the number of clauses -/
def erase (i : ℕ) : ManagedClauses :=
  { db with clauses := db.clauses.set i noTerm, numClauses := db.numClauses - 1 }

def removeClause (clause : Cell) : Option (Bool × ManagedClauses) := do
  let head ← r.clauseHead clause
  let (index, db) ← db.getIndexed r head
  match ← findClause db.clauses clause index with
  | none => return (false, db)
  | some i => return (true, db.erase i)

/-- `remove_index`: where a clause with a variable is not in a bucket, the end of the bucket is
erased, which is undefined. -/
def removeIndex (i : ℕ) : Option ManagedClauses := do
  let clause ← db.clauses[i]?
  let firstArg ← r.clauseFirstArg clause
  if firstArg = noTerm then return db
  if db.all.length ≤ i then none
  let db := { db with all := db.all.set i none }
  if firstArg.tag.isRef then
    if db.index.all fun p => i ∈ p.2 then
      return { db with index := db.index.map fun p => (p.1, p.2.erase i) }
    else none
  else
    let h ← r.simpleHash firstArg
    return { db with index := db.index.modify (firstArg.tag, h) (·.erase i) }

/-- The body of the loop of `remove_clauses` -/
def removeAt (db : ManagedClauses) (i : ℕ) : Option ManagedClauses := do
  let clause ← db.clauses[i]?
  if clause = noTerm then return db
  let db ← db.removeIndex r i
  return db.erase i

def removeClauses (indices : List ℕ) : Option ManagedClauses :=
  indices.foldlM (removeAt r) db

/-- The test in the loop of `get_matched` and `num_matched` -/
def isMatched (onHead : Bool) (patternHead patternBody clause : Cell) : Option Bool := do
  let head ← r.clauseHead clause
  let body ← r.clauseBody clause
  if ← r.canUnifyArgs head patternHead then
    if onHead then some true else r.canUnify body patternBody
  else some false

/-- The loop of `get_matched` and `num_matched` -/
def matched (clauses : List Cell) (onHead : Bool) (patternHead patternBody : Cell) :
    List (Option ℕ) → Option (List ℕ)
  | [] => some []
  | none :: rest => matched clauses onHead patternHead patternBody rest
  | some i :: rest => do
    let clause ← clauses[i]?
    if clause = noTerm then matched clauses onHead patternHead patternBody rest
    else
      let same ← isMatched r onHead patternHead patternBody clause
      let later ← matched clauses onHead patternHead patternBody rest
      return if same then i :: later else later

def getMatched (pattern : Cell) (onHead : Bool) : Option (List ℕ × ManagedClauses) := do
  let patternHead ← r.clauseHead pattern
  let patternBody ← r.clauseBody pattern
  let (index, db) ← db.getIndexed r patternHead
  let indices ← matched r db.clauses onHead patternHead patternBody index
  return (indices, db)

def numMatched (pattern : Cell) (onHead : Bool) : Option (ℕ × ManagedClauses) := do
  let (indices, db) ← db.getMatched r pattern onHead
  return (indices.length, db)

end ManagedClauses

end Source
section Specification

/-- A predicate: how terms are read at the moment, its clauses as they should be, with `term()` for
those that were removed, and the clauses as they are; none after an exception or an access to what
is not there -/
structure State where
  reading : Reading
  spec : List Cell
  db : Option ManagedClauses

def State.init (r : Reading) : State := ⟨r, [], some .clear⟩

inductive Event
  /-- The heap changes, but for the clauses. -/
  | heap (r : Reading)
  | addFirst (clause : Cell)
  | addLast (clause : Cell)
  | removeClause (clause : Cell)
  | removeClauses (indices : List ℕ)
  | clear
  /-- `get_matched` or `num_matched` -/
  | lookup (pattern : Cell) (onHead : Bool)

/-- The first clause that is this one is removed. -/
def eraseClause (spec : List Cell) (clause : Cell) : List Cell :=
  match spec.findIdx? (· = clause) with
  | none => spec
  | some i => spec.set i noTerm

def State.step (s : State) : Event → State
  | .heap r => { s with reading := r }
  | .addFirst clause =>
    { s with spec := clause :: s.spec, db := s.db.map fun db => db.addFirst clause }
  | .addLast clause =>
    { s with
      spec := s.spec ++ [clause]
      db := s.db.bind fun db => db.addLast s.reading.toReader clause }
  | .removeClause clause =>
    { s with
      spec := eraseClause s.spec clause
      db := s.db.bind fun db => (db.removeClause s.reading.toReader clause).map Prod.snd }
  | .removeClauses indices =>
    { s with
      spec := indices.foldl (fun spec i => spec.set i noTerm) s.spec
      db := s.db.bind fun db => db.removeClauses s.reading.toReader indices }
  | .clear => { s with spec := [], db := some .clear }
  | .lookup pattern onHead =>
    { s with db := s.db.bind fun db =>
        (db.getMatched s.reading.toReader pattern onHead).map Prod.snd }

/-- What a clause is found by: the tag and the hash value of its first argument, if it is no
variable -/
def clauseKey (r : Reader) (clause : Cell) : Option (Tag × ℕ) := do
  let firstArg ← r.clauseFirstArg clause
  if firstArg.tag.isRef then none else return (firstArg.tag, ← r.simpleHash firstArg)

/-- What callers do: the clauses are clauses of the predicate and goals its goals, and clauses stay
as they are while other terms change. -/
def Possible (f : Functor) (s : State) : Event → Prop
  | .heap r => ∀ clause ∈ s.spec, clause ≠ noTerm →
      IsClause r f clause ∧ clauseKey r.toReader clause = clauseKey s.reading.toReader clause
  | .addFirst clause | .addLast clause | .removeClause clause =>
      clause ≠ noTerm ∧ IsClause s.reading f clause
  | .removeClauses indices => ∀ i ∈ indices, i < s.spec.length
  | .clear => True
  | .lookup pattern _ => IsGoal s.reading f pattern

/-- `get_matched` gives the clauses that match and were not removed, each once and in order, and
`num_matched` their number. -/
def Complete (f : Functor) (s : State) : Prop :=
  ∃ db, s.db = some db ∧ db.clauses = s.spec ∧ ∀ pattern onHead, IsGoal s.reading f pattern →
    ∃ indices db', db.getMatched s.reading.toReader pattern onHead = some (indices, db') ∧
      db.numMatched s.reading.toReader pattern onHead = some (indices.length, db') ∧
      indices.Pairwise (· < ·) ∧ ∀ i, i ∈ indices ↔ ∃ clause, s.spec[i]? = some clause ∧
        clause ≠ noTerm ∧ Matches s.reading onHead clause pattern

/-- The first argument of the clause is a variable. -/
def VarFirst (r : Reader) (clause : Cell) : Prop :=
  clause ≠ noTerm ∧ ∃ a, r.clauseFirstArg clause = some a ∧ a ≠ noTerm ∧ a.tag.isRef = true

/-- The clauses can be indexed anew: there are first arguments, one of which is a variable, but
none that is the first cell of the heap, and that cell can be read where a clause was removed. -/
structure Indexable (f : Functor) (r : Reading) (clauses : List Cell) : Prop where
  args : f.cell.arity ≠ 0
  first : r.mem 0 ≠ noTerm
  vars : ∃ clause ∈ clauses, VarFirst r.toReader clause
  erased : noTerm ∈ clauses → r.clauseFirstArg noTerm ≠ none

/-- The condition on a removal: a clause with a variable is in all buckets. -/
def InBuckets (r : Reader) (db : ManagedClauses) (i : ℕ) : Prop :=
  ∀ clause ∈ db.clauses[i]?, VarFirst r clause → ∀ p ∈ db.index, i ∈ p.2

/-- The condition on a step: clauses are added at the front, and the heap changes after that, only
where the clauses can be indexed anew; none is added at the back with the variable in the first cell
of the heap for its first argument; and clauses are removed by index once they are indexed, those
with a variable only when they are in all buckets. -/
def Meets (f : Functor) (s : State) : Event → Prop
  | .heap r => ∀ db ∈ s.db, db.isIndexed = false → Indexable f r s.spec
  | .addFirst clause => Indexable f s.reading (clause :: s.spec)
  | .addLast clause => f.cell.arity ≠ 0 → s.reading.clauseFirstArg clause ≠ some noTerm
  | .removeClauses indices => ∀ db ∈ s.db, db.isIndexed = true ∧
      EachStep (fun db i => (db.removeAt s.reading.toReader i).getD db)
        (InBuckets s.reading.toReader) db indices
  | _ => True

end Specification

section Buckets

variable {index : Index} {key : Tag × ℕ} {change : List ℕ → List ℕ}

theorem lookup_change (index : Index) (key k : Tag × ℕ) (change : List ℕ → List ℕ) :
    (index.map fun p => if p.1 = key then (p.1, change p.2) else p).lookup k =
      (index.lookup k).map fun bucket => if k = key then change bucket else bucket := by
  induction index with
  | nil => rfl
  | cons p index ih =>
    obtain ⟨key', bucket⟩ := p
    by_cases here : k = key'
    · subst here
      rw [List.map_cons, List.lookup_cons_self]
      by_cases changed : k = key
      · rw [if_pos changed, List.lookup_cons_self, Option.map_some, if_pos changed]
      · rw [if_neg changed, List.lookup_cons_self, Option.map_some, if_neg changed]
    · have skip (bucket : List ℕ) (rest : Index) :
          ((key', bucket) :: rest).lookup k = rest.lookup k := by
        have other : (k == key') = false := beq_false_of_ne here
        rw [List.lookup_cons, other]
      rw [List.map_cons, skip bucket index, ← ih]
      split_ifs
      · exact skip _ _
      · exact skip _ _

theorem bucket_modify (index : Index) (key k : Tag × ℕ) (change : List ℕ → List ℕ) :
    (index.modify key change).bucket k =
      if k = key then change (index.bucket key) else index.bucket k := by
  unfold Index.modify Index.bucket
  by_cases there : (index.lookup key).isSome = true
  · obtain ⟨bucket, found⟩ := Option.isSome_iff_exists.1 there
    rw [if_pos there, lookup_change]
    by_cases here : k = key
    · rw [if_pos here, here, found, Option.map_some, if_pos rfl]
      rfl
    · rw [if_neg here]
      simp only [here, if_false, Option.map_id']
  · have missing := Option.not_isSome_iff_eq_none.1 there
    rw [if_neg there, List.lookup_append]
    by_cases here : k = key
    · rw [if_pos here, here, missing, Option.none_or, List.lookup_cons_self]
      rfl
    · have other : (k == key) = false := beq_false_of_ne here
      rw [if_neg here, List.lookup_cons, other, List.lookup_nil, Option.or_none]

end Buckets

section Clauses

variable {r : Reading} {f : Functor} {clause d a : Cell}

theorem noTerm_isRef : noTerm.tag.isRef = true := by decide

theorem firstArg_kinds (first : IsFirst r f d a) :
    f.cell.arity = 0 ∧ a = noTerm ∨
      f.cell.arity ≠ 0 ∧ a.tag.isRef = true ∧ (r.mem 0 ≠ noTerm → a ≠ noTerm) ∨
      f.cell.arity ≠ 0 ∧ a.tag.isRef = false ∧ a ≠ noTerm ∧ ∃ h, r.simpleHash a = some h := by
  rcases first with none_ | ⟨some_, ⟨n, found⟩, isTerm⟩
  · exact .inl none_
  · cases isRef : a.tag.isRef with
    | true =>
      refine .inr (.inl ⟨some_, rfl, fun apart => ?_⟩)
      rintro rfl
      exact apart (deref_end found isRef)
    | false =>
      obtain ⟨l, _, _, _, hash⟩ := r.simpleHash_eq isTerm isRef
      refine .inr (.inr ⟨some_, rfl, ?_, _, hash⟩)
      rintro rfl
      exact absurd (isRef.symm.trans noTerm_isRef) Bool.false_ne_true

theorem isClause_first (isClause : IsClause r f clause) :
    ∃ h d a, r.clauseHead clause = some h ∧ Calls r f h d ∧ IsFirst r f d a ∧
      r.clauseFirstArg clause = some a := by
  obtain ⟨h, d, found, calls⟩ := isClause.head
  obtain ⟨a, first, isFirst⟩ := calls.firstArgOf
  exact ⟨h, d, a, found, calls, isFirst, Option.bind_eq_some_iff.2 ⟨h, found, first⟩⟩

theorem clauseKey_var (found : r.clauseFirstArg clause = some a) (isRef : a.tag.isRef = true) :
    clauseKey r.toReader clause = none := by
  unfold clauseKey
  rw [found]
  exact if_pos isRef

theorem clauseKey_value (found : r.clauseFirstArg clause = some a) (notRef : a.tag.isRef = false)
    {h : ℕ} (hash : r.simpleHash a = some h) :
    clauseKey r.toReader clause = some (a.tag, h) := by
  unfold clauseKey
  rw [found]
  refine (if_neg (Bool.eq_false_iff.1 notRef)).trans ?_
  rw [hash]
  rfl

end Clauses

section Invariant

/-- The index of the clauses: all are listed but those that were removed, and where none has a
variable each is in its bucket. -/
structure Indexed (f : Functor) (r : Reader) (db : ManagedClauses) : Prop where
  length : db.all.length = db.clauses.length
  all : ∀ i < db.clauses.length, db.all[i]? = some (some i) ∨
    db.all[i]? = some none ∧ db.clauses[i]? = some noTerm
  keyed : db.hasVars = false → f.cell.arity ≠ 0 → ∀ i clause, db.clauses[i]? = some clause →
    clause ≠ noTerm → ∃ key, clauseKey r clause = some key ∧ i ∈ db.index.bucket key
  sorted : db.hasVars = false → ∀ key, (db.index.bucket key).Pairwise (· < ·) ∧
    ∀ i ∈ db.index.bucket key, i < db.clauses.length

/-- What holds of the clauses after every step -/
structure Kept (f : Functor) (r : Reading) (spec : List Cell) (db : ManagedClauses) : Prop where
  clauses : db.clauses = spec
  each : ∀ clause ∈ spec, clause ≠ noTerm → IsClause r f clause
  indexed : db.isIndexed = true → Indexed f r.toReader db
  unindexed : db.isIndexed = false → Indexable f r spec

/-- The indices of a lookup for the first argument `a`: in order, and with all clauses that are not
ruled out by what they are found by -/
structure Covers (r : Reader) (clauses : List Cell) (a : Cell) (indices : List (Option ℕ)) :
    Prop where
  sorted : indices.reduceOption.Pairwise (· < ·)
  inside : ∀ i, some i ∈ indices → i < clauses.length
  all : ∀ i clause, clauses[i]? = some clause → clause ≠ noTerm →
    (∀ key h, a.tag.isRef = false → clauseKey r clause = some key → r.simpleHash a = some h →
      key = (a.tag, h)) → some i ∈ indices

variable {r : Reading} {f : Functor} {db : ManagedClauses} {spec : List Cell} {i : ℕ}
  {clause a : Cell}

theorem kept_clear : Kept f r [] .clear where
  clauses := rfl
  each _ listed := absurd listed List.not_mem_nil
  indexed _ := {
    length := rfl
    all := fun i small => absurd small (Nat.not_lt_zero i)
    keyed := fun _ _ _ _ found => nomatch found
    sorted := fun _ _ => ⟨List.Pairwise.nil, fun _ listed => absurd listed List.not_mem_nil⟩ }
  unindexed indexed := nomatch indexed

theorem reduceOption_sorted {indices : List (Option ℕ)}
    (own : ∀ i j : ℕ, indices[i]? = some (some j) → j = i) :
    indices.reduceOption.Pairwise (· < ·) := by
  unfold List.reduceOption
  rw [List.pairwise_filterMap, List.pairwise_iff_getElem]
  intro i j small small' before x isX y isY
  have atI := own i x ((List.getElem?_eq_getElem small).trans (congrArg some isX))
  have atJ := own j y ((List.getElem?_eq_getElem small').trans (congrArg some isY))
  rw [atI, atJ]
  exact before

theorem Indexed.own (indexed : Indexed f r.toReader db) (i j : ℕ)
    (found : db.all[i]? = some (some j)) : j = i := by
  have small : i < db.clauses.length := by
    rw [← indexed.length]
    exact (List.getElem?_eq_some_iff.1 found).1
  rcases indexed.all i small with same | ⟨removed, -⟩
  · exact (Option.some.inj (Option.some.inj (same.symm.trans found))).symm
  · exact nomatch removed.symm.trans found

theorem Indexed.covers_all (indexed : Indexed f r.toReader db) :
    Covers r.toReader db.clauses a db.all where
  sorted := reduceOption_sorted indexed.own
  inside i listed := by
    obtain ⟨k, found⟩ := List.mem_iff_getElem?.1 listed
    obtain rfl := indexed.own k i found
    rw [← indexed.length]
    exact (List.getElem?_eq_some_iff.1 found).1
  all i clause found real _ := by
    rcases indexed.all i (List.getElem?_eq_some_iff.1 found).1 with same | ⟨-, erased⟩
    · exact List.mem_of_getElem? same
    · exact absurd (Option.some.inj (found.symm.trans erased)) real

theorem Indexed.covers_bucket (indexed : Indexed f r.toReader db) (plain : db.hasVars = false)
    (some_ : f.cell.arity ≠ 0) (notRef : a.tag.isRef = false) {h : ℕ}
    (hash : r.simpleHash a = some h) :
    Covers r.toReader db.clauses a ((db.index.bucket (a.tag, h)).map some) where
  sorted := by
    have same : ((db.index.bucket (a.tag, h)).map some).reduceOption =
        db.index.bucket (a.tag, h) := by
      unfold List.reduceOption
      rw [List.filterMap_map]
      exact List.filterMap_some
    rw [same]
    exact (indexed.sorted plain _).1
  inside i listed := by
    obtain ⟨j, inside, same⟩ := List.mem_map.1 listed
    rw [← Option.some.inj same]
    exact (indexed.sorted plain _).2 j inside
  all i clause found real allowed := by
    obtain ⟨key, found', inside⟩ := indexed.keyed plain some_ i clause found real
    rw [← allowed key h notRef found' hash]
    exact List.mem_map_of_mem inside

theorem Indexed.touch (indexed : Indexed f r.toReader db) (key : Tag × ℕ) :
    Indexed f r.toReader { db with index := db.index.modify key id } := by
  have same (k : Tag × ℕ) : (db.index.modify key id).bucket k = db.index.bucket k := by
    rw [bucket_modify]
    split_ifs with here
    · rw [here]
      rfl
    · rfl
  refine ⟨indexed.length, indexed.all, fun plain some_ i clause found real => ?_,
    fun plain k => ?_⟩
  · obtain ⟨k, found', inside⟩ := indexed.keyed plain some_ i clause found real
    refine ⟨k, found', ?_⟩
    dsimp only
    rwa [same]
  · dsimp only
    rw [same]
    exact indexed.sorted plain k

end Invariant

section Lookup

variable {r : Reading} {f : Functor} {db : ManagedClauses} {spec : List Cell} {i : ℕ}
  {clause a : Cell}

theorem isClause_kinds (isClause : IsClause r f clause) :
    ∃ a, r.clauseFirstArg clause = some a ∧
      (a = noTerm ∧ (f.cell.arity ≠ 0 → r.mem 0 = noTerm) ∨
        a ≠ noTerm ∧ a.tag.isRef = true ∧ f.cell.arity ≠ 0 ∨
        a ≠ noTerm ∧ a.tag.isRef = false ∧ ∃ h, r.simpleHash a = some h) := by
  obtain ⟨_, _, a, _, _, isFirst, first⟩ := isClause_first isClause
  refine ⟨a, first, ?_⟩
  rcases firstArg_kinds isFirst with ⟨none_, same⟩ | ⟨some_, isRef, apart⟩ | ⟨-, notRef, real, hash⟩
  · exact .inl ⟨same, fun some_ => absurd none_ some_⟩
  · by_cases same : a = noTerm
    · refine .inl ⟨same, fun _ => ?_⟩
      by_contra other
      exact apart other same
    · exact .inr (.inl ⟨same, isRef, some_⟩)
  · exact .inr (.inr ⟨real, notRef, hash⟩)

theorem indexClause_ok (varBased : List ℕ) (found : db.clauses[i]? = some clause)
    (isClause : clause ≠ noTerm → IsClause r f clause) :
    ∃ db', ManagedClauses.indexClause r.toReader varBased db i = some db' ∧
      db'.clauses = db.clauses ∧ db'.all = db.all ++ [some i] ∧
      (db.hasVars = true ∨ VarFirst r.toReader clause → db'.hasVars = true) := by
  unfold ManagedClauses.indexClause
  rw [found, Option.bind_eq_bind, Option.bind_some]
  dsimp only
  by_cases real : clause = noTerm
  · rw [if_pos real]
    exact ⟨_, rfl, rfl, rfl, fun either => either.resolve_right fun var => var.1 real⟩
  · obtain ⟨a, first, kinds⟩ := isClause_kinds (isClause real)
    have only (var : VarFirst r.toReader clause) : a ≠ noTerm ∧ a.tag.isRef = true := by
      obtain ⟨-, a', first', shape⟩ := var
      rwa [Option.some.inj (first.symm.trans first')]
    rw [if_neg real, first, Option.bind_some]
    rcases kinds with ⟨none_, -⟩ | ⟨some_, isRef, -⟩ | ⟨some_, notRef, h, hash⟩
    · rw [if_pos none_]
      exact ⟨_, rfl, rfl, rfl, fun either => either.resolve_right fun var => (only var).1 none_⟩
    · rw [if_neg some_, if_pos isRef]
      exact ⟨_, rfl, rfl, rfl, fun _ => rfl⟩
    · have differs : ¬ VarFirst r.toReader clause := fun var =>
        absurd ((only var).2.symm.trans notRef) Bool.false_ne_true.symm
      rw [if_neg some_, if_neg (Bool.eq_false_iff.1 notRef), hash]
      exact ⟨_, rfl, rfl, rfl, fun either => either.resolve_right differs⟩

theorem indexClauses_ok (varBased : List ℕ)
    (each : ∀ clause ∈ db.clauses, clause ≠ noTerm → IsClause r f clause) (k : ℕ)
    (most : k ≤ db.clauses.length) :
    ∃ db', (List.range k).foldlM (ManagedClauses.indexClause r.toReader varBased)
        { db with hasVars := false, index := [], all := [] } = some db' ∧
      db'.clauses = db.clauses ∧ db'.all = (List.range k).map some ∧
      ∀ i < k, ∀ clause, db.clauses[i]? = some clause → VarFirst r.toReader clause →
        db'.hasVars = true := by
  induction k with
  | zero => exact ⟨_, rfl, rfl, rfl, fun i small => absurd small (Nat.not_lt_zero i)⟩
  | succ k ih =>
    obtain ⟨db₁, ran, clauses, all, vars⟩ := ih (Nat.le_of_succ_le most)
    have found : db₁.clauses[k]? = some db.clauses[k] := by
      rw [clauses]
      exact List.getElem?_eq_getElem most
    obtain ⟨db₂, turned, clauses', all', vars'⟩ := indexClause_ok varBased found
      (each _ (List.getElem_mem most))
    refine ⟨db₂, ?_, clauses'.trans clauses, ?_, fun i small clause here var => ?_⟩
    · rw [List.range_succ, List.foldlM_append, ran, Option.bind_eq_bind, Option.bind_some,
        List.foldlM_cons, turned]
      rfl
    · rw [all', all, List.range_succ, List.map_append]
      rfl
    · rcases Nat.lt_succ_iff_lt_or_eq.1 small with before | rfl
      · exact vars' (.inl (vars i before clause here var))
      · refine vars' (.inr ?_)
        rw [List.getElem?_eq_getElem most] at here
        rwa [Option.some.inj here]

theorem varBasedFrom_some (clauses : List Cell) (i : ℕ)
    (each : ∀ clause ∈ clauses, ∃ a, r.clauseFirstArg clause = some a) :
    ∃ varBased, ManagedClauses.varBasedFrom r.toReader i clauses = some varBased := by
  induction clauses generalizing i with
  | nil => exact ⟨[], rfl⟩
  | cons clause rest ih =>
    obtain ⟨a, first⟩ := each clause List.mem_cons_self
    obtain ⟨later, found⟩ :=
      ih (i + 1) fun other listed => each other (List.mem_cons_of_mem _ listed)
    unfold ManagedClauses.varBasedFrom
    rw [first, found]
    exact ⟨_, rfl⟩

theorem allVarBasedClauses_some (indexable : Indexable f r db.clauses)
    (each : ∀ clause ∈ db.clauses, clause ≠ noTerm → IsClause r f clause) :
    ∃ varBased, db.allVarBasedClauses r.toReader = some varBased := by
  refine varBasedFrom_some _ _ fun clause listed => ?_
  by_cases real : clause = noTerm
  · rw [real]
    exact Option.ne_none_iff_exists'.1 (indexable.erased (real ▸ listed))
  · obtain ⟨a, first, -⟩ := isClause_kinds (each _ listed real)
    exact ⟨a, first⟩

theorem Kept.doIndex (kept : Kept f r spec db) :
    ∃ db', db.doIndex r.toReader = some db' ∧ Kept f r spec db' ∧ db'.isIndexed = true := by
  unfold ManagedClauses.doIndex
  by_cases isIndexed : db.isIndexed = true
  · rw [if_pos isIndexed]
    exact ⟨db, rfl, kept, isIndexed⟩
  · have indexable := kept.unindexed (Bool.eq_false_iff.2 isIndexed)
    have each := kept.each
    rw [← kept.clauses] at indexable each
    obtain ⟨varBased, read⟩ := allVarBasedClauses_some indexable each
    obtain ⟨db₁, ran, clauses, all, vars⟩ := indexClauses_ok varBased each _ le_rfl
    obtain ⟨clause, listed, var⟩ := indexable.vars
    obtain ⟨i, found⟩ := List.mem_iff_getElem?.1 listed
    have hasVars : db₁.hasVars = true :=
      vars i (List.getElem?_eq_some_iff.1 found).1 clause found var
    have count : (List.range db.clauses.length).length = db.clauses.length := List.length_range
    have unclear (plain : db₁.hasVars = false) : False :=
      Bool.false_ne_true (plain.symm.trans hasVars)
    refine ⟨{ db₁ with isIndexed := true }, ?_,
      ⟨clauses.trans kept.clauses, kept.each, fun _ => ⟨?_, fun j small => ?_,
        fun plain => (unclear plain).elim, fun plain => (unclear plain).elim⟩, nofun⟩, rfl⟩
    · rw [if_neg isIndexed, read, Option.bind_eq_bind, Option.bind_some, ran]
      rfl
    · dsimp only
      rw [all, clauses, List.length_map, count]
    · refine .inl ?_
      dsimp only at small ⊢
      rw [clauses] at small
      rw [all, List.getElem?_map, List.getElem?_range small]
      rfl

theorem Kept.getIndexedFirstArg (kept : Kept f r spec db) {d : Cell} (first : IsFirst r f d a) :
    ∃ indices db', db.getIndexedFirstArg r.toReader a = some (indices, db') ∧
      Kept f r spec db' ∧ db'.isIndexed = true ∧ Covers r.toReader spec a indices := by
  have covered {db' : ManagedClauses} {indices : List (Option ℕ)} (kept' : Kept f r spec db')
      (covers : Covers r.toReader db'.clauses a indices) : Covers r.toReader spec a indices := by
    rwa [kept'.clauses] at covers
  unfold ManagedClauses.getIndexedFirstArg
  by_cases none_ : a = noTerm
  · rw [if_pos none_]
    cases isIndexed : db.isIndexed with
    | true =>
      exact ⟨db.all, db, rfl, kept, isIndexed, covered kept (kept.indexed isIndexed).covers_all⟩
    | false =>
      have indexable := kept.unindexed isIndexed
      rcases firstArg_kinds first with ⟨without, -⟩ | ⟨-, -, apart⟩ | ⟨-, -, real, -⟩
      · exact absurd without indexable.args
      · exact absurd none_ (apart indexable.first)
      · exact absurd none_ real
  · obtain ⟨db₁, ran, kept₁, isIndexed⟩ := kept.doIndex
    have indexed := kept₁.indexed isIndexed
    rw [if_neg none_, ran, Option.bind_eq_bind, Option.bind_some]
    by_cases all : a.tag.isRef = true ∨ db₁.hasVars = true
    · rw [if_pos all]
      exact ⟨_, _, rfl, kept₁, isIndexed, covered kept₁ indexed.covers_all⟩
    · rw [not_or, Bool.not_eq_true, Bool.not_eq_true] at all
      have value : f.cell.arity ≠ 0 ∧ ∃ h, r.simpleHash a = some h := by
        rcases firstArg_kinds first with ⟨-, same⟩ | ⟨-, isRef, -⟩ | ⟨some_, -, -, hash⟩
        · exact absurd same none_
        · exact absurd (all.1.symm.trans isRef) Bool.false_ne_true
        · exact ⟨some_, hash⟩
      obtain ⟨some_, h, hash⟩ := value
      rw [if_neg (by rw [all.1, all.2]; decide), hash]
      refine ⟨_, _, rfl, ⟨kept₁.clauses, kept₁.each, fun _ => indexed.touch _, fun stale => ?_⟩,
        isIndexed, covered kept₁ (indexed.covers_bucket all.2 some_ all.1 hash)⟩
      exact absurd (stale.symm.trans isIndexed) Bool.false_ne_true

end Lookup

section Matching

variable {r : Reading} {f : Functor} {db : ManagedClauses} {spec : List Cell} {onHead : Bool}
  {clause pattern p b : Cell}

theorem tested_iff (isClause : IsClause r f clause) (isGoal : IsGoal r f pattern)
    (found : r.clauseHead pattern = some p) (found' : r.clauseBody pattern = some b) :
    ∃ same, ManagedClauses.isMatched r.toReader onHead p b clause = some same ∧
      (same = true ↔ Matches r onHead clause pattern) := by
  obtain ⟨h, d, isHead, calls⟩ := isClause.head
  obtain ⟨b', isBody, isTerm⟩ := isClause.body
  obtain ⟨p₁, g, d', head, isTerm', shape, behind, calls'⟩ := isGoal.head
  obtain rfl := Option.some.inj (found.symm.trans head)
  obtain ⟨b₁, body, isTerm''⟩ := isGoal.body
  obtain rfl := Option.some.inj (found'.symm.trans body)
  obtain ⟨same, tested, solvable⟩ := canUnifyArgs_iff calls isTerm' shape behind calls'
  obtain ⟨whole, tested', solvable'⟩ := r.canUnify_iff isTerm isTerm''
  have heads : same = true ↔ ∃ h p g, r.clauseHead clause = some h ∧
      r.clauseHead pattern = some p ∧ r.goalOf p = some g ∧ ∃ σ, Solves r.mem h g σ := by
    rw [solvable]
    constructor
    · exact fun solves => ⟨h, p, g, isHead, found, behind, solves⟩
    · rintro ⟨h₂, p₂, g₂, isHead₂, found₂, behind₂, solves⟩
      obtain rfl := Option.some.inj (isHead.symm.trans isHead₂)
      obtain rfl := Option.some.inj (found.symm.trans found₂)
      obtain rfl := Option.some.inj (behind.symm.trans behind₂)
      exact solves
  have bodies : whole = true ↔ ∃ b b', r.clauseBody clause = some b ∧
      r.clauseBody pattern = some b' ∧ ∃ σ, Solves r.mem b b' σ := by
    rw [solvable']
    constructor
    · exact fun solves => ⟨b', b, isBody, found', solves⟩
    · rintro ⟨b₂, b₃, isBody₂, found₃, solves⟩
      obtain rfl := Option.some.inj (isBody.symm.trans isBody₂)
      obtain rfl := Option.some.inj (found'.symm.trans found₃)
      exact solves
  unfold ManagedClauses.isMatched Matches
  rw [← heads, ← bodies, isHead, Option.bind_eq_bind, Option.bind_some, isBody, Option.bind_some,
    tested, Option.bind_eq_bind, Option.bind_some, tested']
  cases same with
  | false => exact ⟨false, rfl, by simp⟩
  | true =>
    cases onHead with
    | true => exact ⟨true, rfl, by simp⟩
    | false => exact ⟨whole, rfl, by simp⟩

theorem matched_ok (isGoal : IsGoal r f pattern) (found : r.clauseHead pattern = some p)
    (found' : r.clauseBody pattern = some b)
    (each : ∀ clause ∈ spec, clause ≠ noTerm → IsClause r f clause) (indices : List (Option ℕ))
    (inside : ∀ i, some i ∈ indices → i < spec.length) :
    ∃ l, ManagedClauses.matched r.toReader spec onHead p b indices = some l ∧
      l.Sublist indices.reduceOption ∧ ∀ i, i ∈ l ↔ some i ∈ indices ∧
        ∃ clause, spec[i]? = some clause ∧ clause ≠ noTerm ∧ Matches r onHead clause pattern := by
  induction indices with
  | nil => exact ⟨[], rfl, List.Sublist.refl _, fun i => by simp⟩
  | cons index rest ih =>
    obtain ⟨l, ran, sub, all⟩ := ih fun i listed => inside i (List.mem_cons_of_mem _ listed)
    cases index with
    | none =>
      refine ⟨l, ran, sub, fun i => (all i).trans (and_congr_left fun _ => ?_)⟩
      rw [List.mem_cons, or_iff_right (Option.some_ne_none i)]
    | some k =>
      have small := inside k List.mem_cons_self
      have here : spec[k]? = some spec[k] := List.getElem?_eq_getElem small
      have other (i : ℕ) (no : ¬ ∃ clause, spec[k]? = some clause ∧ clause ≠ noTerm ∧
          Matches r onHead clause pattern) : i ∈ l ↔ some i ∈ some k :: rest ∧
          ∃ clause, spec[i]? = some clause ∧ clause ≠ noTerm ∧ Matches r onHead clause pattern := by
        rw [all i, List.mem_cons]
        refine and_congr_left fun matches_ => (or_iff_right fun same => no ?_).symm
        rwa [Option.some.inj same] at matches_
      unfold ManagedClauses.matched
      rw [here, Option.bind_eq_bind, Option.bind_some]
      by_cases erased : spec[k] = noTerm
      · rw [if_pos erased]
        refine ⟨l, ran, sub.trans (List.sublist_cons_self k _), fun i => other i ?_⟩
        rintro ⟨clause, found, real, -⟩
        exact real ((Option.some.inj (here.symm.trans found)).symm.trans erased)
      · obtain ⟨same, tested, iff_⟩ := @tested_iff r f onHead spec[k] _ _ _
          (each _ (List.getElem_mem small) erased) isGoal found found'
        rw [if_neg erased, tested, Option.bind_eq_bind, Option.bind_some, ran]
        cases same with
        | false =>
          refine ⟨l, rfl, sub.trans (List.sublist_cons_self k _), fun i => other i ?_⟩
          rintro ⟨clause, there, -, yes⟩
          rw [← Option.some.inj (here.symm.trans there)] at yes
          exact Bool.false_ne_true (iff_.2 yes)
        | true =>
          refine ⟨k :: l, rfl, sub.cons_cons k, fun i => ?_⟩
          rw [List.mem_cons, all i, List.mem_cons]
          constructor
          · rintro (rfl | ⟨listed, yes⟩)
            · exact ⟨.inl rfl, _, here, erased, iff_.1 rfl⟩
            · exact ⟨.inr listed, yes⟩
          · rintro ⟨same | listed, yes⟩
            · exact .inl (Option.some.inj same)
            · exact .inr ⟨listed, yes⟩

theorem Kept.getMatched (kept : Kept f r spec db) (isGoal : IsGoal r f pattern) :
    ∃ indices db', db.getMatched r.toReader pattern onHead = some (indices, db') ∧
      Kept f r spec db' ∧ indices.Pairwise (· < ·) ∧ ∀ i, i ∈ indices ↔
        ∃ clause, spec[i]? = some clause ∧ clause ≠ noTerm ∧ Matches r onHead clause pattern := by
  have ⟨p, g, d, found, isTerm, shape, behind, calls⟩ := isGoal.head
  have ⟨b, found', _⟩ := isGoal.body
  obtain ⟨a, first, isFirst⟩ := getFirstArg_goal isTerm shape behind calls
  obtain ⟨indices, db', looked, kept', -, covers⟩ := kept.getIndexedFirstArg isFirst
  obtain ⟨l, ran, sub, all⟩ := @matched_ok r f spec onHead _ _ _ isGoal found found' kept.each
    indices covers.inside
  refine ⟨l, db', ?_, kept', covers.sorted.sublist sub, fun i => (all i).trans
    (and_iff_right_of_imp ?_)⟩
  · unfold ManagedClauses.getMatched ManagedClauses.getIndexed
    rw [found, Option.bind_eq_bind, Option.bind_some, found', Option.bind_some, first]
    change (db.getIndexedFirstArg r.toReader a).bind _ = _
    rw [looked, Option.bind_some]
    dsimp only
    rw [kept'.clauses, ran]
    rfl
  · rintro ⟨clause, here, real, matches_⟩
    refine covers.all i clause here real fun key h notRef isKey hash => ?_
    -- a clause that matches is found by what the goal is found by
    obtain ⟨h', d', a', isHead, calls', isFirst', first'⟩ :=
      isClause_first (kept.each clause (List.mem_of_getElem? here) real)
    have notRef' : a'.tag.isRef = false := by
      by_contra isRef
      exact nomatch isKey.symm.trans (clauseKey_var first' (Bool.not_eq_false _ ▸ isRef))
    have some_ : f.cell.arity ≠ 0 := by
      rcases isFirst with ⟨-, rfl⟩ | ⟨some_, -⟩
      · exact absurd (notRef.symm.trans noTerm_isRef) Bool.false_ne_true
      · exact some_
    obtain ⟨tag, same⟩ := same_key_of_matches isHead calls' isFirst' found behind calls isFirst
      some_ notRef' notRef matches_
    have isKey' := clauseKey_value first' notRef' (same.trans hash)
    rw [Option.some.inj (isKey.symm.trans isKey'), tag]

theorem Kept.complete (kept : Kept f r spec db) : Complete f ⟨r, spec, some db⟩ := by
  refine ⟨db, rfl, kept.clauses, fun pattern onHead isGoal => ?_⟩
  obtain ⟨indices, db', ran, -, sorted, all⟩ := @Kept.getMatched _ _ _ _ onHead _ kept isGoal
  refine ⟨indices, db', ran, ?_, sorted, all⟩
  unfold ManagedClauses.numMatched
  dsimp only
  rw [ran]
  rfl

end Matching

section Steps

variable {r : Reading} {f : Functor} {db : ManagedClauses} {spec : List Cell} {i : ℕ}
  {clause a : Cell}

theorem Kept.addFirst (kept : Kept f r spec db) (isClause : IsClause r f clause)
    (indexable : Indexable f r (clause :: spec)) :
    Kept f r (clause :: spec) (db.addFirst clause) where
  clauses := congrArg (clause :: ·) kept.clauses
  each c listed real := by
    rcases List.mem_cons.1 listed with rfl | listed
    · exact isClause
    · exact kept.each c listed real
  indexed isIndexed := nomatch isIndexed
  unindexed _ := indexable

theorem addIndex_ok (isClause : IsClause r f clause)
    (found : db.clauses[i]? = some clause)
    (plain : f.cell.arity ≠ 0 → r.clauseFirstArg clause ≠ some noTerm) :
    ∃ hasVars index, db.addIndex r.toReader i =
        some { db with hasVars := hasVars, index := index, all := db.all ++ [some i] } ∧
      (hasVars = false → db.hasVars = false ∧ (f.cell.arity ≠ 0 → ∃ key,
        clauseKey r.toReader clause = some key ∧ index = db.index.modify key (· ++ [i])) ∧
        (f.cell.arity = 0 → index = db.index)) := by
  obtain ⟨_, _, a, _, _, isFirst, first⟩ := isClause_first isClause
  unfold ManagedClauses.addIndex
  rw [found, Option.bind_eq_bind, Option.bind_some, first, Option.bind_some]
  dsimp only
  rcases firstArg_kinds isFirst with ⟨none_, same⟩ | ⟨some_, isRef, -⟩ |
    ⟨some_, notRef, real, h, hash⟩
  · rw [if_pos same]
    exact ⟨_, _, rfl, fun unchanged => ⟨unchanged, fun some_ => absurd none_ some_, fun _ => rfl⟩⟩
  · have real : a ≠ noTerm := by
      rintro rfl
      exact plain some_ first
    rw [if_neg real, if_pos isRef]
    exact ⟨_, _, rfl, fun unchanged => absurd unchanged.symm Bool.false_ne_true⟩
  · rw [if_neg real, if_neg (Bool.eq_false_iff.1 notRef), hash]
    exact ⟨_, _, rfl, fun unchanged => ⟨unchanged, fun _ =>
      ⟨_, clauseKey_value first notRef hash, rfl⟩, fun none_ => absurd none_ some_⟩⟩

theorem Indexed.addLast (indexed : Indexed f r.toReader db) (hasVars : Bool) (index : Index)
    (change : hasVars = false → db.hasVars = false ∧ (f.cell.arity ≠ 0 → ∃ key,
      clauseKey r.toReader clause = some key ∧
        index = db.index.modify key (· ++ [db.clauses.length])) ∧
      (f.cell.arity = 0 → index = db.index)) :
    Indexed f r.toReader { db with
      clauses := db.clauses ++ [clause], hasVars := hasVars, index := index,
      all := db.all ++ [some db.clauses.length] } := by
  have count : (db.clauses ++ [clause]).length = db.clauses.length + 1 := List.length_append
  refine ⟨?_, fun i small => ?_, fun plain some_ i c found real => ?_, fun plain k => ?_⟩
  · dsimp only
    rw [List.length_append, List.length_append, indexed.length]
    rfl
  · dsimp only at small ⊢
    rw [count] at small
    rcases Nat.lt_succ_iff_lt_or_eq.1 small with before | rfl
    · rw [List.getElem?_append_left (indexed.length ▸ before), List.getElem?_append_left before]
      exact indexed.all i before
    · refine .inl ?_
      rw [List.getElem?_append_right indexed.length.le, indexed.length, Nat.sub_self]
      rfl
  · obtain ⟨before, keyed, -⟩ := change plain
    obtain ⟨key, isKey, rfl⟩ := keyed some_
    dsimp only at found ⊢
    rcases Nat.lt_or_ge i db.clauses.length with small | large
    · rw [List.getElem?_append_left small] at found
      obtain ⟨k, isKey', inside⟩ := indexed.keyed before some_ i c found real
      refine ⟨k, isKey', ?_⟩
      rw [bucket_modify]
      split_ifs with same
      · exact List.mem_append_left _ (same ▸ inside)
      · exact inside
    · have here : i = db.clauses.length ∧ c = clause := by
        have small := (List.getElem?_eq_some_iff.1 found).1
        rw [count] at small
        obtain rfl : i = db.clauses.length := by omega
        rw [List.getElem?_append_right le_rfl, Nat.sub_self] at found
        exact ⟨rfl, (Option.some.inj found).symm⟩
      obtain ⟨rfl, rfl⟩ := here
      refine ⟨key, isKey, ?_⟩
      rw [bucket_modify, if_pos rfl]
      exact List.mem_append_right _ (List.mem_singleton_self _)
  · obtain ⟨before, keyed, unkeyed⟩ := change plain
    obtain ⟨sorted, inside⟩ := indexed.sorted before k
    have grown (i : ℕ) (listed : i ∈ db.index.bucket k) : i < (db.clauses ++ [clause]).length := by
      rw [count]
      exact Nat.lt_succ_of_lt (inside i listed)
    dsimp only
    by_cases none_ : f.cell.arity = 0
    · rw [unkeyed none_]
      exact ⟨sorted, grown⟩
    · obtain ⟨key, -, rfl⟩ := keyed none_
      rw [bucket_modify]
      split_ifs with same
      · subst same
        have single := List.pairwise_singleton (· < ·) db.clauses.length
        refine ⟨List.pairwise_append.2 ⟨sorted, single, fun x listed y isLast => ?_⟩,
          fun i listed => ?_⟩
        · rw [List.mem_singleton.1 isLast]
          exact inside x listed
        · rcases List.mem_append.1 listed with listed | isLast
          · exact grown i listed
          · rw [List.mem_singleton.1 isLast, count]
            exact Nat.lt_succ_self _
      · exact ⟨sorted, grown⟩

theorem Kept.addLast (kept : Kept f r spec db) (real : clause ≠ noTerm)
    (isClause : IsClause r f clause)
    (plain : f.cell.arity ≠ 0 → r.clauseFirstArg clause ≠ some noTerm) :
    ∃ db', db.addLast r.toReader clause = some db' ∧ Kept f r (spec ++ [clause]) db' := by
  have found : (db.clauses ++ [clause])[db.clauses.length]? = some clause := by
    rw [List.getElem?_append_right le_rfl, Nat.sub_self]
    rfl
  obtain ⟨hasVars, index, added, change⟩ :=
    @addIndex_ok r f { db with clauses := db.clauses ++ [clause] } _ _ isClause found plain
  refine ⟨{ db with
      clauses := db.clauses ++ [clause], numClauses := db.numClauses + 1, hasVars := hasVars,
      index := index, all := db.all ++ [some db.clauses.length] }, ?_,
    congrArg (· ++ [clause]) kept.clauses, fun c listed real => ?_, fun isIndexed => ?_,
    fun isIndexed => ?_⟩
  · unfold ManagedClauses.addLast
    rw [added]
    rfl
  · rcases List.mem_append.1 listed with listed | isNew
    · exact kept.each c listed real
    · rw [List.mem_singleton.1 isNew]
      exact isClause
  · have indexed := (kept.indexed isIndexed).addLast hasVars index change
    exact ⟨indexed.length, indexed.all, indexed.keyed, indexed.sorted⟩
  · obtain ⟨args, first, ⟨c, listed, var⟩, erased⟩ := kept.unindexed isIndexed
    refine ⟨args, first, ⟨c, List.mem_append_left _ listed, var⟩, fun gone => ?_⟩
    rcases List.mem_append.1 gone with gone | isNew
    · exact erased gone
    · exact absurd (List.mem_singleton.1 isNew).symm real

end Steps

section Removal

variable {r : Reading} {f : Functor} {db : ManagedClauses} {spec : List Cell} {i : ℕ}
  {clause a : Cell}

theorem findClause_ok (real : clause ≠ noTerm) (indices : List (Option ℕ))
    (sorted : indices.reduceOption.Pairwise (· < ·))
    (inside : ∀ i, some i ∈ indices → i < spec.length) :
    ∃ found, ManagedClauses.findClause spec clause indices = some found ∧
      (found = none → ∀ i, some i ∈ indices → spec[i]? ≠ some clause) ∧
      ∀ i, found = some i → spec[i]? = some clause ∧
        ∀ j, some j ∈ indices → spec[j]? = some clause → i ≤ j := by
  induction indices with
  | nil => exact ⟨none, rfl, fun _ i listed => absurd listed List.not_mem_nil, nofun⟩
  | cons index rest ih =>
    have later (i : ℕ) (listed : some i ∈ rest) := inside i (List.mem_cons_of_mem _ listed)
    cases index with
    | none =>
      obtain ⟨found, ran, nowhere, first⟩ := ih sorted later
      have same (i : ℕ) (listed : some i ∈ none :: rest) : some i ∈ rest :=
        (List.mem_cons.1 listed).resolve_left (Option.some_ne_none i)
      exact ⟨found, ran, fun none_ i listed => nowhere none_ i (same i listed), fun i here =>
        ⟨(first i here).1, fun j listed => (first i here).2 j (same j listed)⟩⟩
    | some k =>
      rw [List.reduceOption_cons_of_some, List.pairwise_cons] at sorted
      obtain ⟨found, ran, nowhere, first⟩ := ih sorted.2 later
      have below : k < spec.length := inside k List.mem_cons_self
      have here := List.getElem?_eq_getElem below
      unfold ManagedClauses.findClause
      rw [here, Option.bind_eq_bind, Option.bind_some]
      by_cases same : spec[k] ≠ noTerm ∧ clause = spec[k]
      · rw [if_pos same]
        refine ⟨some k, rfl, nofun, fun i isK => ?_⟩
        obtain rfl := Option.some.inj isK
        refine ⟨here.trans (congrArg some same.2.symm), fun j listed _ => ?_⟩
        rcases List.mem_cons.1 listed with isK | listed
        · exact (Option.some.inj isK).ge
        · exact (sorted.1 j (List.reduceOption_mem_iff.2 listed)).le
      · have other : spec[k]? ≠ some clause := by
          intro same'
          have equal := Option.some.inj (here.symm.trans same')
          exact same ⟨fun gone => real (equal.symm.trans gone), equal.symm⟩
        rw [if_neg same]
        refine ⟨found, ran, fun none_ i listed => ?_, fun i isFound =>
          ⟨(first i isFound).1, fun j listed there => ?_⟩⟩
        · rcases List.mem_cons.1 listed with isK | listed
          · rwa [Option.some.inj isK]
          · exact nowhere none_ i listed
        · rcases List.mem_cons.1 listed with isK | listed
          · exact absurd (Option.some.inj isK ▸ there) other
          · exact (first i isFound).2 j listed there

theorem Indexed.erase (indexed : Indexed f r.toReader db) (i : ℕ) (index : Index)
    (all : List (Option ℕ)) (listed : all = db.all ∨ all = db.all.set i none)
    (others : db.hasVars = false → ∀ key, (index.bucket key).Sublist (db.index.bucket key) ∧
      ∀ j, j ≠ i → j ∈ db.index.bucket key → j ∈ index.bucket key) :
    Indexed f r.toReader { db with
      clauses := db.clauses.set i noTerm, index := index, all := all } := by
  have count : (db.clauses.set i noTerm).length = db.clauses.length := List.length_set
  have gone (j : ℕ) (small : j < db.clauses.length)
      (erased : db.clauses[j]? = some noTerm ∨ j = i) :
      (db.clauses.set i noTerm)[j]? = some noTerm := by
    rw [List.getElem?_set]
    by_cases same : i = j
    · rw [if_pos same, if_pos (same.trans_lt small)]
    · rw [if_neg same]
      exact erased.resolve_right (Ne.symm same)
  refine ⟨?_, fun j small => ?_, fun plain some_ j c found real => ?_, fun plain key => ?_⟩
  · dsimp only
    rw [count, ← indexed.length]
    rcases listed with rfl | rfl
    · rfl
    · exact List.length_set
  · dsimp only at small ⊢
    rw [count] at small
    have before := indexed.all j small
    rcases listed with rfl | rfl
    · exact before.imp_right fun erased => ⟨erased.1, gone j small (.inl erased.2)⟩
    · rw [List.getElem?_set]
      split_ifs with same inside
      · exact .inr ⟨rfl, gone j small (.inr same.symm)⟩
      · exact absurd (indexed.length ▸ same ▸ small) inside
      · exact before.imp_right fun erased => ⟨erased.1, gone j small (.inl erased.2)⟩
  · dsimp only at found plain ⊢
    rw [List.getElem?_set] at found
    split_ifs at found with same
    · exact absurd (Option.some.inj found).symm real
    · obtain ⟨key, isKey, inside⟩ := indexed.keyed plain some_ j c found real
      exact ⟨key, isKey, (others plain key).2 j (Ne.symm same) inside⟩
  · dsimp only at plain ⊢
    obtain ⟨sorted, inside⟩ := indexed.sorted plain key
    have sub := (others plain key).1
    rw [count]
    exact ⟨sorted.sublist sub, fun j listed => inside j (sub.subset listed)⟩

theorem Kept.set (kept : Kept f r spec db) (i : ℕ) {db' : ManagedClauses}
    (clauses : db'.clauses = db.clauses.set i noTerm) (isIndexed : db'.isIndexed = true)
    (indexed : Indexed f r.toReader db') : Kept f r (spec.set i noTerm) db' where
  clauses := by rw [clauses, kept.clauses]
  each c listed real := by
    rcases List.mem_or_eq_of_mem_set listed with listed | isGone
    · exact kept.each c listed real
    · exact absurd isGone real
  indexed _ := indexed
  unindexed stale := absurd (stale.symm.trans isIndexed) Bool.false_ne_true

theorem Kept.removeClause (kept : Kept f r spec db) (real : clause ≠ noTerm)
    (isClause : IsClause r f clause) :
    ∃ found db', db.removeClause r.toReader clause = some (found, db') ∧
      Kept f r (eraseClause spec clause) db' := by
  obtain ⟨h, d, a, isHead, calls, isFirst, first⟩ := isClause_first isClause
  have looked : r.getFirstArg h = some a := by
    have plain : ¬ (h.tag = .CON ∧ h.arity ≠ 0) := by
      rintro ⟨isCon, some_⟩
      have self : d = h :=
        Option.some.inj (calls.found.symm.trans (r.deref_self calls.isTerm (by rw [isCon]; rfl)))
      rcases calls.shape with ⟨none_, same⟩ | ⟨-, isStr, -⟩
      · exact some_ (self.symm.trans same ▸ none_)
      · exact nomatch (self ▸ isCon : d.tag = .CON).symm.trans isStr
    obtain ⟨h', isHead', first'⟩ := Option.bind_eq_some_iff.1 first
    obtain rfl := Option.some.inj (isHead.symm.trans isHead')
    exact (if_neg plain).trans first'
  obtain ⟨indices, db', ran, kept', isIndexed, covers⟩ := kept.getIndexedFirstArg isFirst
  obtain ⟨found, searched, nowhere, there⟩ :=
    findClause_ok real indices covers.sorted covers.inside
  have all (j : ℕ) (here : spec[j]? = some clause) : some j ∈ indices := by
    refine covers.all j clause here real fun key h notRef isKey hash => ?_
    rw [clauseKey_value first notRef hash] at isKey
    exact (Option.some.inj isKey).symm
  have start : db.removeClause r.toReader clause =
      some (found.isSome, found.elim db' db'.erase) := by
    unfold ManagedClauses.removeClause ManagedClauses.getIndexed
    rw [isHead, Option.bind_eq_bind, Option.bind_some, looked]
    change (db.getIndexedFirstArg r.toReader a).bind _ = _
    rw [ran, Option.bind_some]
    dsimp only
    rw [kept'.clauses, searched]
    cases found <;> rfl
  unfold eraseClause
  cases found with
  | none =>
    have absent : spec.findIdx? (fun c => decide (c = clause)) = none := by
      refine List.findIdx?_eq_none_iff.2 fun c listed => decide_eq_false fun same => ?_
      obtain ⟨j, here⟩ := List.mem_iff_getElem?.1 listed
      exact nowhere rfl j (all j (same ▸ here)) (same ▸ here)
    rw [absent]
    exact ⟨false, db', start, kept'⟩
  | some i =>
    obtain ⟨here, least⟩ := there i rfl
    have present : spec.findIdx? (fun c => decide (c = clause)) = some i := by
      obtain ⟨small, same⟩ := List.getElem?_eq_some_iff.1 here
      refine List.findIdx?_eq_some_iff_getElem.2 ⟨small, decide_eq_true same, fun j before => ?_⟩
      rw [Bool.not_eq_true, decide_eq_false_iff_not]
      intro same'
      have there' : spec[j]? = some clause := List.getElem?_eq_some_iff.2 ⟨_, same'⟩
      exact absurd (least j (all j there') there') (Nat.not_le.2 before)
    rw [present]
    have indexed := (kept'.indexed isIndexed).erase i db'.index db'.all (.inl rfl)
      fun _ key => ⟨List.Sublist.refl _, fun j _ inside => inside⟩
    refine ⟨true, db'.erase i, start, kept'.set i rfl isIndexed ?_⟩
    exact ⟨indexed.length, indexed.all, indexed.keyed, indexed.sorted⟩

theorem Kept.removeAt (kept : Kept f r spec db) (isIndexed : db.isIndexed = true)
    (small : i < spec.length) (inBuckets : InBuckets r.toReader db i) :
    ∃ db', db.removeAt r.toReader i = some db' ∧ db'.isIndexed = true ∧
      Kept f r (spec.set i noTerm) db' := by
  have here : db.clauses[i]? = some spec[i] := by
    rw [kept.clauses]
    exact List.getElem?_eq_getElem small
  unfold ManagedClauses.removeAt
  rw [here, Option.bind_eq_bind, Option.bind_some]
  by_cases erased : spec[i] = noTerm
  · rw [if_pos erased]
    have same : spec.set i noTerm = spec := by
      rw [← erased]
      exact List.set_getElem_self small
    exact ⟨db, rfl, isIndexed, same.symm ▸ kept⟩
  · have indexed := kept.indexed isIndexed
    obtain ⟨a, first, kinds⟩ := isClause_kinds (kept.each _ (List.getElem_mem small) erased)
    have removed (index : Index) (all : List (Option ℕ))
        (ran : db.removeIndex r.toReader i = some { db with index := index, all := all })
        (listed : all = db.all ∨ all = db.all.set i none)
        (others : db.hasVars = false → ∀ key, (index.bucket key).Sublist (db.index.bucket key) ∧
          ∀ j, j ≠ i → j ∈ db.index.bucket key → j ∈ index.bucket key) :
        ∃ db', (db.removeIndex r.toReader i).bind (fun db => some (db.erase i)) = some db' ∧
          db'.isIndexed = true ∧ Kept f r (spec.set i noTerm) db' := by
      have after := indexed.erase i index all listed others
      refine ⟨_, congrArg (Option.bind · _) ran, isIndexed, kept.set i rfl isIndexed ?_⟩
      exact ⟨after.length, after.all, after.keyed, after.sorted⟩
    have inside : ¬ db.all.length ≤ i := by
      rw [indexed.length, kept.clauses]
      exact Nat.not_le.2 small
    rw [if_neg erased]
    have begin : db.removeIndex r.toReader i = if a = noTerm then some db else
        if a.tag.isRef = true then
          if (db.index.all fun p => decide (i ∈ p.2)) = true then
            some { db with
              all := db.all.set i none, index := db.index.map fun p => (p.1, p.2.erase i) }
          else none
        else (r.simpleHash a).bind fun h => some { db with
          all := db.all.set i none, index := db.index.modify (a.tag, h) (·.erase i) } := by
      unfold ManagedClauses.removeIndex
      rw [here, Option.bind_eq_bind, Option.bind_some, first, Option.bind_some, if_neg inside]
      rfl
    rcases kinds with ⟨none_, -⟩ | ⟨real, isRef, some_⟩ | ⟨real, notRef, h, hash⟩
    · refine removed db.index db.all (begin.trans (if_pos none_)) (.inl rfl) fun _ key =>
        ⟨List.Sublist.refl _, fun j _ listed => listed⟩
    · have var : VarFirst r.toReader spec[i] := ⟨erased, a, first, real, isRef⟩
      have everywhere : (db.index.all fun p => decide (i ∈ p.2)) = true :=
        List.all_eq_true.2 fun p listed => decide_eq_true (inBuckets _ here var p listed)
      refine removed (db.index.map fun p => (p.1, p.2.erase i)) (db.all.set i none) ?_ (.inr rfl)
        fun plain => ?_
      · rw [begin, if_neg real, if_pos isRef, if_pos everywhere]
      · -- there is a variable, so the buckets are not looked at
        obtain ⟨key, isKey, -⟩ := indexed.keyed plain some_ i _ here erased
        exact nomatch isKey.symm.trans (clauseKey_var first isRef)
    · refine removed (db.index.modify (a.tag, h) (·.erase i)) (db.all.set i none) ?_ (.inr rfl)
        fun _ key => ?_
      · rw [begin, if_neg real, if_neg (Bool.eq_false_iff.1 notRef), hash]
        rfl
      · rw [bucket_modify]
        split_ifs with same
        · rw [same]
          exact ⟨List.erase_sublist, fun j other listed => (List.mem_erase_of_ne other).2 listed⟩
        · exact ⟨List.Sublist.refl _, fun j _ listed => listed⟩

theorem Kept.removeClauses (kept : Kept f r spec db) (isIndexed : db.isIndexed = true)
    (indices : List ℕ) (small : ∀ i ∈ indices, i < spec.length)
    (inBuckets : EachStep (fun db i => (db.removeAt r.toReader i).getD db) (InBuckets r.toReader) db
      indices) :
    ∃ db', db.removeClauses r.toReader indices = some db' ∧
      Kept f r (indices.foldl (fun spec i => spec.set i noTerm) spec) db' := by
  unfold ManagedClauses.removeClauses
  induction indices generalizing db spec with
  | nil => exact ⟨db, rfl, kept⟩
  | cons i rest ih =>
    obtain ⟨now, later⟩ := inBuckets
    obtain ⟨db₁, removed, isIndexed₁, kept₁⟩ :=
      kept.removeAt isIndexed (small i List.mem_cons_self) now
    dsimp only at later
    rw [removed] at later
    obtain ⟨db₂, ran, kept₂⟩ := ih kept₁ isIndexed₁ (fun j listed => by
      rw [List.length_set]
      exact small j (List.mem_cons_of_mem _ listed)) later
    refine ⟨db₂, ?_, kept₂⟩
    rw [List.foldlM_cons, removed]
    exact ran

end Removal

section Runs

variable {f : Functor} {s : State}

/-- The clauses are there and as they should be. -/
def KeptState (f : Functor) (s : State) : Prop := ∃ db, s.db = some db ∧ Kept f s.reading s.spec db

theorem KeptState.complete (kept : KeptState f s) : Complete f s := by
  obtain ⟨db, here, kept⟩ := kept
  have complete := kept.complete
  rwa [← here] at complete

theorem Kept.heap {r r' : Reading} {spec : List Cell} {db : ManagedClauses}
    (kept : Kept f r spec db) (same : ∀ clause ∈ spec, clause ≠ noTerm →
      IsClause r' f clause ∧ clauseKey r'.toReader clause = clauseKey r.toReader clause)
    (indexable : db.isIndexed = false → Indexable f r' spec) : Kept f r' spec db where
  clauses := kept.clauses
  each clause listed real := (same clause listed real).1
  indexed isIndexed := by
    have indexed := kept.indexed isIndexed
    refine ⟨indexed.length, indexed.all, fun plain some_ i clause found real => ?_, indexed.sorted⟩
    have listed : clause ∈ spec := kept.clauses ▸ List.mem_of_getElem? found
    rw [(same clause listed real).2]
    exact indexed.keyed plain some_ i clause found real
  unindexed := indexable

theorem kept_step (s : State) (e : Event) (kept : KeptState f s)
    (met : Possible f s e ∧ Meets f s e) : KeptState f (s.step e) := by
  obtain ⟨db, here, kept⟩ := kept
  obtain ⟨possible, meets⟩ := met
  cases e with
  | heap r => exact ⟨db, here, kept.heap possible (meets db here)⟩
  | addFirst clause =>
    exact ⟨db.addFirst clause, congrArg (Option.map _) here, kept.addFirst possible.2 meets⟩
  | addLast clause =>
    obtain ⟨db', ran, kept'⟩ := kept.addLast possible.1 possible.2 meets
    exact ⟨db', (congrArg (Option.bind · _) here).trans ran, kept'⟩
  | removeClause clause =>
    obtain ⟨found, db', ran, kept'⟩ := kept.removeClause possible.1 possible.2
    exact ⟨db', (congrArg (Option.bind · _) here).trans (congrArg (Option.map _) ran), kept'⟩
  | removeClauses indices =>
    obtain ⟨isIndexed, inBuckets⟩ := meets db here
    obtain ⟨db', ran, kept'⟩ := kept.removeClauses isIndexed indices possible inBuckets
    exact ⟨db', (congrArg (Option.bind · _) here).trans ran, kept'⟩
  | clear => exact ⟨.clear, rfl, kept_clear⟩
  | lookup pattern onHead =>
    obtain ⟨indices, db', ran, kept', -⟩ := @Kept.getMatched _ _ _ _ onHead _ kept possible
    exact ⟨db', (congrArg (Option.bind · _) here).trans (congrArg (Option.map _) ran), kept'⟩

/-- In every run whose steps meet the condition the lookups are complete, whatever the clauses are:
`get_matched` gives those that match and were not removed, each once and in order. -/
theorem complete_throughout (f : Functor) (r : Reading) (events : List Event)
    (met : EachStep State.step (fun s e => Possible f s e ∧ Meets f s e) (.init r) events) :
    Throughout State.step (Complete f) (.init r) events :=
  throughout_of_invariant kept_step (fun _ kept => kept.complete) ⟨.clear, rfl, kept_clear⟩ met

end Runs

section Example

/-- The predicate `foo/0` -/
def foo : Functor where
  cell := conOfName (ascii "foo") 0
  isCon := by decide
  notColon := by decide

/-- The predicate `f/1` of the heap with `f(7)` and `f(Y)` -/
def unary : Functor where
  cell := conOfIndex 300 1
  isCon := by decide
  notColon := by decide

variable {r : Reading} {f : Functor} {t d : Cell}

theorem fact_head (calls : Calls r f t d) (fact : f.cell ≠ IMPLIED_BY) :
    r.clauseHead t = some t ∧ r.clauseBody t = some EMPTY_LIST := by
  unfold Reader.clauseHead Reader.clauseBody
  rw [calls.functor]
  exact ⟨if_neg fact, if_neg fact⟩

theorem fact_isClause (calls : Calls r f t d) (fact : f.cell ≠ IMPLIED_BY) : IsClause r f t where
  head := ⟨t, d, (fact_head calls fact).1, calls⟩
  body := ⟨_, (fact_head calls fact).2, ⟨by decide, nofun, nofun, nofun⟩⟩

theorem fact_isGoal (calls : Calls r f t d) (fact : f.cell ≠ IMPLIED_BY)
    (shape : t.tag = .CON ∧ t.arity = 0 ∨ t.tag = .STR) : IsGoal r f t where
  head := by
    refine ⟨t, t, d, (fact_head calls fact).1, calls.isTerm, shape, ?_, calls⟩
    unfold Reader.goalOf
    rw [calls.functor]
    exact if_neg f.notColon
  body := ⟨_, (fact_head calls fact).2, ⟨by decide, nofun, nofun, nofun⟩⟩

theorem foo_calls (r : Reading) : Calls r foo foo.cell foo.cell where
  isTerm := ⟨by decide, nofun, nofun, nofun⟩
  found := r.deref_self ⟨by decide, nofun, nofun, nofun⟩ (by decide)
  shape := .inl ⟨by decide, rfl⟩

theorem unary_calls (heap : r.mem = unaryCells (.make .INT 7))
    (regions : r.regions = unaryRegions ∅) {i : ℕ} (place : i = 0 ∨ i = 2) :
    Calls r unary (.make .STR i) (.make .STR i) ∧
      r.clauseFirstArg (.make .STR i) = some (if i = 0 then .make .INT 7 else .make .REF 3) := by
  have isStr : (Cell.make .STR i).tag = .STR := tag_make _ _
  have isTerm : r.Term (.make .STR i) := by
    unfold Reading.Term
    rw [heap, regions]
    rcases place with rfl | rfl
    · exact isTerm_unary.1
    · exact isTerm_unary.2
  have index : (Cell.make .STR i).index = i := by
    rcases place with rfl | rfl
    · rfl
    · rfl
  have functor : r.mem (Cell.make .STR i).index = unary.cell := by
    rw [heap, index]
    rcases place with rfl | rfl
    · rfl
    · rfl
  have calls : Calls r unary (.make .STR i) (.make .STR i) :=
    ⟨isTerm, r.deref_self isTerm (str_not_ref isStr), .inr ⟨by decide, isStr, functor⟩⟩
  obtain ⟨a, found, first⟩ := calls.firstArgOf
  refine ⟨calls, ?_⟩
  unfold Reader.clauseFirstArg
  rw [(fact_head calls (by decide)).1]
  refine found.trans (congrArg some ?_)
  rcases first with ⟨none_, -⟩ | ⟨-, derefs, -⟩
  · exact absurd none_ (by decide)
  · rw [heap, index] at derefs
    rcases place with rfl | rfl
    · exact derefs.unique (derefs_value rfl)
    · have isVar : (Cell.make .REF 3).tag.isRef = true ∧ (Cell.make .REF 3).index = 3 := by decide
      exact derefs.unique (derefs_var isVar)

/-- `f(7)` is added, and `f(Y)` in front of it. -/
theorem complete_unary : ∃ r : Reading, Throughout State.step (Complete unary) (.init r)
    [.addLast (.make .STR 0), .addFirst (.make .STR 2), .lookup (.make .STR 0) true] := by
  obtain ⟨r, base, -, regions⟩ := exists_reading ⟨unaryMachine (.make .INT 7), ∅⟩ []
    wellFormed_seven apart_unary
  have heap : r.mem = unaryCells (.make .INT 7) := congrArg (fun b => b.machine.mem) base
  obtain ⟨calls, first⟩ := unary_calls heap regions (.inl rfl)
  obtain ⟨calls', first'⟩ := unary_calls heap regions (.inr rfl)
  have fact : unary.cell ≠ IMPLIED_BY := by decide
  have plain : some (Cell.make .INT 7) ≠ some noTerm := by decide
  refine ⟨r, complete_throughout unary r _ ⟨⟨⟨by decide, fact_isClause calls fact⟩, fun _ => ?_⟩,
    ⟨⟨by decide, fact_isClause calls' fact⟩, ⟨by decide, ?_, ⟨_, List.mem_cons_self, by decide, _,
      first', by decide, by decide⟩, fun erased => ?_⟩⟩,
    ⟨fact_isGoal calls fact (.inr (tag_make _ _)), trivial⟩, trivial⟩⟩
  · exact fun same => plain (first.symm.trans same)
  · change r.mem 0 ≠ noTerm
    rw [heap]
    decide
  · change noTerm ∈ [Cell.make .STR 2, Cell.make .STR 0] at erased
    exact absurd erased (by decide)

/-- After `foo` is added at the front, a lookup of `foo` gives nothing. -/
theorem foo_missed : ¬ ∀ (f : Functor) (r : Reading) (events : List Event),
    EachStep State.step (Possible f) (.init r) events →
      Throughout State.step (Complete f) (.init r) events := by
  intro all
  obtain ⟨r, -⟩ := exists_reading ⟨unaryMachine (.make .INT 7), ∅⟩ []
    wellFormed_seven apart_unary
  have calls := foo_calls r
  have fact : foo.cell ≠ IMPLIED_BY := by decide
  have constant : foo.cell.tag = .CON ∧ foo.cell.arity = 0 ∨ foo.cell.tag = .STR :=
    .inl (by decide)
  have isGoal := fact_isGoal calls fact constant
  obtain ⟨db, here, -, complete⟩ :=
    (all foo r [.addFirst foo.cell] ⟨⟨by decide, fact_isClause calls fact⟩, trivial⟩).2
  obtain ⟨indices, db', ran, -, -, exact_⟩ := complete foo.cell true isGoal
  obtain rfl : ManagedClauses.clear.addFirst foo.cell = db := Option.some.inj here
  have first : r.getFirstArg foo.cell = some noTerm := by
    have plain : ¬ (foo.cell.tag = .CON ∧ foo.cell.arity ≠ 0) := by decide
    obtain ⟨a, found, isFirst⟩ := calls.firstArgOf
    rcases isFirst with ⟨-, rfl⟩ | ⟨some_, -⟩
    · exact (if_neg plain).trans found
    · exact absurd (by decide) some_
  have nothing : (ManagedClauses.clear.addFirst foo.cell).getMatched r.toReader foo.cell true =
      some ([], ManagedClauses.clear.addFirst foo.cell) := by
    unfold ManagedClauses.getMatched ManagedClauses.getIndexed
    rw [(fact_head calls fact).1, Option.bind_eq_bind, Option.bind_some, (fact_head calls fact).2,
      Option.bind_some, first]
    rfl
  have missed : (0 : ℕ) ∈ indices := (exact_ 0).2 ⟨foo.cell, rfl, by decide, ⟨_, _, _,
    (fact_head calls fact).1, (fact_head calls fact).1, goalOf_con calls.isTerm (by decide)
      (by decide), fun _ _ => none, rfl⟩, .inl rfl⟩
  rw [(Prod.mk.inj (Option.some.inj (ran.symm.trans nothing))).1] at missed
  exact absurd missed List.not_mem_nil

end Example

end Epilog.Interp.ClauseIndex
