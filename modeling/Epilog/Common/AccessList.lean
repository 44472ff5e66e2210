/- Module: Epilog/Common/AccessList
   source: src/src/common/lru_cache.hpp
   digest: The index and the access list of the cache stay in step over every run. -/

import Epilog.Lib.FiniteMap

set_option autoImplicit false

namespace Epilog.Common.AccessList

open Epilog.Lib.FiniteMap

section Model

/-- `lru_cache`: an iterator into `access_` is the number of its node, and `nodes` counts the nodes
made so far. The calls of `evicted` are kept in order. -/
structure LruCache (κ ν : Type) where
  capacity : ℕ
  map : FMap κ (ν × ℕ)
  access : List (ℕ × κ)
  nodes : ℕ
  evicted : List (κ × ν)

inductive Event (κ ν : Type)
  | find (key : κ)
  | insert (key : κ) (value : ν)
  | erase (key : κ)

namespace LruCache

variable {κ ν : Type} [DecidableEq κ]

def empty (capacity : ℕ) : LruCache κ ν := ⟨capacity, ∅, [], 0, []⟩

/-- `access_.erase`, of an iterator to a node of the list -/
def eraseNode (c : LruCache κ ν) (accessIt : ℕ) : Option (LruCache κ ν) :=
  if accessIt ∈ c.access.map Prod.fst then
    some { c with access := c.access.filter fun node => node.1 ≠ accessIt }
  else none

/-- `access_.push_front(key)` and the index entry with its iterator -/
def pushFront (c : LruCache κ ν) (key : κ) (value : ν) : LruCache κ ν :=
  { c with
    map := c.map.insert key (value, c.nodes)
    access := (c.nodes, key) :: c.access
    nodes := c.nodes + 1 }

def erase (c : LruCache κ ν) (key : κ) : Option (LruCache κ ν) :=
  match c.map.lookup key with
  | none => some c
  | some (value, accessIt) => do
    let c ← c.eraseNode accessIt
    return { c with
      map := c.map.erase key
      evicted := c.evicted ++ [(key, value)] }

/-- `find`, with the value that the pointer it returns is to -/
def find (c : LruCache κ ν) (key : κ) : Option (Option ν × LruCache κ ν) :=
  match c.map.lookup key with
  | none => some (none, c)
  | some (value, accessIt) => do
    let c ← c.eraseNode accessIt
    return (some value, c.pushFront key value)

/-- A full cache makes room first; `access_.back()` of an empty list is undefined. -/
def makeRoom (c : LruCache κ ν) : Option (LruCache κ ν) :=
  if c.capacity ≤ c.access.length then do
    let removed ← c.access.getLast?
    c.erase removed.2
  else some c

def insert (c : LruCache κ ν) (key : κ) (value : ν) : Option (LruCache κ ν) :=
  match c.map.lookup key with
  | some _ => some c
  | none => do
    let c ← c.makeRoom
    return c.pushFront key value

def step (c : LruCache κ ν) : Event κ ν → Option (Option ν × LruCache κ ν)
  | .find key => c.find key
  | .insert key value => (c.insert key value).map fun c => (none, c)
  | .erase key => (c.erase key).map fun c => (none, c)

/-- A run, and what its calls of `find` return -/
def run (c : LruCache κ ν) : List (Event κ ν) → Option (List (Option ν) × LruCache κ ν)
  | [] => some ([], c)
  | e :: events => do
    let (found, c) ← c.step e
    let (rest, c) ← run c events
    return (found :: rest, c)

end LruCache

end Model

section Spec

variable {κ ν : Type} [DecidableEq κ]

/-- What the cache is for: each key it has with the value it entered with and the time of its last
use. A use is an insertion, which gives a key that is absent its entry, or a find of a key that is
present; `uses` counts them. -/
structure Recency (κ ν : Type) where
  entries : FMap κ (ν × ℕ)
  uses : ℕ

/-- Of the keys present this one was used least recently. -/
def Recency.Oldest (m : Recency κ ν) (key : κ) (value : ν) : Prop :=
  ∃ time, m.entries.lookup key = some (value, time) ∧
    ∀ key' value' time', m.entries.lookup key' = some (value', time') → time ≤ time'

def Recency.use (m : Recency κ ν) (key : κ) (value : ν) : Recency κ ν :=
  ⟨m.entries.insert key (value, m.uses), m.uses + 1⟩

def Recency.remove (m : Recency κ ν) (key : κ) : Recency κ ν :=
  { m with entries := m.entries.erase key }

/-- What an event does, with the value it finds and the evictions it calls back -/
inductive Performs (capacity : ℕ) (m : Recency κ ν) :
    Event κ ν → Option ν → List (κ × ν) → Recency κ ν → Prop
  | miss {key : κ} (absent : m.entries.lookup key = none) :
      Performs capacity m (.find key) none [] m
  | hit {key : κ} {value : ν} {time : ℕ} (present : m.entries.lookup key = some (value, time)) :
      Performs capacity m (.find key) (some value) [] (m.use key value)
  | known {key : κ} {value : ν} (present : m.entries.lookup key ≠ none) :
      Performs capacity m (.insert key value) none [] m
  | enter {key : κ} {value : ν} (absent : m.entries.lookup key = none)
      (room : m.entries.keys.card < capacity) :
      Performs capacity m (.insert key value) none [] (m.use key value)
  | evict {key old : κ} {value oldValue : ν} (absent : m.entries.lookup key = none)
      (full : m.entries.keys.card = capacity) (oldest : m.Oldest old oldValue) :
      Performs capacity m (.insert key value) none [(old, oldValue)]
        ((m.remove old).use key value)
  | gone {key : κ} (absent : m.entries.lookup key = none) :
      Performs capacity m (.erase key) none [] m
  | erase {key : κ} {value : ν} {time : ℕ} (present : m.entries.lookup key = some (value, time)) :
      Performs capacity m (.erase key) none [(key, value)] (m.remove key)

inductive Runs (capacity : ℕ) :
    Recency κ ν → List (Event κ ν) → List (Option ν) → List (κ × ν) → Recency κ ν → Prop
  | nil {m : Recency κ ν} : Runs capacity m [] [] [] m
  | cons {m m' m'' : Recency κ ν} {e : Event κ ν} {events : List (Event κ ν)} {found : Option ν}
      {results : List (Option ν)} {out later : List (κ × ν)}
      (first : Performs capacity m e found out m')
      (rest : Runs capacity m' events results later m'') :
      Runs capacity m (e :: events) (found :: results) (out ++ later) m''

/-- Index and access list are in step: they have the same keys, each once, no more than fit, and
each entry of the index has the iterator to the node of its key. -/
structure InStep (c : LruCache κ ν) : Prop where
  keys : ∀ key, key ∈ c.access.map Prod.snd ↔ key ∈ c.map.keys
  once : (c.access.map Prod.snd).Nodup
  linked : ∀ key value accessIt, c.map.lookup key = some (value, accessIt) →
    (accessIt, key) ∈ c.access
  length : c.access.length = c.map.keys.card
  fits : c.map.keys.card ≤ c.capacity

end Spec
section Refinement

variable {κ ν : Type} [DecidableEq κ]

/-- A node of the access list is numbered with the time of the use it stands for. -/
structure Follows (c : LruCache κ ν) (m : Recency κ ν) : Prop where
  entries : c.map = m.entries
  uses : c.nodes = m.uses
  nodes : ∀ accessIt key, (accessIt, key) ∈ c.access ↔
    ∃ value, c.map.lookup key = some (value, accessIt)
  ordered : c.access.Pairwise fun a b => b.1 < a.1
  below : ∀ node ∈ c.access, node.1 < c.nodes
  fits : c.access.length ≤ c.capacity

variable {c : LruCache κ ν} {m : Recency κ ν} {key : κ} {value : ν} {accessIt : ℕ}

theorem Follows.single (follows : Follows c m) {a b : ℕ × κ} (memA : a ∈ c.access)
    (memB : b ∈ c.access) (same : a.1 = b.1) : a = b := by
  refine @List.Pairwise.forall_of_forall_of_flip _ c.access
    (fun a b : ℕ × κ => a.1 = b.1 → a = b) (fun _ _ _ => rfl) ?_ ?_ a memA b memB same
  · exact follows.ordered.imp fun less same => absurd same less.ne'
  · exact follows.ordered.imp fun less same => absurd same less.ne

theorem Follows.once (follows : Follows c m) : (c.access.map Prod.snd).Nodup := by
  rw [List.Nodup, List.pairwise_map]
  refine follows.ordered.imp_of_mem fun {a b} memA memB less same => ?_
  obtain ⟨v, atA⟩ := (follows.nodes a.1 a.2).1 memA
  obtain ⟨w, atB⟩ := (follows.nodes b.1 b.2).1 memB
  rw [same, atB, Option.some.injEq, Prod.mk.injEq] at atA
  exact less.ne atA.2

theorem Follows.keys (follows : Follows c m) (key : κ) :
    key ∈ c.access.map Prod.snd ↔ key ∈ c.map.keys := by
  rw [List.mem_map, Finmap.mem_keys, ← Finmap.lookup_isSome, Option.isSome_iff_exists]
  constructor
  · rintro ⟨⟨accessIt, _⟩, mem, rfl⟩
    obtain ⟨value, found⟩ := (follows.nodes accessIt _).1 mem
    exact ⟨_, found⟩
  · rintro ⟨⟨value, accessIt⟩, found⟩
    exact ⟨(accessIt, key), (follows.nodes accessIt key).2 ⟨value, found⟩, rfl⟩

theorem Follows.length (follows : Follows c m) : c.access.length = c.map.keys.card := by
  have same : (c.access.map Prod.snd).toFinset = c.map.keys := by
    ext key
    rw [List.mem_toFinset, follows.keys]
  rw [← same, List.toFinset_card_of_nodup follows.once, List.length_map]

theorem Follows.inStep (follows : Follows c m) : InStep c where
  keys := follows.keys
  once := follows.once
  linked := fun key value accessIt found => (follows.nodes accessIt key).2 ⟨value, found⟩
  length := follows.length
  fits := follows.length ▸ follows.fits

/-- What is left when the entry of a key and its node are gone -/
def LruCache.without (c : LruCache κ ν) (key : κ) (accessIt : ℕ) : LruCache κ ν :=
  { c with
    map := c.map.erase key
    access := c.access.filter fun node => node.1 ≠ accessIt }

theorem Follows.eraseNode (follows : Follows c m)
    (found : c.map.lookup key = some (value, accessIt)) :
    c.eraseNode accessIt =
      some { c with access := c.access.filter fun node => node.1 ≠ accessIt } :=
  if_pos (List.mem_map.2 ⟨(accessIt, key), (follows.nodes accessIt key).2 ⟨value, found⟩, rfl⟩)

theorem Follows.without (follows : Follows c m)
    (found : c.map.lookup key = some (value, accessIt)) :
    Follows (c.without key accessIt) (m.remove key) := by
  refine ⟨congrArg (Finmap.erase key) follows.entries, follows.uses, fun it other => ?_,
    follows.ordered.filter _, fun node mem => follows.below node (List.mem_of_mem_filter mem),
    (List.length_filter_le _ _).trans follows.fits⟩
  have at_ : (accessIt, key) ∈ c.access := (follows.nodes accessIt key).2 ⟨value, found⟩
  rw [LruCache.without, List.mem_filter, follows.nodes, decide_eq_true_eq]
  dsimp only
  rw [lookup_erase_ite]
  constructor
  · rintro ⟨⟨w, atOther⟩, differs⟩
    refine ⟨w, ?_⟩
    rw [if_neg, atOther]
    rintro rfl
    rw [found, Option.some.injEq, Prod.mk.injEq] at atOther
    exact differs atOther.2.symm
  · rintro ⟨w, atOther⟩
    split_ifs at atOther with here
    refine ⟨⟨w, atOther⟩, ?_⟩
    rintro rfl
    have mem : (it, other) ∈ c.access := (follows.nodes it other).2 ⟨w, atOther⟩
    exact here (congrArg Prod.snd (follows.single mem at_ rfl))

theorem Follows.pushFront (follows : Follows c m) (absent : c.map.lookup key = none)
    (room : c.access.length < c.capacity) (value : ν) :
    Follows (c.pushFront key value) (m.use key value) := by
  refine ⟨?_, congrArg (· + 1) follows.uses, fun it other => ?_,
    List.pairwise_cons.2 ⟨follows.below, follows.ordered⟩, fun node mem => ?_, room⟩
  · unfold LruCache.pushFront Recency.use
    dsimp only
    rw [follows.entries, follows.uses]
  · unfold LruCache.pushFront
    dsimp only
    rw [List.mem_cons, Prod.mk.injEq, follows.nodes, lookup_insert_ite]
    split_ifs with here
    · subst here
      simp only [absent, reduceCtorEq, exists_false, or_false, and_true, Option.some.injEq,
        Prod.mk.injEq, exists_and_right, exists_eq', true_and]
      exact eq_comm
    · exact or_iff_right fun both => here both.2
  · rcases List.mem_cons.1 mem with rfl | mem
    · exact Nat.lt_succ_self _
    · exact Nat.lt_succ_of_lt (follows.below node mem)

theorem Follows.lookup (follows : Follows c m) (key : κ) :
    m.entries.lookup key = c.map.lookup key := by rw [follows.entries]

theorem Follows.erase (follows : Follows c m)
    (found : c.map.lookup key = some (value, accessIt)) :
    c.erase key = some { c.without key accessIt with evicted := c.evicted ++ [(key, value)] } := by
  rw [LruCache.erase, found]
  dsimp only
  rw [follows.eraseNode found]
  rfl

theorem Follows.evicted (follows : Follows c m) (evicted : List (κ × ν)) :
    Follows { c with evicted := evicted } m :=
  ⟨follows.entries, follows.uses, follows.nodes, follows.ordered, follows.below, follows.fits⟩

theorem Follows.oldest (follows : Follows c m) {init : List (ℕ × κ)} {old : ℕ × κ}
    (split : c.access = init ++ [old]) :
    ∃ oldValue, c.map.lookup old.2 = some (oldValue, old.1) ∧ m.Oldest old.2 oldValue := by
  have last : old ∈ c.access := by simp [split]
  obtain ⟨oldValue, found⟩ := (follows.nodes old.1 old.2).1 last
  refine ⟨oldValue, found, old.1, (follows.lookup _).trans found, ?_⟩
  intro other value time present
  rw [follows.lookup] at present
  have mem : (time, other) ∈ c.access := (follows.nodes time other).2 ⟨value, present⟩
  have ordered := follows.ordered
  rw [split] at mem ordered
  rcases List.mem_append.1 mem with early | same
  · exact ((List.pairwise_append.1 ordered).2.2 _ early old (List.mem_singleton_self _)).le
  · rw [List.mem_singleton] at same
    exact (congrArg Prod.fst same).ge

end Refinement

section Runs

variable {κ ν : Type} [DecidableEq κ] {c : LruCache κ ν} {m : Recency κ ν}

theorem insert_erase (entries : FMap κ (ν × ℕ)) (key : κ) (entry : ν × ℕ) :
    (entries.erase key).insert key entry = entries.insert key entry := by
  apply Finmap.ext_lookup
  intro other
  rw [lookup_insert_ite, lookup_insert_ite, lookup_erase_ite]
  split_ifs <;> rfl

/-- One event: what the source does is what it should, and it is defined. -/
structure Steps (c : LruCache κ ν) (m : Recency κ ν) (e : Event κ ν) (found : Option ν)
    (out : List (κ × ν)) (c' : LruCache κ ν) (m' : Recency κ ν) : Prop where
  done : c.step e = some (found, c')
  performs : Performs c.capacity m e found out m'
  follows : Follows c' m'
  evicted : c'.evicted = c.evicted ++ out
  capacity : c'.capacity = c.capacity

theorem Follows.card (follows : Follows c m) : m.entries.keys.card = c.access.length := by
  rw [follows.length, follows.entries]

theorem Follows.steps_find (follows : Follows c m) (key : κ) :
    ∃ found out c' m', Steps c m (.find key) found out c' m' := by
  cases found : c.map.lookup key with
  | none =>
    refine ⟨none, [], c, m, ?_, .miss ((follows.lookup key).trans found), follows,
      (List.append_nil _).symm, rfl⟩
    rw [LruCache.step, LruCache.find, found]
  | some entry =>
    obtain ⟨value, accessIt⟩ := entry
    have same : (c.without key accessIt).pushFront key value =
        { c with access := c.access.filter fun node => node.1 ≠ accessIt }.pushFront key value := by
      unfold LruCache.without LruCache.pushFront
      dsimp only
      rw [insert_erase]
    have use : (m.remove key).use key value = m.use key value := by
      unfold Recency.remove Recency.use
      dsimp only
      rw [insert_erase]
    have absent : (c.without key accessIt).map.lookup key = none := by
      unfold LruCache.without
      dsimp only
      rw [lookup_erase_ite, if_pos rfl]
    have room : (c.without key accessIt).access.length < (c.without key accessIt).capacity := by
      refine lt_of_lt_of_le ?_ follows.fits
      refine List.length_filter_lt_length_iff_exists.2 ⟨(accessIt, key), ?_, by simp⟩
      exact (follows.nodes accessIt key).2 ⟨value, found⟩
    refine ⟨some value, [], (c.without key accessIt).pushFront key value, _, ?_,
      .hit ((follows.lookup key).trans found),
      use ▸ (follows.without found).pushFront absent room value, (List.append_nil _).symm, rfl⟩
    rw [LruCache.step, LruCache.find, found, same]
    dsimp only
    rw [follows.eraseNode found]
    rfl

theorem Follows.steps_insert (follows : Follows c m) (room : 1 ≤ c.capacity) (key : κ)
    (value : ν) : ∃ found out c' m', Steps c m (.insert key value) found out c' m' := by
  cases found : c.map.lookup key with
  | some entry =>
    refine ⟨none, [], c, m, ?_, .known ?_, follows, (List.append_nil _).symm, rfl⟩
    · rw [LruCache.step, LruCache.insert, found]
      rfl
    · rw [follows.lookup, found]
      exact nofun
  | none =>
    have absent := (follows.lookup key).trans found
    by_cases full : c.capacity ≤ c.access.length
    · have exact_ : c.access.length = c.capacity := le_antisymm follows.fits full
      have notEmpty : c.access ≠ [] := by
        intro empty
        rw [empty, List.length_nil] at exact_
        omega
      obtain ⟨init, old, split⟩ : ∃ init old, c.access = init ++ [old] :=
        ⟨_, _, (List.dropLast_append_getLast notEmpty).symm⟩
      obtain ⟨oldValue, atOld, oldest⟩ := follows.oldest split
      have left := follows.without atOld
      have absent' : (c.without old.2 old.1).map.lookup key = none := by
        unfold LruCache.without
        dsimp only
        rw [lookup_erase_ite]
        split_ifs
        · rfl
        · exact found
      have shorter : (c.without old.2 old.1).access.length <
          (c.without old.2 old.1).capacity := by
        refine lt_of_lt_of_le ?_ follows.fits
        refine List.length_filter_lt_length_iff_exists.2 ⟨old, by simp [split], by simp⟩
      refine ⟨none, [(old.2, oldValue)], _, _, ?_,
        .evict absent (follows.card.trans exact_) oldest,
        (left.evicted (c.evicted ++ [(old.2, oldValue)])).pushFront absent' shorter value, rfl, rfl⟩
      have last : c.access.getLast? = some old := by rw [split, List.getLast?_concat]
      rw [LruCache.step, LruCache.insert, found]
      dsimp only
      rw [LruCache.makeRoom, if_pos full, last]
      dsimp only [Option.bind_eq_bind, Option.bind_some]
      rw [follows.erase atOld]
      rfl
    · refine ⟨none, [], c.pushFront key value, _, ?_, .enter absent ?_,
        follows.pushFront found (not_le.1 full) value, (List.append_nil _).symm, rfl⟩
      · rw [LruCache.step, LruCache.insert, found]
        dsimp only
        rw [LruCache.makeRoom, if_neg full]
        rfl
      · rw [follows.card]
        exact not_le.1 full

theorem Follows.steps_erase (follows : Follows c m) (key : κ) :
    ∃ found out c' m', Steps c m (.erase key) found out c' m' := by
  cases found : c.map.lookup key with
  | none =>
    refine ⟨none, [], c, m, ?_, .gone ((follows.lookup key).trans found), follows,
      (List.append_nil _).symm, rfl⟩
    rw [LruCache.step, LruCache.erase, found]
    rfl
  | some entry =>
    obtain ⟨value, accessIt⟩ := entry
    refine ⟨none, [(key, value)], _, _, ?_, .erase ((follows.lookup key).trans found),
      (follows.without found).evicted (c.evicted ++ [(key, value)]), rfl, rfl⟩
    rw [LruCache.step, follows.erase found]
    rfl

theorem Follows.steps (follows : Follows c m) (room : 1 ≤ c.capacity) (e : Event κ ν) :
    ∃ found out c' m', Steps c m e found out c' m' := by
  cases e with
  | find key => exact follows.steps_find key
  | insert key value => exact follows.steps_insert room key value
  | erase key => exact follows.steps_erase key

theorem Follows.runs (follows : Follows c m) (room : 1 ≤ c.capacity) (events : List (Event κ ν)) :
    ∃ results c' out m', c.run events = some (results, c') ∧ Follows c' m' ∧
      c'.evicted = c.evicted ++ out ∧ Runs c.capacity m events results out m' := by
  induction events generalizing c m with
  | nil => exact ⟨[], c, [], m, rfl, follows, (List.append_nil _).symm, .nil⟩
  | cons e events ih =>
    obtain ⟨found, out, c₁, m₁, first⟩ := follows.steps room e
    obtain ⟨results, c', later, m', ran, follows', evicted, rest⟩ :=
      ih first.follows (first.capacity ▸ room)
    refine ⟨found :: results, c', out ++ later, m', ?_, follows', ?_, ?_⟩
    · rw [LruCache.run, first.done]
      dsimp only [Option.bind_eq_bind, Option.bind_some]
      rw [ran]
      rfl
    · rw [evicted, first.evicted, List.append_assoc]
    · rw [first.capacity] at rest
      exact .cons first.performs rest

theorem Follows.empty (capacity : ℕ) : Follows (.empty capacity : LruCache κ ν) ⟨∅, 0⟩ where
  entries := rfl
  uses := rfl
  nodes := fun accessIt key => by simp [LruCache.empty]
  ordered := .nil
  below := nofun
  fits := Nat.zero_le _

/-- Every run is defined, finds and evicts what it should, and leaves the index and the access list
in step with the entries they stand for. -/
theorem lru_run (capacity : ℕ) (room : 1 ≤ capacity) (events : List (Event κ ν)) :
    ∃ results c m, (LruCache.empty capacity).run events = some (results, c) ∧ InStep c ∧
      (∀ key, (c.map.lookup key).map Prod.fst = (m.entries.lookup key).map Prod.fst) ∧
      Runs capacity ⟨∅, 0⟩ events results c.evicted m := by
  obtain ⟨results, c, out, m, ran, follows, evicted, runs⟩ :=
    (Follows.empty (κ := κ) (ν := ν) capacity).runs room events
  refine ⟨results, c, m, ran, follows.inStep, fun key => by rw [follows.lookup], ?_⟩
  rw [evicted]
  exact runs

theorem lru_run_two : ∃ results c m,
    (LruCache.empty 2).run [.insert 1 10, .insert 2 20, .find 1, .insert 3 30, .erase (1 : ℕ)] =
      some (results, c) ∧ InStep c ∧
      (∀ key, (c.map.lookup key).map Prod.fst = (m.entries.lookup key).map Prod.fst) ∧
      Runs 2 (⟨∅, 0⟩ : Recency ℕ ℕ)
        [.insert 1 10, .insert 2 20, .find 1, .insert 3 30, .erase 1] results c.evicted m :=
  lru_run 2 (by decide) _

end Runs


end Epilog.Common.AccessList
