/- Module: Epilog/Global/Chains
   source: src/src/global/blockchain.hpp, src/src/global/blockchain.cpp, src/src/global/meta_entry.hpp
   digest: The table of meta entries, the queries that walk over it, and what they leave unchanged. -/

import Epilog.Lib.FiniteMap
import Epilog.Lib.Query
import Mathlib.Algebra.GroupWithZero.Nat
import Mathlib.Data.Finset.Lattice.Fold
import Mathlib.Order.Lattice.Nat

set_option autoImplicit false

namespace Epilog.Global.Chains

open Epilog.Lib.FiniteMap Epilog.Lib.Query

/-- The 32 bytes of a hash as a big-endian number, so that `memcmp` is the order of numbers. -/
abbrev MetaId := Fin (2 ^ 256)

instance neZero_id : NeZero (2 ^ 256) := ⟨by decide⟩

/-- `flt1648`: the exponent and the raw mantissa -/
structure Flt1648 where
  exponent : Int16
  mantissa : UInt64
  deriving DecidableEq

/-- The 144 bytes of a `pow_proof` as a big-endian number. -/
abbrev PowProof := Fin (2 ^ 1152)

instance neZero_proof : NeZero (2 ^ 1152) := ⟨(Nat.two_pow_pos 1152).ne'⟩

/-- The shared fields of a `meta_entry`; the zero id stands for no entry. -/
structure MetaEntry where
  id : MetaId
  previousId : MetaId
  version : UInt64 := 1
  height : UInt32
  timestamp : UInt64 := 0
  powProof : PowProof := 0
  powDifficulty : Flt1648 := { exponent := 1, mantissa := 0x800000000000 }
  deriving DecidableEq

/-- `at_height_` and `chains_` -/
structure Blockchain where
  atHeight : FMap ℕ (Finset MetaId) := ∅
  chains : FMap MetaId MetaEntry := ∅

abbrev Query := StateM Blockchain

def BRANCH_DEPTH : ℕ := 6

namespace Blockchain

def getMetaEntry (s : Blockchain) (id : MetaId) : Option MetaEntry := s.chains.lookup id

/-- `max_height`: the last key of the table of heights -/
def maxHeight (s : Blockchain) : ℕ := s.atHeight.keys.sup id

def updateMetaEntry (s : Blockchain) (e : MetaEntry) : Blockchain where
  atHeight := s.atHeight.insert e.height.toNat
    (insert e.id ((s.atHeight.lookup e.height.toNat).getD ∅))
  chains := s.chains.insert e.id e

/-- The assertion is that the previous entry is known. -/
def addMetaEntry (s : Blockchain) (e : MetaEntry) : Option Blockchain :=
  if e.previousId = 0 ∨ (s.getMetaEntry e.previousId).isSome then some (s.updateMetaEntry e)
  else none

/-- Both callers of `add_meta_entry` look for the id first. -/
def addUnknown (s : Blockchain) (e : MetaEntry) : Option Blockchain :=
  if (s.getMetaEntry e.id).isSome then some s else s.addMetaEntry e

end Blockchain

/-- `at_height_[h]`, which enters an empty set where there is none. -/
def idsAt (h : ℕ) : Query (Finset MetaId) := fun s =>
  match s.atHeight.lookup h with
  | some ids => (ids, s)
  | none => (∅, { s with atHeight := s.atHeight.insert h ∅ })

/-- The ids filed one height above whose entry has this previous id. -/
def follows (fromId : MetaId) : Query (Finset MetaId) := do
  let s ← get
  match s.getMetaEntry fromId with
  | none => return ∅
  | some entry =>
      let ids ← idsAt (entry.height + 1).toNat
      return ids.filter fun nextId =>
        (s.getMetaEntry nextId).any fun next => next.previousId == fromId

def depth : ℕ → MetaId → Query ℕ
  | 0, _ => return 0
  | maxDepth + 1, fromId => do
      let nextIds ← follows fromId
      (ascending nextIds).foldlM (fun d nextId => do
        let below ← depth maxDepth nextId
        return if below + 1 > d then below + 1 else d) 0

/-- The loop of `next` over the children, with the best depth and id so far. -/
def best (maxDepth : ℕ) (nextIds : Finset MetaId) : Query (ℕ × MetaId) :=
  (ascending nextIds).foldlM (fun (bestDepth, bestId) nextId => do
    let d ← depth maxDepth nextId
    return if d > bestDepth then (d, nextId) else (bestDepth, bestId)) (0, 0)

def next (fromId : MetaId) : ℕ → Query MetaId
  | 0 => return fromId
  | maxLookahead + 1 => do
      let nextIds ← follows fromId
      let (_, bestId) ← best maxLookahead nextIds
      return bestId

/-- Go down until a height has exactly one id. -/
def unambiguous : ℕ → Query ℕ
  | 0 => return 0
  | h + 1 => do
      let ids ← idsAt (h + 1)
      if ids.card ≠ 1 then unambiguous h else return h + 1

/-- How many of the ids start chains of the branch depth -/
def longChains (nextIds : Finset MetaId) : Query ℕ :=
  (ascending nextIds).foldlM (fun found nextId => do
    let d ← depth BRANCH_DEPTH nextId
    return if d ≥ BRANCH_DEPTH then found + 1 else found) 0

/-- Go on to the first branch point with two long chains. -/
def forward : ℕ → MetaId → Query (Option MetaId)
  | 0, _ => return none
  | fuel + 1, fromId => do
      let nextIds ← follows fromId
      match ascending nextIds with
      | [] => return some fromId
      | [nextId] => forward fuel nextId
      | _ => do
          let found ← longChains nextIds
          if found > 1 then return some fromId
          else do
            let bestId ← next fromId BRANCH_DEPTH
            forward fuel bestId

/-- The height that a request means; `total_height - height` is a sum for a negative height. -/
def absHeight (s : Blockchain) (height : ℤ) : ℕ :=
  if height < 0 then
    if height.natAbs > s.maxHeight then 0 else s.maxHeight + height.natAbs
  else height.toNat

/-- The way of `sync_point` down from a height and forward again. -/
def syncFrom (fuel absHeight : ℕ) : Query (Option MetaId) := do
  let h ← unambiguous absHeight
  let ids ← idsAt h
  match ascending ids with
  | [] => return none
  | fromId :: _ => forward fuel fromId

/-- `sync_point`; the option is too little fuel, or the first element of an empty set. -/
def syncPoint (fuel : ℕ) (height : ℤ) : Query (Option MetaId) := do
  let s ← get
  if s.atHeight.keys = ∅ then return some 0 else syncFrom fuel (absHeight s height)

/-- `is_match` with the prefix as the first bytes of the hash -/
def isMatch (id : MetaId) (pre : List UInt8) : Bool :=
  if pre.length > 32 then false
  else id.val / 256 ^ (32 - pre.length) = pre.foldl (fun n byte => n * 256 + byte.toNat) 0

/-- The loop of `find_entries` over the heights from one on, until one has no ids. -/
def findFrom (pre : List UInt8) : ℕ → ℕ → Finset MetaId → Query (Option (Finset MetaId))
  | 0, _, _ => return none
  | fuel + 1, h, matched => do
      let ids ← idsAt h
      if ids = ∅ then return some matched
      else findFrom pre fuel (h + 1) (matched ∪ ids.filter (isMatch · pre))

/-- `find_entries` at one height, or at all from 0 on -/
def findEntries (fuel : ℕ) (height : Option ℕ) (pre : List UInt8) :
    Query (Option (Finset MetaId)) :=
  match height with
  | none => findFrom pre fuel 0 ∅
  | some h => do
      let ids ← idsAt h
      return some (ids.filter (isMatch · pre))

/-- `find_entries` over the ordered ids of all entries; the option is a failed assertion. -/
def findEntriesById (pre : List UInt8) : Query (Option (Finset MetaId)) := do
  let s ← get
  if pre.length ≤ 32 then
    let search := pre.foldl (fun n byte => n * 256 + byte.toNat) 0 * 256 ^ (32 - pre.length)
    let later := (ascending s.chains.keys).dropWhile fun id => id.val < search
    return some (later.takeWhile (isMatch · pre)).toFinset
  else return none

/-- What the queries depend on: the entries, and the ids filed at each height. -/
structure View where
  chains : FMap MetaId MetaEntry
  level : ℕ → Finset MetaId

def view (s : Blockchain) : View where
  chains := s.chains
  level h := (s.atHeight.lookup h).getD ∅

namespace View

def children (v : View) (fromId : MetaId) : Finset MetaId :=
  match v.chains.lookup fromId with
  | none => ∅
  | some entry => (v.level (entry.height + 1).toNat).filter fun nextId =>
      (v.chains.lookup nextId).any fun next => next.previousId == fromId

def depth (v : View) : ℕ → MetaId → ℕ
  | 0, _ => 0
  | maxDepth + 1, fromId => (ascending (v.children fromId)).foldl (fun d nextId =>
      if v.depth maxDepth nextId + 1 > d then v.depth maxDepth nextId + 1 else d) 0

def best (v : View) (maxDepth : ℕ) (nextIds : Finset MetaId) : ℕ × MetaId :=
  (ascending nextIds).foldl (fun b nextId =>
    if v.depth maxDepth nextId > b.1 then (v.depth maxDepth nextId, nextId) else b) (0, 0)

def next (v : View) (fromId : MetaId) : ℕ → MetaId
  | 0 => fromId
  | maxLookahead + 1 => (v.best maxLookahead (v.children fromId)).2

def unambiguous (v : View) : ℕ → ℕ
  | 0 => 0
  | h + 1 => if (v.level (h + 1)).card ≠ 1 then v.unambiguous h else h + 1

def longChains (v : View) (nextIds : Finset MetaId) : ℕ :=
  (ascending nextIds).foldl (fun found nextId =>
    if v.depth BRANCH_DEPTH nextId ≥ BRANCH_DEPTH then found + 1 else found) 0

def forward (v : View) : ℕ → MetaId → Option MetaId
  | 0, _ => none
  | fuel + 1, fromId =>
      match ascending (v.children fromId) with
      | [] => some fromId
      | [nextId] => v.forward fuel nextId
      | _ =>
          if v.longChains (v.children fromId) > 1 then some fromId
          else v.forward fuel (v.next fromId BRANCH_DEPTH)

def syncFrom (v : View) (fuel absHeight : ℕ) : Option MetaId :=
  match ascending (v.level (v.unambiguous absHeight)) with
  | [] => none
  | fromId :: _ => v.forward fuel fromId

end View

section Reading

theorem reads_idsAt (h : ℕ) : Reads view (idsAt h) fun v => v.level h := by
  intro s
  simp only [idsAt]
  cases found : s.atHeight.lookup h with
  | some ids => exact ⟨by simp [view, found], rfl⟩
  | none =>
    refine ⟨by simp [view, found], ?_⟩
    simp only [view, View.mk.injEq, true_and]
    ext1 k
    rw [lookup_insert_ite]
    split
    case isTrue same =>
      rw [same, found]
      rfl
    case isFalse => rfl

theorem reads_follows (fromId : MetaId) : Reads view (follows fromId) (·.children fromId) := by
  intro s
  cases found : s.chains.lookup fromId with
  | none =>
    have call : follows fromId s = (∅, s) := by
      change (match s.chains.lookup fromId with | none => _ | some entry => _ : Query _) s = _
      rw [found]
      rfl
    rw [call]
    exact ⟨by simp only [View.children, view, found], rfl⟩
  | some entry =>
    obtain ⟨answer, kept⟩ := reads_idsAt (entry.height + 1).toNat s
    have call : follows fromId s =
        ((idsAt (entry.height + 1).toNat s).1.filter fun nextId =>
          (s.chains.lookup nextId).any fun next => next.previousId == fromId,
          (idsAt (entry.height + 1).toNat s).2) := by
      change (match s.chains.lookup fromId with | none => _ | some entry => _ : Query _) s = _
      rw [found]
      rfl
    rw [call, answer]
    refine ⟨?_, kept⟩
    simp only [View.children]
    rw [show (view s).chains = s.chains from rfl, found]

theorem reads_depth (maxDepth : ℕ) (fromId : MetaId) :
    Reads view (depth maxDepth fromId) (·.depth maxDepth fromId) := by
  induction maxDepth generalizing fromId with
  | zero => exact Reads.pure 0
  | succ maxDepth ih =>
    have step := (reads_follows fromId).bind fun nextIds =>
      Reads.foldlM (fun d nextId => (ih nextId).bind fun below =>
        Reads.pure (if below + 1 > d then below + 1 else d)) (ascending nextIds) 0
    exact step

theorem reads_best (maxDepth : ℕ) (nextIds : Finset MetaId) :
    Reads view (best maxDepth nextIds) (·.best maxDepth nextIds) :=
  Reads.foldlM (fun _ nextId => (reads_depth maxDepth nextId).bind fun _ => Reads.pure _)
    (ascending nextIds) (0, 0)

theorem reads_next (fromId : MetaId) (maxLookahead : ℕ) :
    Reads view (next fromId maxLookahead) (·.next fromId maxLookahead) := by
  cases maxLookahead with
  | zero => exact Reads.pure fromId
  | succ maxLookahead =>
    have step := (reads_follows fromId).bind fun nextIds =>
      (reads_best maxLookahead nextIds).bind fun b => Reads.pure b.2
    exact step

theorem reads_unambiguous (h : ℕ) : Reads view (unambiguous h) (·.unambiguous h) := by
  induction h with
  | zero => exact Reads.pure 0
  | succ h ih =>
    have step := (reads_idsAt (h + 1)).bind (k := fun ids =>
      if ids.card ≠ 1 then unambiguous h else Pure.pure (h + 1))
      (g := fun ids v => if ids.card ≠ 1 then v.unambiguous h else h + 1) fun ids => by
        by_cases many : ids.card ≠ 1
        · simp only [if_pos many]
          exact ih
        · simp only [if_neg many]
          exact Reads.pure _
    exact step

theorem reads_longChains (nextIds : Finset MetaId) :
    Reads view (longChains nextIds) (·.longChains nextIds) :=
  Reads.foldlM (fun _ nextId => (reads_depth BRANCH_DEPTH nextId).bind fun _ => Reads.pure _)
    (ascending nextIds) 0

theorem reads_forward (fuel : ℕ) (fromId : MetaId) :
    Reads view (forward fuel fromId) (·.forward fuel fromId) := by
  induction fuel generalizing fromId with
  | zero => exact Reads.pure none
  | succ fuel ih =>
    refine (reads_follows fromId).bind (g := fun nextIds v => match ascending nextIds with
      | [] => some fromId
      | [nextId] => v.forward fuel nextId
      | _ =>
          if v.longChains nextIds > 1 then some fromId
          else v.forward fuel (v.next fromId BRANCH_DEPTH)) fun nextIds => ?_
    cases ascending nextIds with
    | nil => exact Reads.pure _
    | cons nextId later =>
      cases later with
      | nil => exact ih nextId
      | cons _ _ =>
        refine (reads_longChains nextIds).bind (g := fun found v =>
          if found > 1 then some fromId else v.forward fuel (v.next fromId BRANCH_DEPTH))
          fun found => ?_
        by_cases two : found > 1
        · simp only [if_pos two]
          exact Reads.pure _
        · simp only [if_neg two]
          exact (reads_next fromId BRANCH_DEPTH).bind fun bestId => ih bestId

theorem reads_syncFrom (fuel absHeight : ℕ) :
    Reads view (syncFrom fuel absHeight) (·.syncFrom fuel absHeight) := by
  refine (reads_unambiguous absHeight).bind (g := fun h v =>
    match ascending (v.level h) with
    | [] => none
    | fromId :: _ => v.forward fuel fromId) fun h => ?_
  refine (reads_idsAt h).bind (g := fun ids v =>
    match ascending ids with
    | [] => none
    | fromId :: _ => v.forward fuel fromId) fun ids => ?_
  cases ascending ids with
  | nil => exact Reads.pure none
  | cons fromId _ => exact reads_forward fuel fromId

theorem reads_findFrom (pre : List UInt8) (fuel h : ℕ) (matched : Finset MetaId) :
    ∃ f, Reads view (findFrom pre fuel h matched) f := by
  induction fuel generalizing h matched with
  | zero => exact ⟨_, Reads.pure none⟩
  | succ fuel ih =>
    choose f reads using ih
    refine ⟨_, (reads_idsAt h).bind (g := fun ids v =>
      if ids = ∅ then some matched else f (h + 1) (matched ∪ ids.filter (isMatch · pre)) v)
      fun ids => ?_⟩
    by_cases none_left : ids = ∅
    · simp only [if_pos none_left]
      exact Reads.pure _
    · simp only [if_neg none_left]
      exact reads _ _

end Reading

section Forest

/-- The ids filed at a height are those of the entries of this height, and the previous ids lead
back in the order in which the entries came. -/
structure Filed (v : View) : Prop where
  ids : ∀ id e, v.chains.lookup id = some e → e.id = id
  level : ∀ h id, id ∈ v.level h ↔ ∃ e, v.chains.lookup id = some e ∧ e.height.toNat = h
  ordered : ∃ (rank : MetaId → ℕ) (n : ℕ), ∀ id e, v.chains.lookup id = some e → rank id < n ∧
    (e.previousId = 0 ∨
      (v.chains.lookup e.previousId).isSome = true ∧ rank e.previousId < rank id)

/-- From one entry over children to another -/
def Descends (v : View) : MetaId → MetaId → Prop :=
  Relation.ReflTransGen fun parent child => child ∈ v.children parent

/-- A fork whose branches end at once -/
def StuckFork (v : View) (fork : MetaId) : Prop :=
  2 ≤ (v.children fork).card ∧ ∀ child ∈ v.children fork, v.children child = ∅

variable {v : View}

theorem filed_empty : Filed (view {}) where
  ids _ _ impossible := by cases impossible
  level _ _ := by
    constructor
    · intro impossible
      cases impossible
    · rintro ⟨_, impossible, _⟩
      cases impossible
  ordered := ⟨fun _ => 0, 0, fun _ _ impossible => by cases impossible⟩

theorem mem_children {parent child : MetaId} :
    child ∈ v.children parent ↔ ∃ p c, v.chains.lookup parent = some p ∧
      v.chains.lookup child = some c ∧ child ∈ v.level (p.height + 1).toNat ∧
      c.previousId = parent := by
  unfold View.children
  cases v.chains.lookup parent with
  | none => simp
  | some p =>
    simp only [Finset.mem_filter, Option.some.injEq, Option.any_eq_true, beq_iff_eq]
    constructor
    · rintro ⟨filed, c, found, previous⟩
      exact ⟨p, c, rfl, found, filed, previous⟩
    · rintro ⟨_, c, rfl, found, filed, previous⟩
      exact ⟨filed, c, found, previous⟩

theorem depth_pos {n : ℕ} {id : MetaId} (some_child : v.children id ≠ ∅) :
    0 < v.depth (n + 1) id := by
  have grows : ∀ (l : List MetaId) (d : ℕ), d ≤ l.foldl (fun d nextId =>
      if v.depth n nextId + 1 > d then v.depth n nextId + 1 else d) d := by
    intro l
    induction l with
    | nil => exact fun d => le_rfl
    | cons a l ih =>
      intro d
      refine le_trans ?_ (ih _)
      dsimp only
      split_ifs <;> omega
  rw [View.depth]
  cases children : ascending (v.children id) with
  | nil => exact absurd (ascending_eq_nil.mp children) some_child
  | cons child later =>
    rw [List.foldl_cons]
    refine lt_of_lt_of_le ?_ (grows later _)
    split_ifs <;> omega

theorem best_mem {maxDepth : ℕ} {ids : Finset MetaId} {id : MetaId} (member : id ∈ ids)
    (deep : 0 < v.depth maxDepth id) : (v.best maxDepth ids).2 ∈ ids := by
  have walks : ∀ (l : List MetaId) (b : ℕ × MetaId), (∀ a ∈ l, a ∈ ids) →
      (0 < b.1 → b.2 ∈ ids) → (0 < b.1 ∨ ∃ a ∈ l, 0 < v.depth maxDepth a) →
      (l.foldl (fun b nextId => if v.depth maxDepth nextId > b.1
        then (v.depth maxDepth nextId, nextId) else b) b).2 ∈ ids := by
    intro l
    induction l with
    | nil =>
      intro b _ inside some_deep
      apply inside
      simpa using some_deep
    | cons a l ih =>
      intro b all inside some_deep
      rw [List.foldl_cons]
      have later : ∀ a ∈ l, a ∈ ids := fun a' rest => all a' (List.mem_cons_of_mem a rest)
      split_ifs with deeper
      · exact ih _ later (fun _ => all a List.mem_cons_self) (.inl (by dsimp only; omega))
      · refine ih _ later inside ?_
        rcases some_deep with positive | ⟨a', rest, positive⟩
        · exact .inl positive
        · rcases List.mem_cons.mp rest with rfl | rest
          · exact .inl (by omega)
          · exact .inr ⟨a', rest, positive⟩
  refine walks _ _ (fun a rest => mem_ascending.mp rest) ?_ (.inr ⟨id, ?_, deep⟩)
  · intro impossible
    exact absurd impossible (lt_irrefl 0)
  · exact mem_ascending.mpr member

theorem next_mem {id : MetaId} (fork : 2 ≤ (v.children id).card) (free : ¬ StuckFork v id) :
    v.next id BRANCH_DEPTH ∈ v.children id := by
  have some_deep : ∃ child ∈ v.children id, v.children child ≠ ∅ := by
    by_contra none_deep
    push Not at none_deep
    exact free ⟨fork, none_deep⟩
  obtain ⟨child, member, deep⟩ := some_deep
  exact best_mem member (depth_pos deep)

theorem forward_ends (filed : Filed v) (none_zero : v.chains.lookup 0 = none) {start : MetaId}
    (free : ∀ fork, Descends v start fork → ¬ StuckFork v fork) :
    ∃ r n, (∀ fuel ≥ n, v.forward fuel start = some r) ∧ Descends v start r ∧
      (v.children r = ∅ ∨ 2 ≤ v.longChains (v.children r)) := by
  obtain ⟨rank, n, ordered⟩ := filed.ordered
  induction left : n - rank start using Nat.strong_induction_on generalizing start with
  | _ k ih =>
    have onward : ∀ child ∈ v.children start, (∀ fuel, v.forward (fuel + 1) start =
        v.forward fuel child) → ∃ r n, (∀ fuel ≥ n, v.forward fuel start = some r) ∧
          Descends v start r ∧ (v.children r = ∅ ∨ 2 ≤ v.longChains (v.children r)) := by
      intro child member call
      obtain ⟨p, c, known, found, _, previous⟩ := mem_children.mp member
      obtain ⟨below, before⟩ := ordered child c found
      have nonzero : c.previousId ≠ 0 := by
        intro zero
        rw [← previous, zero, none_zero] at known
        cases known
      have later := (before.resolve_left nonzero).2
      rw [previous] at later
      obtain ⟨r, m, ran, descends, stops⟩ := ih (n - rank child) (by omega)
        (fun fork path => free fork (.head member path)) rfl
      refine ⟨r, m + 1, fun fuel large => ?_, .head member descends, stops⟩
      obtain ⟨fuel, rfl⟩ := Nat.exists_eq_add_of_le' (show 1 ≤ fuel by omega)
      rw [call]
      exact ran fuel (by omega)
    have size := length_ascending (v.children start)
    cases children : ascending (v.children start) with
    | nil =>
      refine ⟨start, 1, fun fuel large => ?_, .refl, .inl (ascending_eq_nil.mp children)⟩
      obtain ⟨fuel, rfl⟩ := Nat.exists_eq_add_of_le' large
      simp only [View.forward, children]
    | cons child later =>
      have member : child ∈ v.children start := mem_ascending.mp (by rw [children]; simp)
      cases later with
      | nil => exact onward child member fun fuel => by simp only [View.forward, children]
      | cons child' later =>
        rw [children] at size
        have fork : 2 ≤ (v.children start).card := by
          rw [← size]
          simp
        by_cases two : v.longChains (v.children start) > 1
        · refine ⟨start, 1, fun fuel large => ?_, .refl, .inr two⟩
          obtain ⟨fuel, rfl⟩ := Nat.exists_eq_add_of_le' large
          simp only [View.forward, children, if_pos two]
        · exact onward _ (next_mem fork (free start .refl)) fun fuel => by
            simp only [View.forward, children, if_neg two]

theorem unambiguous_spec (v : View) (h : ℕ) : v.unambiguous h ≤ h ∧
    (v.unambiguous h = 0 ∨ (v.level (v.unambiguous h)).card = 1) ∧
    ∀ k, v.unambiguous h < k → k ≤ h → (v.level k).card ≠ 1 := by
  induction h with
  | zero => exact ⟨le_rfl, .inl rfl, fun k above below => by omega⟩
  | succ h ih =>
    rw [View.unambiguous]
    split_ifs with many
    · obtain ⟨below, single, ambiguous⟩ := ih
      refine ⟨by omega, single, fun k above small => ?_⟩
      rcases Nat.lt_or_ge h k with last | earlier
      · obtain rfl : k = h + 1 := by omega
        exact many
      · exact ambiguous k above earlier
    · exact ⟨le_rfl, .inr (not_not.mp many), fun k above below => by omega⟩

end Forest

end Epilog.Global.Chains
