/- Module: Epilog/Node/Branches
   source: src/src/node/local_interpreter.cpp (branches_2), src/src/global/meta_entry.hpp
   digest: The side branches of a list of meta terms. -/

import Epilog.Global.MetaTerms
import Epilog.Lib.FiniteMap

set_option autoImplicit false

namespace Epilog.Node.Branches

open Epilog.Global.Chains (MetaId)
open Epilog.Global.MetaTerms (MetaTerm Property getMetaId)
open Epilog.Lib.FiniteMap

section Model

structure MetaSmall where
  id : MetaId
  prevId : MetaId
  height : ℕ
  deriving DecidableEq

/-- `longest_id`, `longest_id_height` and `ambiguous` -/
structure Tip where
  id : MetaId
  height : ℕ
  ambiguous : Bool

def Tip.track (tip : Tip) (id : MetaId) (height : ℕ) : Tip :=
  if tip.height < height then ⟨id, height, false⟩
  else if height = tip.height then { tip with ambiguous := true }
  else tip

/-- The variables of the loop over the properties -/
structure Reading where
  small : MetaSmall
  idOk : Bool
  previdOk : Bool
  heightOk : Bool
  error : Bool
  tip : Tip

/-- The body of that loop. The height updates the tip with the identifier that has been read so
far. -/
def Reading.prop (r : Reading) : Property → Reading
  | .id a =>
    match getMetaId a with
    | some id => { r with small := { r.small with id }, idOk := true }
    | none => { r with error := true }
  | .previd a =>
    match getMetaId a with
    | some prevId => { r with small := { r.small with prevId }, previdOk := true }
    | none => { r with error := true }
  | .height (.int v) =>
    if 0 ≤ v then
      { r with
        small := { r.small with height := v.toNat }
        heightOk := true
        tip := r.tip.track r.small.id v.toNat }
    else { r with error := true }
  | .height _ => { r with error := true }
  | _ => r

def Reading.props (r : Reading) : List Property → Reading
  | [] => r
  | p :: ps => if (r.prop p).error then r.prop p else (r.prop p).props ps

/-- The variables of the loop over the meta terms -/
structure Graph where
  tip : Tip
  smallMap : FMap MetaId MetaSmall
  follows : FMap MetaId (Finset MetaId)

def Graph.add (g : Graph) : MetaTerm → Graph
  | .other => g
  | .meta1 props =>
    let r := Reading.props ⟨⟨0, 0, 0⟩, false, false, false, false, g.tip⟩ props
    if !r.error ∧ r.idOk ∧ r.previdOk ∧ r.heightOk then
      let others := (g.follows.lookup r.small.prevId).getD ∅
      { tip := r.tip
        smallMap := g.smallMap.insert r.small.id r.small
        follows := g.follows.insert r.small.prevId (insert r.small.id others) }
    else { g with tip := r.tip }

def graph (metas : List MetaTerm) : Graph := metas.foldl Graph.add ⟨⟨0, 0, false⟩, ∅, ∅⟩

/-- An entry that is missing is made, with the identifier zero as its previous one. -/
def Graph.prev (g : Graph) (id : MetaId) : MetaId := ((g.smallMap.lookup id).map (·.prevId)).getD 0

/-- The walk over the previous entries, which may run in a circle -/
def longestChain (prev : MetaId → MetaId) : (fuel : ℕ) → MetaId → Option (Finset MetaId)
  | 0, _ => none
  | fuel + 1, id =>
    if id = 0 then some ∅ else (longestChain prev fuel (prev id)).map (insert id)

/-- What `std::sort` asks of a comparison of the elements -/
structure StrictWeak {α : Type} (less : α → α → Bool) (l : List α) : Prop where
  irrefl : ∀ a ∈ l, less a a = false
  trans : ∀ a ∈ l, ∀ b ∈ l, ∀ c ∈ l, less a b → less b c → less a c
  incomparable : ∀ a ∈ l, ∀ b ∈ l, ∀ c ∈ l, less a b = false → less b a = false →
    less b c = false → less c b = false → less a c = false ∧ less c a = false

/-- The standard library: the order of an `unordered_set` is unspecified, and so is what `std::sort`
does with a comparison that is no strict weak order. -/
structure Library where
  order : Finset MetaId → List MetaId
  sort : (MetaSmall → MetaSmall → Bool) → List MetaSmall → List MetaSmall
  order_spec : ∀ s, (order s).Nodup ∧ ∀ a, a ∈ order s ↔ a ∈ s
  sort_spec : ∀ less l, StrictWeak less l →
    (sort less l).Perm l ∧ (sort less l).Pairwise fun a b => less b a = false

/-- The comparison: its results -1 and 1 both count as true. -/
def differ (a b : MetaSmall) : Bool := a.height ≠ b.height ∨ a.id ≠ b.id

def branchpoints (lib : Library) (g : Graph) (chain : Finset MetaId) : List MetaSmall :=
  (g.follows.keys.sort (· ≤ ·)).flatMap fun p =>
    let fids := (g.follows.lookup p).getD ∅
    if 1 < fids.card then
      ((lib.order fids).filter (· ∉ chain)).map fun fid =>
        (g.smallMap.lookup fid).getD ⟨0, 0, 0⟩
    else []

/-- `branches_2`: the heights and identifiers in the list that it returns -/
def branches (lib : Library) (fuel : ℕ) (metas : List MetaTerm) : Option (List (ℕ × MetaId)) := do
  let g := graph metas
  let chain ← if g.tip.ambiguous then some ∅ else longestChain g.prev fuel g.tip.id
  return (lib.sort differ (branchpoints lib g chain).reverse).map fun b => (b.height, b.id)

end Model

section Statement

/-- The statements of a meta term so far; the last one of a kind counts. -/
structure Stated where
  id : Option MetaId
  prevId : Option MetaId
  height : Option ℕ

/-- No statement of the identifiers or of the height is malformed. -/
def Stated.prop (s : Stated) : Property → Option Stated
  | .id a => (getMetaId a).map fun id => { s with id := some id }
  | .previd a => (getMetaId a).map fun prevId => { s with prevId := some prevId }
  | .height (.int v) => if 0 ≤ v then some { s with height := some v.toNat } else none
  | .height _ => none
  | _ => some s

/-- A well-formed entry states its identifier, its parent and its height. -/
def entryOf : MetaTerm → Option MetaSmall
  | .other => none
  | .meta1 props => do
    let s ← props.foldlM Stated.prop ⟨none, none, none⟩
    return ⟨← s.id, ← s.prevId, ← s.height⟩

def entries (metas : List MetaTerm) : List MetaSmall := metas.filterMap entryOf

variable (metas : List MetaTerm)

/-- Another entry has the same parent. -/
def SharesParent (e : MetaSmall) : Prop :=
  e ∈ entries metas ∧ ∃ e' ∈ entries metas, e'.prevId = e.prevId ∧ e'.id ≠ e.id

/-- The longest chain: the unique entry of greatest height and its ancestors -/
inductive OnLongest : MetaId → Prop
  | tip {e : MetaSmall} (stated : e ∈ entries metas)
      (highest : ∀ e' ∈ entries metas, e' ≠ e → e'.height < e.height) : OnLongest e.id
  | parent {e : MetaSmall} (stated : e ∈ entries metas) (child : OnLongest e.id) :
      OnLongest e.prevId

/-- The side branches in order, without duplicates -/
def IsBranches (out : List (ℕ × MetaId)) : Prop :=
  (out.Pairwise fun a b => a.1 < b.1 ∨ a.1 = b.1 ∧ a.2 < b.2) ∧
    ∀ b, b ∈ out ↔ ∃ e, SharesParent metas e ∧ ¬ OnLongest metas e.id ∧ b = (e.height, e.id)

/-- With any standard library, the side branches are returned. -/
def Correct : Prop := ∀ lib, ∃ fuel out, branches lib fuel metas = some out ∧ IsBranches metas out

/-- The heights that are read, with the identifiers read before them in the same term -/
def heightsRead : MetaId → List Property → List (MetaId × ℕ)
  | _, [] => []
  | _, .id a :: props =>
    match getMetaId a with
    | some id => heightsRead id props
    | none => []
  | id, .previd a :: props =>
    match getMetaId a with
    | some _ => heightsRead id props
    | none => []
  | id, .height (.int v) :: props => if 0 ≤ v then (id, v.toNat) :: heightsRead id props else []
  | _, .height _ :: _ => []
  | id, _ :: props => heightsRead id props

def heightsOf : MetaTerm → List (MetaId × ℕ)
  | .other => []
  | .meta1 props => heightsRead 0 props

def trackAll (tip : Tip) (heights : List (MetaId × ℕ)) : Tip :=
  heights.foldl (fun tip p => tip.track p.1 p.2) tip

/-- The identifier read before the greatest of all heights, which has to be read once only -/
def trackedTip : Tip := trackAll ⟨0, 0, false⟩ (metas.flatMap heightsOf)

/-- Where the walk starts; the identifier zero is that of no entry. -/
def start : MetaId := if (trackedTip metas).ambiguous then 0 else (trackedTip metas).id

/-- The last entry with an identifier -/
def lastEntry (id : MetaId) : Option MetaSmall := (entries metas).reverse.find? (·.id = id)

def parent (id : MetaId) : MetaId := ((lastEntry metas id).map (·.prevId)).getD 0

/-- The walk over a function of identifiers comes to zero. -/
inductive Ends (next : MetaId → MetaId) : MetaId → Prop
  | zero : Ends next 0
  | step {id : MetaId} (later : Ends next (next id)) : Ends next id

/-- The identifiers on the walk -/
inductive Walked (next : MetaId → MetaId) : MetaId → MetaId → Prop
  | here {id : MetaId} (some : id ≠ 0) : Walked next id id
  | later {id x : MetaId} (some : id ≠ 0) (rest : Walked next (next id) x) : Walked next id x

def OnWalk (id : MetaId) : Prop := Walked (parent metas) (start metas) id

/-- The condition: the walk from the tip that was read ends, it meets the same entries with
siblings as the longest chain, and at most one that it does not meet is there, which states its
height the way the last entry of its identifier does. -/
structure Good : Prop where
  ends : Ends (parent metas) (start metas)
  chain : ∀ e, SharesParent metas e → (OnWalk metas e.id ↔ OnLongest metas e.id)
  height : ∀ e, SharesParent metas e → ¬ OnWalk metas e.id →
    (lastEntry metas e.id).map (·.height) = some e.height
  one : ∀ e e', SharesParent metas e → SharesParent metas e' → ¬ OnWalk metas e.id →
    ¬ OnWalk metas e'.id → e.prevId = e'.prevId ∧ e.id = e'.id

end Statement

section Graph

variable {metas : List MetaTerm}

/-- What the properties have stated so far -/
structure Agree (r : Reading) (s : Stated) : Prop where
  id : r.small.id = s.id.getD 0
  prevId : r.small.prevId = s.prevId.getD 0
  height : r.small.height = s.height.getD 0
  idOk : r.idOk = s.id.isSome
  previdOk : r.previdOk = s.prevId.isSome
  heightOk : r.heightOk = s.height.isSome
  error : r.error = false

theorem prop_malformed {r : Reading} {s : Stated} {p : Property} (malformed : s.prop p = none)
    (rest : List Property) : (r.prop p).error = true ∧ (r.prop p).tip = r.tip ∧
      heightsRead r.small.id (p :: rest) = [] := by
  unfold Stated.prop at malformed
  split at malformed
  · rw [Option.map_eq_none_iff] at malformed
    simp only [Reading.prop, heightsRead, malformed, true_and]
  · rw [Option.map_eq_none_iff] at malformed
    simp only [Reading.prop, heightsRead, malformed, true_and]
  · split_ifs at malformed with positive
    simp only [Reading.prop, heightsRead, if_neg positive, true_and]
  · simp only [Reading.prop, heightsRead, true_and]
  · exact nomatch malformed

theorem Agree.prop {r : Reading} {s s' : Stated} (agree : Agree r s) {p : Property}
    (stated : s.prop p = some s') (rest : List Property) : Agree (r.prop p) s' ∧
      trackAll r.tip (heightsRead r.small.id (p :: rest)) =
        trackAll (r.prop p).tip (heightsRead (r.prop p).small.id rest) := by
  obtain ⟨id, prevId, height, idOk, previdOk, heightOk, error⟩ := agree
  unfold Stated.prop at stated
  split at stated
  · obtain ⟨new, read, rfl⟩ := Option.map_eq_some_iff.1 stated
    simp only [Reading.prop, heightsRead, read]
    exact ⟨⟨rfl, prevId, height, rfl, previdOk, heightOk, error⟩, trivial⟩
  · obtain ⟨new, read, rfl⟩ := Option.map_eq_some_iff.1 stated
    simp only [Reading.prop, heightsRead, read]
    exact ⟨⟨id, rfl, height, idOk, rfl, heightOk, error⟩, trivial⟩
  · split_ifs at stated with positive
    cases stated
    simp only [Reading.prop, heightsRead, if_pos positive]
    exact ⟨⟨id, prevId, rfl, idOk, previdOk, rfl, error⟩, rfl⟩
  · exact nomatch stated
  · cases stated
    rename_i notId notPrevid _ notHeight
    have same : Agree r s := ⟨id, prevId, height, idOk, previdOk, heightOk, error⟩
    cases p with
    | id a => exact absurd rfl (notId a)
    | previd a => exact absurd rfl (notPrevid a)
    | height a => exact absurd rfl (notHeight a)
    | version | time | diff | pow | unrecognized | notStructure =>
      simp only [Reading.prop, heightsRead]
      exact ⟨same, trivial⟩

theorem Agree.props {r : Reading} {s : Stated} (agree : Agree r s) (props : List Property) :
    (r.props props).tip = trackAll r.tip (heightsRead r.small.id props) ∧
      ((props.foldlM Stated.prop s = none ∧ (r.props props).error = true) ∨
        ∃ s', props.foldlM Stated.prop s = some s' ∧ Agree (r.props props) s') := by
  induction props generalizing r s with
  | nil => exact ⟨rfl, .inr ⟨s, rfl, agree⟩⟩
  | cons p props ih =>
    rw [List.foldlM_cons, Reading.props]
    cases stated : s.prop p with
    | none =>
      obtain ⟨error, tip, heights⟩ := prop_malformed (r := r) stated props
      rw [if_pos error, heights, tip]
      exact ⟨rfl, .inl ⟨rfl, error⟩⟩
    | some s' =>
      obtain ⟨after, tracked⟩ := agree.prop stated props
      rw [if_neg (by rw [after.error]; exact nofun), tracked]
      exact ih after

theorem Agree.small_eq {r : Reading} {id prevId : MetaId} {height : ℕ}
    (agree : Agree r ⟨some id, some prevId, some height⟩) : r.small = ⟨id, prevId, height⟩ := by
  change (⟨r.small.id, r.small.prevId, r.small.height⟩ : MetaSmall) = _
  rw [agree.id, agree.prevId, agree.height]
  rfl

theorem add_eq (g : Graph) (m : MetaTerm) : g.add m =
    { tip := trackAll g.tip (heightsOf m)
      smallMap := (entryOf m).elim g.smallMap fun e => g.smallMap.insert e.id e
      follows := (entryOf m).elim g.follows fun e =>
        g.follows.insert e.prevId (insert e.id ((g.follows.lookup e.prevId).getD ∅)) } := by
  cases m with
  | other => rfl
  | meta1 props =>
    have start : Agree ⟨⟨0, 0, 0⟩, false, false, false, false, g.tip⟩ ⟨none, none, none⟩ :=
      ⟨rfl, rfl, rfl, rfl, rfl, rfl, rfl⟩
    obtain ⟨tip, rest⟩ := start.props props
    unfold Graph.add entryOf heightsOf
    dsimp only at tip ⊢
    rcases rest with ⟨malformed, error⟩ | ⟨s, stated, agree⟩
    · rw [malformed, error, tip]
      rfl
    · rw [stated, tip, agree.error, agree.idOk, agree.previdOk, agree.heightOk]
      obtain ⟨id, prevId, height⟩ := s
      cases id with
      | none => rfl
      | some id =>
        cases prevId with
        | none => rfl
        | some prevId =>
          cases height with
          | none => rfl
          | some height =>
            rw [agree.small_eq]
            rfl

theorem entries_append (metas : List MetaTerm) (m : MetaTerm) :
    entries (metas ++ [m]) = entries metas ++ (entryOf m).toList := by
  unfold entries
  rw [List.filterMap_append]
  cases entry : entryOf m with
  | none => simp [entry]
  | some e => simp [entry]

theorem lastEntry_append (metas : List MetaTerm) (m : MetaTerm) (id : MetaId) :
    lastEntry (metas ++ [m]) id = (entryOf m).elim (lastEntry metas id) fun e =>
      if e.id = id then some e else lastEntry metas id := by
  unfold lastEntry
  rw [entries_append]
  cases entryOf m with
  | none => simp
  | some e =>
    rw [Option.toList_some, List.reverse_append, List.reverse_singleton, List.singleton_append,
      List.find?_cons]
    dsimp only [Option.elim]
    split_ifs with same
    · simp [same]
    · simp [same]

theorem graph_spec (metas : List MetaTerm) : (graph metas).tip = trackedTip metas ∧
    (∀ id, (graph metas).smallMap.lookup id = lastEntry metas id) ∧
    ∀ p id, id ∈ ((graph metas).follows.lookup p).getD ∅ ↔
      ∃ e ∈ entries metas, e.prevId = p ∧ e.id = id := by
  induction metas using List.reverseRecOn with
  | nil => exact ⟨rfl, fun _ => rfl, fun _ _ => by simp [graph, entries]⟩
  | append_singleton metas m ih =>
    obtain ⟨tip, smallMap, follows⟩ := ih
    have last : graph (metas ++ [m]) = (graph metas).add m := by
      unfold graph
      rw [List.foldl_append, List.foldl_cons, List.foldl_nil]
    rw [last, add_eq]
    refine ⟨?_, fun id => ?_, fun p id => ?_⟩
    · dsimp only
      rw [tip, trackedTip, trackedTip, List.flatMap_append, List.flatMap_singleton]
      unfold trackAll
      rw [List.foldl_append]
    · dsimp only
      rw [lastEntry_append]
      cases entryOf m with
      | none => exact smallMap id
      | some e =>
        dsimp only [Option.elim]
        rw [lookup_insert_ite, smallMap]
        simp only [eq_comm]
    · dsimp only
      rw [entries_append]
      cases entryOf m with
      | none => simpa using follows p id
      | some e =>
        dsimp only [Option.elim]
        rw [lookup_insert_ite]
        split_ifs with same
        · subst same
          rw [Option.getD_some, Finset.mem_insert, follows]
          simp only [Option.toList_some, List.mem_append, List.mem_singleton, or_and_right,
            exists_or, exists_eq_left, true_and]
          rw [or_comm, eq_comm]
        · rw [follows]
          simp only [Option.toList_some, List.mem_append, List.mem_singleton, or_and_right,
            exists_or, exists_eq_left]
          rw [or_iff_left]
          rintro ⟨rfl, _⟩
          exact same rfl

theorem lastEntry_id {id : MetaId} {last : MetaSmall} (found : lastEntry metas id = some last) :
    last.id = id := by
  unfold lastEntry at found
  simpa only [decide_eq_true_eq] using List.find?_some found

theorem exists_lastEntry {e : MetaSmall} (stated : e ∈ entries metas) :
    ∃ last, lastEntry metas e.id = some last := by
  rw [← Option.isSome_iff_exists, lastEntry, List.find?_isSome]
  exact ⟨e, List.mem_reverse.2 stated, decide_eq_true rfl⟩

end Graph

section Walk

variable {next : MetaId → MetaId} {metas : List MetaTerm}

theorem not_walked_zero (x : MetaId) : ¬ Walked next 0 x := by
  intro walked
  cases walked with
  | here some => exact some rfl
  | later some _ => exact some rfl

theorem longestChain_spec {fuel : ℕ} {id : MetaId} {chain : Finset MetaId}
    (walk : longestChain next fuel id = some chain) :
    Ends next id ∧ ∀ x, x ∈ chain ↔ Walked next id x := by
  induction fuel generalizing id chain with
  | zero => exact nomatch walk
  | succ fuel ih =>
    unfold longestChain at walk
    split_ifs at walk with zero
    · obtain rfl := Option.some.inj walk
      subst zero
      exact ⟨.zero, fun x => iff_of_false (Finset.notMem_empty x) (not_walked_zero x)⟩
    · obtain ⟨before, walked, rfl⟩ := Option.map_eq_some_iff.1 walk
      obtain ⟨ends, mem⟩ := ih walked
      refine ⟨.step ends, fun x => ?_⟩
      rw [Finset.mem_insert, mem]
      constructor
      · rintro (rfl | later)
        · exact .here zero
        · exact .later zero later
      · intro walked
        cases walked with
        | here _ => exact .inl rfl
        | later _ rest => exact .inr rest

theorem Ends.longestChain {id : MetaId} (ends : Ends next id) :
    ∃ fuel chain, longestChain next fuel id = some chain := by
  induction ends with
  | zero => exact ⟨1, ∅, rfl⟩
  | @step id _ ih =>
    obtain ⟨fuel, chain, walk⟩ := ih
    by_cases zero : id = 0
    · exact ⟨1, ∅, by rw [Branches.longestChain, if_pos zero]⟩
    · exact ⟨fuel + 1, insert id chain, by
        rw [Branches.longestChain, if_neg zero, walk, Option.map_some]⟩

/-- What the walk of the code collects -/
def chainOf (metas : List MetaTerm) (fuel : ℕ) : Option (Finset MetaId) :=
  if (graph metas).tip.ambiguous then some ∅
  else longestChain (graph metas).prev fuel (graph metas).tip.id

theorem prev_graph (metas : List MetaTerm) : (graph metas).prev = parent metas := by
  funext id
  rw [Graph.prev, (graph_spec metas).2.1, parent]

theorem chainOf_spec {fuel : ℕ} {chain : Finset MetaId} (walk : chainOf metas fuel = some chain) :
    Ends (parent metas) (start metas) ∧ ∀ x, x ∈ chain ↔ OnWalk metas x := by
  unfold chainOf at walk
  unfold OnWalk start
  rw [prev_graph, (graph_spec metas).1] at walk
  split_ifs at walk ⊢
  · obtain rfl := Option.some.inj walk
    exact ⟨.zero, fun x => iff_of_false (Finset.notMem_empty x) (not_walked_zero x)⟩
  · exact longestChain_spec walk

theorem exists_chainOf (ends : Ends (parent metas) (start metas)) :
    ∃ fuel chain, chainOf metas fuel = some chain := by
  unfold chainOf
  unfold start at ends
  rw [prev_graph, (graph_spec metas).1]
  split_ifs at ends ⊢
  · exact ⟨0, ∅, rfl⟩
  · exact ends.longestChain

end Walk

section Branchpoints

variable {metas : List MetaTerm} {lib : Library} {chain : Finset MetaId}

/-- The parents and the identifiers of the branchpoints -/
def pairs (lib : Library) (g : Graph) (chain : Finset MetaId) : List (MetaId × MetaId) :=
  (g.follows.keys.sort (· ≤ ·)).flatMap fun p =>
    let fids := (g.follows.lookup p).getD ∅
    if 1 < fids.card then ((lib.order fids).filter (· ∉ chain)).map (Prod.mk p) else []

theorem branchpoints_eq (g : Graph) : branchpoints lib g chain =
    (pairs lib g chain).map fun q => (g.smallMap.lookup q.2).getD ⟨0, 0, 0⟩ := by
  unfold branchpoints pairs
  rw [List.map_flatMap]
  refine List.flatMap_congr fun p _ => ?_
  dsimp only
  split_ifs
  · rw [List.map_map]
    rfl
  · rfl

theorem mem_pairs {q : MetaId × MetaId} : q ∈ pairs lib (graph metas) chain ↔
    q.2 ∉ chain ∧ ∃ e, SharesParent metas e ∧ e.prevId = q.1 ∧ e.id = q.2 := by
  obtain ⟨p, id⟩ := q
  have children := (graph_spec metas).2.2 p
  unfold pairs
  rw [List.mem_flatMap]
  constructor
  · rintro ⟨p', _, mem⟩
    dsimp only at mem
    split_ifs at mem with several
    · obtain ⟨fid, found, same⟩ := List.mem_map.1 mem
      obtain ⟨rfl, rfl⟩ := Prod.mk.inj same
      obtain ⟨among, off⟩ := List.mem_filter.1 found
      rw [(lib.order_spec _).2] at among
      obtain ⟨e, stated, parent, rfl⟩ := (children fid).1 among
      obtain ⟨_, among', other⟩ := (Finset.one_lt_card_iff_nontrivial.1 several).exists_ne e.id
      obtain ⟨e', stated', parent', rfl⟩ := (children _).1 among'
      exact ⟨of_decide_eq_true off, e, ⟨stated, e', stated', parent'.trans parent.symm, other⟩,
        parent, rfl⟩
    · exact absurd mem List.not_mem_nil
  · rintro ⟨off, e, ⟨stated, e', stated', same, other⟩, rfl, rfl⟩
    have mem := (children e.id).2 ⟨e, stated, rfl, rfl⟩
    have mem' := (children e'.id).2 ⟨e', stated', same, rfl⟩
    have several : 1 < (((graph metas).follows.lookup e.prevId).getD ∅).card :=
      Finset.one_lt_card.2 ⟨e.id, mem, e'.id, mem', other.symm⟩
    refine ⟨e.prevId, ?_, ?_⟩
    · rw [Finset.mem_sort, Finmap.mem_keys, ← Finmap.lookup_isSome]
      cases found : (graph metas).follows.lookup e.prevId with
      | none =>
        rw [found] at mem
        exact absurd mem (Finset.notMem_empty _)
      | some _ => rfl
    · dsimp only
      rw [if_pos several]
      refine List.mem_map_of_mem (List.mem_filter.2 ⟨?_, decide_eq_true off⟩)
      exact ((lib.order_spec _).2 _).2 mem

theorem nodup_pairs (g : Graph) : (pairs lib g chain).Nodup := by
  unfold pairs
  rw [List.nodup_flatMap]
  refine ⟨fun p _ => ?_, ?_⟩
  · dsimp only
    split_ifs
    · refine ((lib.order_spec _).1.filter _).map fun _ _ same => ?_
      exact (Prod.mk.inj same).2
    · exact List.nodup_nil
  · refine (Finset.sort_nodup _ _).pairwise_of_forall_ne fun p _ p' _ apart q mem mem' => ?_
    dsimp only [Function.onFun] at mem mem'
    split_ifs at mem mem'
    · obtain ⟨_, _, rfl⟩ := List.mem_map.1 mem
      obtain ⟨_, _, same⟩ := List.mem_map.1 mem'
      exact apart (Prod.mk.inj same).1.symm
    · exact absurd mem' List.not_mem_nil
    · exact absurd mem List.not_mem_nil
    · exact absurd mem List.not_mem_nil

theorem branches_eq (fuel : ℕ) : branches lib fuel metas = (chainOf metas fuel).map fun chain =>
    (lib.sort differ (branchpoints lib (graph metas) chain).reverse).map fun b =>
      (b.height, b.id) := by
  unfold branches chainOf
  dsimp only
  split_ifs
  · rfl
  · cases longestChain (graph metas).prev fuel (graph metas).tip.id <;> rfl

theorem mem_branchpoints (walked : ∀ x, x ∈ chain ↔ OnWalk metas x) (b : ℕ × MetaId) :
    b ∈ (branchpoints lib (graph metas) chain).map (fun b => (b.height, b.id)) ↔
      ∃ e, SharesParent metas e ∧ ¬ OnWalk metas e.id ∧
        ∃ last, lastEntry metas e.id = some last ∧ b = (last.height, e.id) := by
  rw [branchpoints_eq, List.map_map, List.mem_map]
  constructor
  · rintro ⟨q, mem, rfl⟩
    obtain ⟨off, e, shares, _, same⟩ := mem_pairs.1 mem
    obtain ⟨last, found⟩ := exists_lastEntry shares.1
    rw [walked, ← same] at off
    refine ⟨e, shares, off, last, found, ?_⟩
    rw [Function.comp_apply, (graph_spec metas).2.1, ← same, found, Option.getD_some,
      lastEntry_id found]
  · rintro ⟨e, shares, off, last, found, rfl⟩
    refine ⟨(e.prevId, e.id), mem_pairs.2 ⟨fun on => off ((walked _).1 on), e, shares, rfl, rfl⟩, ?_⟩
    rw [Function.comp_apply, (graph_spec metas).2.1, found, Option.getD_some, lastEntry_id found]

end Branchpoints

section Sorting

variable {less : MetaSmall → MetaSmall → Bool} {l : List MetaSmall}

theorem exists_sorted (weak : StrictWeak less l) :
    ∃ l' : List MetaSmall, l'.Perm l ∧ l'.Pairwise fun a b => less b a = false := by
  let le : { a // a ∈ l } → { a // a ∈ l } → Bool := fun a b => !less b a
  have trans (a b c : { a // a ∈ l }) (ab : le a b) (bc : le b c) : le a c := by
    simp only [le, Bool.not_eq_true'] at ab bc ⊢
    by_contra ca
    rw [Bool.not_eq_false] at ca
    cases first : less a b with
    | true =>
      have cb := weak.trans _ c.2 _ a.2 _ b.2 ca first
      rw [bc] at cb
      exact nomatch cb
    | false =>
      cases second : less b c with
      | true =>
        have ba := weak.trans _ b.2 _ c.2 _ a.2 second ca
        rw [ab] at ba
        exact nomatch ba
      | false =>
        have apart := (weak.incomparable _ a.2 _ b.2 _ c.2 first ab second bc).2
        rw [ca] at apart
        exact nomatch apart
  have total (a b : { a // a ∈ l }) : le a b || le b a := by
    simp only [le, ← Bool.not_and, Bool.not_eq_true', Bool.and_eq_false_iff]
    by_contra both
    simp only [not_or, Bool.not_eq_false] at both
    have less := weak.trans _ a.2 _ b.2 _ a.2 both.2 both.1
    rw [weak.irrefl _ a.2] at less
    exact nomatch less
  refine ⟨(l.attach.mergeSort le).map Subtype.val, ?_, ?_⟩
  · have perm := (List.mergeSort_perm l.attach le).map Subtype.val
    rwa [List.attach_map_subtype_val] at perm
  · rw [List.pairwise_map]
    refine (List.pairwise_mergeSort trans total l.attach).imp fun {a b} ordered => ?_
    simpa only [le, Bool.not_eq_true'] using ordered

open Classical in
theorem exists_library (misused : List MetaSmall → List MetaSmall) : ∃ lib : Library,
    lib.order = Finset.toList ∧
      ∀ l, ¬ StrictWeak differ l → lib.sort differ l = misused l := by
  refine ⟨{
    order := Finset.toList
    sort := fun less l => if weak : StrictWeak less l then (exists_sorted weak).choose else misused l
    order_spec := fun s => ⟨s.nodup_toList, fun _ => Finset.mem_toList⟩
    sort_spec := fun less l weak => ?_ }, rfl, fun l misuse => dif_neg misuse⟩
  rw [dif_pos weak]
  exact (exists_sorted weak).choose_spec

theorem differ_eq_false_iff {a b : MetaSmall} :
    differ a b = false ↔ a.height = b.height ∧ a.id = b.id := by
  simp [differ]

theorem strictWeak_differ_iff : StrictWeak differ l ↔
    ∀ a ∈ l, ∀ b ∈ l, a.height = b.height ∧ a.id = b.id := by
  constructor
  · intro weak a memA b memB
    rw [← differ_eq_false_iff]
    by_contra apart
    rw [Bool.not_eq_false] at apart
    have back : differ b a = true := by
      rw [← Bool.not_eq_false, differ_eq_false_iff] at apart ⊢
      exact fun same => apart ⟨same.1.symm, same.2.symm⟩
    have less := weak.trans _ memA _ memB _ memA apart back
    rw [weak.irrefl _ memA] at less
    exact nomatch less
  · intro same
    have equal (a : MetaSmall) (memA : a ∈ l) (b : MetaSmall) (memB : b ∈ l) :
        differ a b = false := differ_eq_false_iff.2 (same a memA b memB)
    refine ⟨fun a memA => equal a memA a memA, fun a memA b memB c memC ab => ?_,
      fun a memA b memB c memC _ _ _ _ => ⟨equal a memA c memC, equal c memC a memA⟩⟩
    rw [equal a memA b memB] at ab
    exact nomatch ab

end Sorting

section Main

variable {metas : List MetaTerm}

theorem sort_short {lib : Library} {l : List MetaSmall} (short : l.length ≤ 1) :
    lib.sort differ l = l := by
  have weak : StrictWeak differ l := by
    match l, short with
    | [], _ => exact strictWeak_differ_iff.2 fun a mem => nomatch mem
    | [b], _ =>
      refine strictWeak_differ_iff.2 fun a memA a' memA' => ?_
      rw [List.mem_singleton.1 memA, List.mem_singleton.1 memA']
      exact ⟨rfl, rfl⟩
  have perm := (lib.sort_spec differ l weak).1
  match l, short with
  | [], _ => exact perm.eq_nil
  | [b], _ => exact List.perm_singleton.1 perm

theorem eq_of_length_le_one {α : Type} {l : List α} (short : l.length ≤ 1) {a b : α}
    (memA : a ∈ l) (memB : b ∈ l) : a = b := by
  match l, short with
  | [c], _ => rw [List.mem_singleton.1 memA, List.mem_singleton.1 memB]

theorem length_branchpoints {lib : Library} {g : Graph} {chain : Finset MetaId} :
    (branchpoints lib g chain).length = (pairs lib g chain).length := by
  rw [branchpoints_eq, List.length_map]

theorem Correct.short (correct : Correct metas) : ∃ (lib : Library) (fuel : ℕ) (chain : Finset MetaId),
    chainOf metas fuel = some chain ∧ (branchpoints lib (graph metas) chain).length ≤ 1 ∧
      IsBranches metas ((branchpoints lib (graph metas) chain).map fun b => (b.height, b.id)) := by
  obtain ⟨lib, order, misused⟩ := exists_library fun _ => []
  obtain ⟨lib', order', misused'⟩ := exists_library id
  obtain ⟨fuel, out, runs, isBranches⟩ := correct lib
  obtain ⟨fuel', out', runs', isBranches'⟩ := correct lib'
  rw [branches_eq] at runs runs'
  obtain ⟨chain, walk, rfl⟩ := Option.map_eq_some_iff.1 runs
  obtain ⟨chain', walk', rfl⟩ := Option.map_eq_some_iff.1 runs'
  have same : branchpoints lib' (graph metas) chain' = branchpoints lib (graph metas) chain := by
    have chains : chain' = chain := by
      ext x
      rw [(chainOf_spec walk).2, (chainOf_spec walk').2]
    unfold branchpoints
    rw [chains, order, order']
  rw [same] at isBranches'
  refine ⟨lib, fuel, chain, walk, ?_⟩
  generalize branchpoints lib (graph metas) chain = found at isBranches isBranches'
  by_cases weak : StrictWeak differ found.reverse
  · have perm := (lib.sort_spec differ _ weak).1
    have length : found.length ≤ 1 := by
      rw [← List.length_reverse, ← perm.length_eq]
      match sorted : lib.sort differ found.reverse with
      | [] => exact Nat.zero_le 1
      | [_] => exact Nat.le_refl 1
      | a :: b :: rest =>
        have equal := strictWeak_differ_iff.1 weak a
          (perm.subset (by rw [sorted]; exact List.mem_cons_self)) b
          (perm.subset (by rw [sorted]; exact List.mem_cons_of_mem _ List.mem_cons_self))
        have strict := isBranches.1
        rw [sorted, List.map_cons, List.map_cons, List.pairwise_cons] at strict
        rcases strict.1 _ List.mem_cons_self with lower | ⟨_, lower⟩
        · exact absurd equal.1 lower.ne
        · exact absurd equal.2 lower.ne
    rw [sort_short (by rwa [List.length_reverse])] at isBranches
    have reverse : found.reverse = found := by
      match found, length with
      | [], _ => rfl
      | [_], _ => rfl
    rw [reverse] at isBranches
    exact ⟨length, isBranches⟩
  · -- The two libraries leave nothing and everything, and one list cannot be both.
    rw [misused _ weak] at isBranches
    rw [misused' _ weak] at isBranches'
    have none : found = [] := by
      refine List.eq_nil_iff_forall_not_mem.2 fun b mem => ?_
      have inOut := (isBranches'.2 (b.height, b.id)).1
        (List.mem_map_of_mem (List.mem_reverse.2 mem))
      exact absurd ((isBranches.2 _).2 inOut) List.not_mem_nil
    rw [none] at weak
    exact absurd (strictWeak_differ_iff.2 fun a mem => absurd mem List.not_mem_nil) weak

theorem Correct.good (correct : Correct metas) : Good metas := by
  obtain ⟨lib, fuel, chain, walk, short, _, isBranches⟩ := correct.short
  obtain ⟨ends, walked⟩ := chainOf_spec walk
  rw [length_branchpoints] at short
  have one (e e' : MetaSmall) (shares : SharesParent metas e) (shares' : SharesParent metas e')
      (off : ¬ OnWalk metas e.id) (off' : ¬ OnWalk metas e'.id) :
      e.prevId = e'.prevId ∧ e.id = e'.id := by
    have mem : (e.prevId, e.id) ∈ pairs lib (graph metas) chain :=
      mem_pairs.2 ⟨fun on => off ((walked _).1 on), e, shares, rfl, rfl⟩
    have mem' : (e'.prevId, e'.id) ∈ pairs lib (graph metas) chain :=
      mem_pairs.2 ⟨fun on => off' ((walked _).1 on), e', shares', rfl, rfl⟩
    exact Prod.mk.inj (eq_of_length_le_one short mem mem')
  have longest (e : MetaSmall) (shares : SharesParent metas e) (off : ¬ OnWalk metas e.id) :
      ¬ OnLongest metas e.id := by
    obtain ⟨last, found⟩ := exists_lastEntry shares.1
    obtain ⟨e', _, off', same⟩ := (isBranches _).1
      ((mem_branchpoints walked _).2 ⟨e, shares, off, last, found, rfl⟩)
    rw [(Prod.mk.inj same).2]
    exact off'
  have listed (e : MetaSmall) (shares : SharesParent metas e) (off : ¬ OnLongest metas e.id) :
      ¬ OnWalk metas e.id ∧ (lastEntry metas e.id).map (·.height) = some e.height := by
    obtain ⟨e', _, off', last, found, same⟩ :=
      (mem_branchpoints walked _).1 ((isBranches _).2 ⟨e, shares, off, rfl⟩)
    obtain ⟨height, id⟩ := Prod.mk.inj same
    rw [id, height, found]
    exact ⟨off', rfl⟩
  refine ⟨ends, fun e shares => ?_, fun e shares off => (listed e shares (longest e shares off)).2, one⟩
  by_contra differs
  by_cases on : OnWalk metas e.id
  · exact differs ⟨fun _ => by_contra fun off => (listed e shares off).1 on, fun _ => on⟩
  · exact differs (iff_of_false on (longest e shares on))

theorem Good.correct (good : Good metas) : Correct metas := by
  intro lib
  obtain ⟨fuel, chain, walk⟩ := exists_chainOf good.ends
  have walked := (chainOf_spec walk).2
  have short : (branchpoints lib (graph metas) chain).length ≤ 1 := by
    rw [length_branchpoints]
    match found : pairs lib (graph metas) chain with
    | [] => exact Nat.zero_le 1
    | [_] => exact Nat.le_refl 1
    | q :: q' :: rest =>
      -- Two pairs differ, since each is there once.
      have apart : (pairs lib (graph metas) chain).Nodup := nodup_pairs _
      have mem : q ∈ pairs lib (graph metas) chain ↔ _ := mem_pairs
      have mem' : q' ∈ pairs lib (graph metas) chain ↔ _ := mem_pairs
      rw [found] at apart mem mem'
      obtain ⟨off, e, shares, prevId, id⟩ := mem.1 List.mem_cons_self
      obtain ⟨off', e', shares', prevId', id'⟩ :=
        mem'.1 (List.mem_cons_of_mem _ List.mem_cons_self)
      rw [walked] at off off'
      obtain ⟨sameParent, same⟩ := good.one e e' shares shares' (by rwa [id]) (by rwa [id'])
      have equal : q = q' := Prod.ext (by rw [← prevId, ← prevId', sameParent])
        (by rw [← id, ← id', same])
      exact absurd (equal ▸ List.mem_cons_self) (List.nodup_cons.1 apart).1
  refine ⟨fuel, (branchpoints lib (graph metas) chain).map fun b => (b.height, b.id), ?_, ?_, ?_⟩
  · rw [branches_eq, walk, Option.map_some, sort_short (by rwa [List.length_reverse])]
    match branchpoints lib (graph metas) chain, short with
    | [], _ => rfl
    | [_], _ => rfl
  · match branchpoints lib (graph metas) chain, short with
    | [], _ => exact .nil
    | [_], _ => exact List.pairwise_singleton _ _
  · intro b
    rw [mem_branchpoints walked]
    constructor
    · rintro ⟨e, shares, off, last, found, rfl⟩
      refine ⟨e, shares, fun on => off ((good.chain e shares).2 on), ?_⟩
      have height := good.height e shares off
      rw [found, Option.map_some, Option.some.injEq] at height
      rw [height]
    · rintro ⟨e, shares, off, rfl⟩
      have offWalk : ¬ OnWalk metas e.id := fun on => off ((good.chain e shares).1 on)
      have height := good.height e shares offWalk
      obtain ⟨last, found⟩ := exists_lastEntry shares.1
      rw [found, Option.map_some, Option.some.injEq] at height
      exact ⟨e, shares, offWalk, last, found, by rw [height]⟩

/-- The side branches are found exactly when the condition holds. -/
theorem branches_correct_iff (metas : List MetaTerm) : Correct metas ↔ Good metas :=
  ⟨Correct.good, Good.correct⟩

theorem not_ends_of_fixed {next : MetaId → MetaId} {id id' : MetaId} (fixed : next id = id)
    (positive : id ≠ 0) (ends : Ends next id') : id' ≠ id := by
  induction ends with
  | zero => exact positive.symm
  | @step id' _ ih =>
    rintro rfl
    exact ih fixed

/-- An entry that names itself as its parent: the walk never ends. -/
theorem circle_not_correct :
    ¬ Correct [.meta1 [.id (.big 256 1), .previd (.big 256 1), .height (.int 1)]] := by
  intro correct
  exact not_ends_of_fixed rfl (by decide) correct.good.ends rfl

end Main

end Epilog.Node.Branches
