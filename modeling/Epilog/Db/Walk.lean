/- Module: Epilog/Db/Walk
   source: src/src/db/triedb.cpp (leftmost, rightmost, next, previous)
   digest: One walk through the leaves of a trie for both directions of the iterator. -/

import Epilog.Db.Iterator

set_option autoImplicit false

namespace Epilog.Db.Walk

open Epilog.Lib.DigitTree Epilog.Common.Bits Epilog.Db.Branch Epilog.Db.Store
open Epilog.Db.Representation Epilog.Db.PathUpdate Epilog.Db.Iterator

/-- A direction: the positions of a branch beyond one of them, the nearest position of a set, and
the order in which this visits them all. -/
structure Side where
  beyond : Fin 32 → BitVec 32
  nearest : BitVec 32 → Fin 32
  order : List (Fin 32)
  nearest_first : ∀ m : BitVec 32, m ≠ 0 → order.filter (fun k => m.getLsbD k.val) =
    nearest m :: order.filter fun k => (m &&& beyond (nearest m)).getLsbD k.val
  beyond_nested : ∀ i j : Fin 32, (beyond i).getLsbD j.val = true →
    beyond i &&& beyond j = beyond j

/-- The highest set bit as a position. -/
def highestIndex (m : BitVec 32) : Fin 32 := Fin.ofNat 32 (msb32 m)

theorem highestIndex_highest {m : BitVec 32} (nonzero : m ≠ 0) :
    m.getLsbD (highestIndex m).val = true ∧
      ∀ j : Fin 32, highestIndex m < j → m.getLsbD j.val = false := by
  have high := msb32_highest nonzero
  have inside : msb32 m < 32 := by
    unfold msb32
    omega
  have val : (highestIndex m).val = msb32 m := Nat.mod_eq_of_lt inside
  refine ⟨val ▸ high.1, fun j less => high.2 j.val ?_⟩
  rw [← val]
  exact less

private theorem filter_split (m : BitVec 32) {j : Fin 32} (set : m.getLsbD j.val = true) :
    (List.finRange 32).filter (fun k => m.getLsbD k.val) =
      (List.finRange 32).filter (fun k => (m &&& belowMask j.val).getLsbD k.val) ++
        j :: (List.finRange 32).filter (fun k => (m &&& aboveMask j.val).getLsbD k.val) := by
  conv_lhs => rw [finRange_split j]
  rw [List.filter_append, List.filter_cons, if_pos set, List.filter_filter, List.filter_filter]
  congr 1
  · apply List.filter_congr
    intro k _
    rw [BitVec.getLsbD_and, getLsbD_belowMask j.isLt]
    rfl
  · congr 1
    apply List.filter_congr
    intro k _
    rw [BitVec.getLsbD_and, getLsbD_aboveMask k.isLt]
    rfl

private theorem filter_eq_nil {m : BitVec 32} (unset : ∀ k : Fin 32, m.getLsbD k.val = false) :
    (List.finRange 32).filter (fun k => m.getLsbD k.val) = [] := by
  apply List.filter_eq_nil_iff.mpr
  intro k _
  rw [unset k]
  exact Bool.false_ne_true

def rightward : Side where
  beyond i := aboveMask i.val
  nearest := lowestIndex
  order := List.finRange 32
  nearest_first m nonzero := by
    obtain ⟨set, lower⟩ := lowestIndex_lowest nonzero
    conv_lhs => rw [filter_split m set]
    rw [filter_eq_nil, List.nil_append]
    intro k
    rw [BitVec.getLsbD_and, getLsbD_belowMask (lowestIndex m).isLt]
    by_cases less : k < lowestIndex m
    · rw [lower k less, Bool.false_and]
    · rw [decide_eq_false (fun less' => less (Fin.lt_def.mpr less')), Bool.and_false]
  beyond_nested i j above := by
    rw [getLsbD_aboveMask j.isLt, decide_eq_true_eq] at above
    apply BitVec.eq_of_getLsbD_eq
    intro k inside
    rw [BitVec.getLsbD_and, getLsbD_aboveMask inside, getLsbD_aboveMask inside]
    by_cases less : j.val < k
    · simp [less, above.trans less]
    · simp [less]

def leftward : Side where
  beyond i := belowMask i.val
  nearest := highestIndex
  order := (List.finRange 32).reverse
  nearest_first m nonzero := by
    obtain ⟨set, higher⟩ := highestIndex_highest nonzero
    rw [List.filter_reverse, List.filter_reverse]
    conv_lhs => rw [filter_split m set]
    have above : (List.finRange 32).filter
        (fun k => (m &&& aboveMask (highestIndex m).val).getLsbD k.val) = [] := by
      apply filter_eq_nil
      intro k
      rw [BitVec.getLsbD_and, getLsbD_aboveMask k.isLt]
      by_cases less : highestIndex m < k
      · rw [higher k less, Bool.false_and]
      · rw [decide_eq_false (fun less' => less (Fin.lt_def.mpr less')), Bool.and_false]
    rw [above, List.reverse_append]
    rfl
  beyond_nested i j below := by
    rw [getLsbD_belowMask i.isLt, decide_eq_true_eq] at below
    apply BitVec.eq_of_getLsbD_eq
    intro k inside
    rw [BitVec.getLsbD_and, getLsbD_belowMask i.isLt, getLsbD_belowMask j.isLt]
    by_cases less : k < j.val
    · simp [less, less.trans below]
    · simp [less]

mutual

/-- `next` and the loop of `previous` -/
def advance (side : Side) (s : Triedb) : ℕ → Spine → Option Spine
  | 0, _ => none
  | _ + 1, [] => some []
  | fuel + 1, cur :: rest => do
      let parent ← branchAt s cur.parentPtr
      let mask := parent.mask &&& side.beyond cur.subIndex
      if mask = 0 then advance side s fuel rest
      else extreme side s fuel ({ cur with subIndex := side.nearest mask } :: rest)

/-- `leftmost` and `rightmost` -/
def extreme (side : Side) (s : Triedb) : ℕ → Spine → Option Spine
  | 0, _ => none
  | fuel + 1, spine => do
      match ← popChildless s spine with
      | [] => some []
      | spine => dive side s fuel spine

/-- Their loop down to a leaf -/
def dive (side : Side) (s : Triedb) : ℕ → Spine → Option Spine
  | 0, _ => none
  | _ + 1, [] => some []
  | fuel + 1, cur :: rest => do
      let parent ← branchAt s cur.parentPtr
      if parent.isBranch cur.subIndex then
        let parentPtr := parent.getChildPointer cur.subIndex
        let child ← branchAt s parentPtr
        if child.mask = 0 then advance side s fuel (cur :: rest)
        else
          dive side s fuel
            ({ parentPtr := parentPtr, subIndex := side.nearest child.mask } :: cur :: rest)
      else some (cur :: rest)

end

theorem next_eq (s : Triedb) (fuel : ℕ) :
    (∀ spine, next s fuel spine = advance rightward s fuel spine) ∧
      (∀ spine, leftmost s fuel spine = extreme rightward s fuel spine) ∧
      ∀ spine, descend s fuel spine = dive rightward s fuel spine := by
  induction fuel with
  | zero => exact ⟨fun _ => rfl, fun _ => rfl, fun _ => rfl⟩
  | succ fuel ih =>
    obtain ⟨next_eq, leftmost_eq, descend_eq⟩ := ih
    refine ⟨fun spine => ?_, fun spine => ?_, fun spine => ?_⟩
    · cases spine with
      | nil => rfl
      | cons cur rest =>
        simp only [next, advance, next_eq, leftmost_eq]
        rfl
    · rw [leftmost, extreme]
      refine bind_congr fun spine => ?_
      cases spine with
      | nil => rfl
      | cons cur rest => exact descend_eq _
    · cases spine with
      | nil => rfl
      | cons cur rest =>
        simp only [descend, dive, next_eq, descend_eq]
        rfl

def rightmost (s : Triedb) : ℕ → Spine → Option Spine := extreme leftward s

/-- `previous`: at the end it starts from the root again. -/
def previous (s : Triedb) (atRoot : RootId) (fuel : ℕ) : Spine → Option Spine
  | [] =>
      if s.isEmpty then some []
      else do
        let root ← s.roots.lookup atRoot
        let parent ← branchAt s root.ptr
        if parent.mask = 0 then some []
        else rightmost s fuel [{ parentPtr := root.ptr, subIndex := highestIndex parent.mask }]
  | spine => advance leftward s fuel spine

/-- `begin(at_root)` -/
def beginFirst (s : Triedb) (fuel : ℕ) (atRoot : RootId) : Option Spine :=
  if s.isEmpty then some []
  else do
    let root ← s.roots.lookup atRoot
    let parent ← branchAt s root.ptr
    if parent.mask ≠ 0 then
      leftmost s fuel [{ parentPtr := root.ptr, subIndex := lowestIndex parent.mask }]
    else some []

/-- The step ends with this spine when it has enough fuel. -/
def Ends (step : ℕ → Option Spine) (spine : Spine) : Prop := ∃ n, ∀ fuel ≥ n, step fuel = some spine

theorem Ends.succ {step step' : ℕ → Option Spine} {spine : Spine} (ends : Ends step spine)
    (call : ∀ fuel, step' (fuel + 1) = step fuel) : Ends step' spine := by
  obtain ⟨n, enough⟩ := ends
  refine ⟨n + 1, fun fuel large => ?_⟩
  obtain ⟨k, rfl⟩ := Nat.exists_eq_add_of_le' (show 1 ≤ fuel by omega)
  rw [call]
  exact enough k (by omega)

section Order

variable (side : Side) (s : Triedb)

/-- The positions of a mask in the order of the walk -/
def Side.occupied (m : BitVec 32) : List (Fin 32) := side.order.filter fun k => m.getLsbD k.val

/-- The spines of the leaves below a stored branch of depth `d`, in the order of the walk. -/
def walk : ℕ → ℕ → Spine → List Spine
  | 0, _, _ => []
  | d + 1, p, rest =>
      match branchAt s p with
      | none => []
      | some b => (side.occupied b.mask).flatMap fun i =>
          if b.isBranch i then walk d (b.getChildPointer i) (⟨p, i⟩ :: rest) else [⟨p, i⟩ :: rest]

/-- Those at one position of a branch -/
def walkSlot (d : ℕ) (b : TriedbBranch) (p : ℕ) (rest : Spine) (i : Fin 32) : List Spine :=
  if b.isBranch i then walk side s d (b.getChildPointer i) (⟨p, i⟩ :: rest) else [⟨p, i⟩ :: rest]

/-- The spines that come after one, over all its cursors. -/
def afterSpine : Spine → List Spine
  | [] => []
  | cur :: rest =>
      (match branchAt s cur.parentPtr with
      | none => []
      | some b => (side.occupied (b.mask &&& side.beyond cur.subIndex)).flatMap
          (walkSlot side s (b.depth - 1) b cur.parentPtr rest)) ++ afterSpine rest

/-- All cursors stand on branches of tries. -/
def Grounded (spine : Spine) : Prop :=
  ∀ cur ∈ spine, ∃ d b c, s.nodes cur.parentPtr = some (.branch b) ∧ Represents s d b c

variable {side s}

theorem occupied_zero : side.occupied 0 = [] := by
  apply List.filter_eq_nil_iff.mpr
  intro k _
  simp

theorem occupied_cons {mask : BitVec 32} (nonzero : mask ≠ 0) :
    side.occupied mask =
      side.nearest mask :: side.occupied (mask &&& side.beyond (side.nearest mask)) :=
  side.nearest_first mask nonzero

theorem nearest_mem (side : Side) {mask : BitVec 32} (nonzero : mask ≠ 0) :
    mask.getLsbD (side.nearest mask).val = true := by
  have member : side.nearest mask ∈ side.occupied mask := by
    rw [occupied_cons nonzero]
    exact List.mem_cons_self
  simpa using (List.mem_filter.mp member).2

theorem occupied_beyond {mask : BitVec 32} {i : Fin 32} (more : mask &&& side.beyond i ≠ 0) :
    side.occupied (mask &&& side.beyond i) = side.nearest (mask &&& side.beyond i) ::
      side.occupied (mask &&& side.beyond (side.nearest (mask &&& side.beyond i))) := by
  have set := nearest_mem side more
  rw [BitVec.getLsbD_and, Bool.and_eq_true] at set
  conv_lhs => rw [occupied_cons more, BitVec.and_assoc, side.beyond_nested _ _ set.2]

theorem walk_succ {d p : ℕ} {b : TriedbBranch} (stored : s.nodes p = some (.branch b))
    (rest : Spine) : walk side s (d + 1) p rest =
      (side.occupied b.mask).flatMap (walkSlot side s d b p rest) := by
  rw [walk, branchAt_eq stored]
  rfl

theorem afterSpine_cons {d p : ℕ} {b : TriedbBranch} {c : Children} {rest : Spine} {i : Fin 32}
    (stored : s.nodes p = some (.branch b)) (rep : Represents s (d + 1) b c) :
    afterSpine side s (⟨p, i⟩ :: rest) =
      (side.occupied (b.mask &&& side.beyond i)).flatMap (walkSlot side s d b p rest) ++
        afterSpine side s rest := by
  rw [afterSpine, branchAt_eq stored]
  dsimp only
  rw [rep.depth_eq, Nat.add_sub_cancel]

end Order

section Steps

variable {side : Side} {s : Triedb}

/-- Going down from a position first finds the leaves there. -/
def Dives (side : Side) (s : Triedb) (d : ℕ) : Prop :=
  ∀ b p c i rest l, s.nodes p = some (.branch b) → Represents s (d + 1) b c →
    b.mask.getLsbD i.val = true → Ends (fun fuel => advance side s fuel (⟨p, i⟩ :: rest)) (l.headD []) →
    Ends (fun fuel => dive side s fuel (⟨p, i⟩ :: rest))
      ((walkSlot side s d b p rest i ++ l).headD [])

theorem advance_branch {d p : ℕ} {b : TriedbBranch} {c : Children} {rest : Spine} {l : List Spine}
    (stored : s.nodes p = some (.branch b)) (rep : Represents s (d + 1) b c)
    (up : Ends (fun fuel => advance side s fuel rest) (l.headD [])) (dives : Dives side s d)
    (i : Fin 32) : Ends (fun fuel => advance side s fuel (⟨p, i⟩ :: rest))
      (((side.occupied (b.mask &&& side.beyond i)).flatMap (walkSlot side s d b p rest) ++ l).headD
        []) := by
  induction left : side.occupied (b.mask &&& side.beyond i) generalizing i with
  | nil =>
    have last : b.mask &&& side.beyond i = 0 := by
      by_contra more
      rw [occupied_cons more] at left
      cases left
    refine up.succ fun fuel => ?_
    simp only [advance, branchAt_eq stored, Option.bind_eq_bind, Option.bind_some, last, if_true]
  | cons j later ih =>
    have more : b.mask &&& side.beyond i ≠ 0 := by
      intro zero
      rw [zero, occupied_zero] at left
      cases left
    have nonzero : b.mask ≠ 0 := by
      intro zero
      rw [zero] at more
      exact more BitVec.zero_and
    have set := nearest_mem side more
    rw [occupied_beyond more, List.cons.injEq] at left
    obtain ⟨nearest, later_eq⟩ := left
    rw [nearest] at later_eq set
    rw [BitVec.getLsbD_and, Bool.and_eq_true] at set
    have first := dives b p c j rest _ stored rep set.1 (ih j later_eq)
    rw [List.flatMap_cons, List.append_assoc]
    have started : Ends (fun fuel => extreme side s fuel (⟨p, j⟩ :: rest)) _ := first.succ fun fuel => by
      simp only [extreme, popChildless, branchAt_eq stored, Option.bind_eq_bind, Option.bind_some,
        if_neg nonzero]
    refine started.succ fun fuel => ?_
    simp only [advance, branchAt_eq stored, Option.bind_eq_bind, Option.bind_some, if_neg more,
      nearest]

theorem dives (side : Side) (s : Triedb) (d : ℕ) : Dives side s d := by
  induction d with
  | zero =>
    intro b p c i rest l stored rep set _
    have off : b.isBranch i = false := by
      have slot := rep.2.2 i
      cases here : b.slot i with
      | empty =>
        rw [isBranch_eq, (slot_eq_empty_iff b i).mp here]
        rfl
      | leaf q =>
        obtain ⟨occupied, bit, -⟩ := of_slot_leaf here
        rw [isBranch_eq, occupied, bit]
        rfl
      | branch q =>
        rw [here] at slot
        obtain ⟨_, _, -, -, below⟩ := slot
        exact below.elim
    refine ⟨1, fun fuel large => ?_⟩
    obtain ⟨fuel, rfl⟩ := Nat.exists_eq_add_of_le' large
    simp only [dive, branchAt_eq stored, Option.bind_eq_bind, Option.bind_some, off, walkSlot,
      Bool.false_eq_true, if_false, List.singleton_append, List.headD_cons]
  | succ d ih =>
    intro b p c i rest l stored rep set skip
    have slot := rep.2.2 i
    cases here : b.slot i with
    | empty =>
      rw [(slot_eq_empty_iff b i).mp here] at set
      cases set
    | leaf q =>
      obtain ⟨occupied, bit, -⟩ := of_slot_leaf here
      have off : b.isBranch i = false := by
        rw [isBranch_eq, occupied, bit]
        rfl
      refine ⟨1, fun fuel large => ?_⟩
      obtain ⟨fuel, rfl⟩ := Nat.exists_eq_add_of_le' large
      simp only [dive, branchAt_eq stored, Option.bind_eq_bind, Option.bind_some, off, walkSlot,
        Bool.false_eq_true, if_false, List.singleton_append, List.headD_cons]
    | branch q =>
      obtain ⟨occupied, bit, pointer⟩ := of_slot_branch here
      have on : b.isBranch i = true := by
        rw [isBranch_eq, occupied, bit]
        rfl
      rw [here] at slot
      obtain ⟨b', c', stored', -, rep'⟩ := slot
      have call : ∀ fuel, dive side s (fuel + 1) (⟨p, i⟩ :: rest) =
          if b'.mask = 0 then advance side s fuel (⟨p, i⟩ :: rest)
          else dive side s fuel (⟨q, side.nearest b'.mask⟩ :: ⟨p, i⟩ :: rest) := by
        intro fuel
        simp only [dive, branchAt_eq stored, branchAt_eq stored', Option.bind_eq_bind,
          Option.bind_some, on, if_true, pointer]
      rw [walkSlot, if_pos on, pointer, walk_succ stored']
      by_cases zero : b'.mask = 0
      · rw [zero, occupied_zero]
        exact skip.succ fun fuel => (call fuel).trans (if_pos zero)
      · rw [occupied_cons zero, List.flatMap_cons, List.append_assoc]
        have deeper := ih b' q c' (side.nearest b'.mask) (⟨p, i⟩ :: rest) _ stored' rep'
          (nearest_mem _ zero) (advance_branch stored' rep' skip ih _)
        exact deeper.succ fun fuel => (call fuel).trans (if_neg zero)

theorem advance_ends {spine : Spine} (grounded : Grounded s spine) :
    Ends (fun fuel => advance side s fuel spine) ((afterSpine side s spine).headD []) := by
  induction spine with
  | nil =>
    refine ⟨1, fun fuel large => ?_⟩
    obtain ⟨fuel, rfl⟩ := Nat.exists_eq_add_of_le' large
    rfl
  | cons cur rest ih =>
    obtain ⟨d, b, c, stored, rep⟩ := grounded cur (by simp)
    obtain ⟨e, rfl⟩ := Nat.exists_eq_add_of_le' rep.pos
    have up := ih fun cur' member => grounded cur' (by simp [member])
    rw [afterSpine_cons stored rep]
    exact advance_branch stored rep up (dives side s e) cur.subIndex

theorem extreme_ends (side : Side) {d p : ℕ} {b : TriedbBranch} {c : Children}
    (stored : s.nodes p = some (.branch b)) (rep : Represents s d b c) (nonzero : b.mask ≠ 0) :
    Ends (fun fuel => extreme side s fuel [⟨p, side.nearest b.mask⟩])
      ((walk side s d p []).headD []) := by
  obtain ⟨e, rfl⟩ := Nat.exists_eq_add_of_le' rep.pos
  have up : Ends (fun fuel => advance side s fuel []) (([] : List Spine).headD []) :=
    advance_ends (fun _ member => by cases member)
  have first := dives side s e b p c (side.nearest b.mask) [] _ stored rep (nearest_mem _ nonzero)
    (advance_branch stored rep up (dives side s e) _)
  rw [walk_succ stored, occupied_cons nonzero, List.flatMap_cons]
  rw [List.append_nil] at first
  refine first.succ fun fuel => ?_
  simp only [extreme, popChildless, branchAt_eq stored, Option.bind_eq_bind, Option.bind_some,
    if_neg nonzero]

end Steps

end Epilog.Db.Walk
