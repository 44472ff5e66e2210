/- Module: Epilog/Db/Traversal
   source: src/src/db/triedb.hpp, src/src/db/triedb.cpp (triedb_iterator)
   digest: Where iterators can stand, and iteration in both directions over a reachable trie. -/

import Epilog.Db.Replication
import Epilog.Db.Walk

set_option autoImplicit false

namespace Epilog.Db.Traversal

open Epilog.Lib.DigitTree Epilog.Common.Bits Epilog.Db.Branch Epilog.Db.Store
open Epilog.Db.Representation Epilog.Db.PathUpdate Epilog.Db.Iterator Epilog.Db.Versioned
open Epilog.Db.Merkle Epilog.Db.Upkeep Epilog.Db.Canonicity Epilog.Db.Replication Epilog.Db.Walk

section Standing

variable (s : Triedb) (top : ℕ)

/-- The cursors lead from the branch at `top` down to the branch at this pointer. -/
inductive Leads : Spine → ℕ → Prop
  | top : Leads [] top
  | child {rest : Spine} {p : ℕ} {b : TriedbBranch} {i : Fin 32} (above : Leads rest p)
      (stored : s.nodes p = some (.branch b)) (isBranch : b.isBranch i = true) :
      Leads (⟨p, i⟩ :: rest) (b.getChildPointer i)

/-- The last cursor is on a leaf. -/
inductive Stands : Spine → Prop
  | leaf {rest : Spine} {p : ℕ} {b : TriedbBranch} {i : Fin 32} (above : Leads s top rest p)
      (stored : s.nodes p = some (.branch b)) (used : b.mask.getLsbD i.val = true)
      (isLeaf : b.isBranch i = false) : Stands (⟨p, i⟩ :: rest)

/-- On a leaf or at the end -/
def Halts (spine : Spine) : Prop := spine = [] ∨ Stands s top spine

variable {s top} {side : Side}

theorem branchAt_eq_some {p : ℕ} {b : TriedbBranch} :
    branchAt s p = some b ↔ s.nodes p = some (.branch b) := by
  constructor
  · intro found
    unfold branchAt at found
    split at found
    · rename_i stored
      cases found
      exact stored
    · cases found
  · exact branchAt_eq

theorem nearest_used (side : Side) {m : BitVec 32} {i : Fin 32} (more : m &&& side.beyond i ≠ 0) :
    m.getLsbD (side.nearest (m &&& side.beyond i)).val = true := by
  have set := nearest_mem side more
  rw [BitVec.getLsbD_and, Bool.and_eq_true] at set
  exact set.1

theorem walk_halts (fuel : ℕ) :
    (∀ p i rest y, Leads s top rest p → advance side s fuel (⟨p, i⟩ :: rest) = some y →
      Halts s top y) ∧
    (∀ p i rest y b, Leads s top rest p → s.nodes p = some (.branch b) →
      b.mask.getLsbD i.val = true → extreme side s fuel (⟨p, i⟩ :: rest) = some y →
      Halts s top y) ∧
    ∀ p i rest y b, Leads s top rest p → s.nodes p = some (.branch b) →
      b.mask.getLsbD i.val = true → dive side s fuel (⟨p, i⟩ :: rest) = some y →
      Halts s top y := by
  induction fuel with
  | zero =>
    refine ⟨?_, ?_, ?_⟩
    · intro _ _ _ _ _ impossible
      cases impossible
    · intro _ _ _ _ _ _ _ _ impossible
      cases impossible
    · intro _ _ _ _ _ _ _ _ impossible
      cases impossible
  | succ fuel ih =>
    obtain ⟨advance_halts, extreme_halts, dive_halts⟩ := ih
    refine ⟨?_, ?_, ?_⟩
    · intro p i rest y above ran
      obtain ⟨b, found, moved⟩ := Option.bind_eq_some_iff.mp ran
      clear ran
      rw [branchAt_eq_some] at found
      dsimp only at found moved
      split_ifs at moved with last
      · cases above with
        | top =>
          cases fuel with
          | zero => cases moved
          | succ fuel =>
            cases moved
            exact .inl rfl
        | child above _ _ => exact advance_halts _ _ _ _ above moved
      · exact extreme_halts _ _ _ _ b above found (nearest_used _ last) moved
    · intro p i rest y b above stored used ran
      have nonzero : b.mask ≠ 0 := by
        intro zero
        rw [zero] at used
        simp at used
      simp only [extreme, popChildless, branchAt_eq stored, Option.bind_eq_bind, Option.bind_some,
        if_neg nonzero] at ran
      exact dive_halts _ _ _ _ b above stored used ran
    · intro p i rest y b above stored used ran
      simp only [dive, branchAt_eq stored, Option.bind_eq_bind, Option.bind_some] at ran
      split_ifs at ran with isBranch
      · obtain ⟨child, found, ran⟩ := Option.bind_eq_some_iff.mp ran
        rw [branchAt_eq_some] at found
        split_ifs at ran with childless
        · exact advance_halts _ _ _ _ above ran
        · exact dive_halts _ _ _ _ child (.child above stored isBranch) found
            (nearest_mem _ childless) ran
      · cases ran
        exact .inr (.leaf above stored used (by simpa using isBranch))

theorem next_halts {fuel p : ℕ} {i : Fin 32} {rest y : Spine} (above : Leads s top rest p)
    (ran : next s fuel (⟨p, i⟩ :: rest) = some y) : Halts s top y := by
  rw [(next_eq s fuel).1] at ran
  exact (walk_halts fuel).1 _ _ _ _ above ran

theorem leftmost_halts {fuel p : ℕ} {b : TriedbBranch} {i : Fin 32} {rest y : Spine}
    (above : Leads s top rest p) (stored : s.nodes p = some (.branch b))
    (more : b.mask &&& aboveMask i.val ≠ 0)
    (ran : leftmost s fuel (⟨p, lowestIndex (b.mask &&& aboveMask i.val)⟩ :: rest) = some y) :
    Halts s top y := by
  rw [(next_eq s fuel).2.1] at ran
  exact (walk_halts fuel).2.1 _ _ _ _ b above stored (nearest_used rightward more) ran

theorem adjust_halts {key : UInt64} {fuel : ℕ} {spine y : Spine} (halts : Halts s top spine)
    (ran : adjust s key fuel spine = some y) : Halts s top y := by
  induction fuel generalizing spine with
  | zero => cases ran
  | succ fuel ih =>
    cases spine with
    | nil =>
      cases ran
      exact .inl rfl
    | cons cur rest =>
      obtain ⟨leaf, -, ran⟩ := Option.bind_eq_some_iff.mp ran
      split_ifs at ran with reached
      · cases ran
        exact halts
      · obtain ⟨spine, moved, ran⟩ := Option.bind_eq_some_iff.mp ran
        refine ih ?_ ran
        rcases halts with impossible | stands
        · cases impossible
        · cases stands with
          | leaf above _ _ _ => exact next_halts above moved

theorem followKey_leads {key : UInt64} {fuel p p' : ℕ} {b : TriedbBranch} {i : Fin 32}
    {spine spine' : Spine} (above : Leads s top spine p)
    (ran : followKey s key fuel p spine = some (p', b, i, spine')) :
    Leads s top spine' p' ∧ s.nodes p' = some (.branch b) ∧
      (b.isEmpty i = true ∨ b.isBranch i = false) := by
  induction fuel generalizing p spine with
  | zero => cases ran
  | succ fuel ih =>
    obtain ⟨b', found, ran⟩ := Option.bind_eq_some_iff.mp ran
    dsimp only at ran
    rw [branchAt_eq_some] at found
    split_ifs at ran with deeper
    · rw [Bool.and_eq_true] at deeper
      exact ih (.child above found deeper.2) ran
    · cases ran
      refine ⟨above, found, ?_⟩
      rw [Bool.and_eq_true, not_and_or, Bool.not_eq_true, Bool.not_eq_false', Bool.not_eq_true]
        at deeper
      exact deeper

theorem startFromKey_halts {key : UInt64} {fuel : ℕ} {y : Spine}
    (ran : startFromKey s key fuel top = some y) : Halts s top y := by
  obtain ⟨b, found, ran⟩ := Option.bind_eq_some_iff.mp ran
  dsimp only at ran
  rw [branchAt_eq_some] at found
  split_ifs at ran with high free last
  · cases ran
    exact .inl rfl
  · cases ran
    exact .inl rfl
  · obtain ⟨spine, moved, ran⟩ := Option.bind_eq_some_iff.mp ran
    exact adjust_halts (leftmost_halts .top found last moved) ran
  · obtain ⟨⟨p, b', i, spine⟩, followed, ran⟩ := Option.bind_eq_some_iff.mp ran
    obtain ⟨above, stored, stopped⟩ := followKey_leads .top followed
    dsimp only at ran
    split_ifs at ran with vacant last
    · obtain ⟨spine, moved, ran⟩ := Option.bind_eq_some_iff.mp ran
      exact adjust_halts (next_halts above moved) ran
    · obtain ⟨spine, moved, ran⟩ := Option.bind_eq_some_iff.mp ran
      exact adjust_halts (leftmost_halts above stored last moved) ran
    · refine adjust_halts (.inr (.leaf above stored ?_ (stopped.resolve_left vacant))) ran
      simpa [isEmpty_eq] using vacant

end Standing

section Order

variable {side : Side} {s : Triedb} {top : ℕ}

theorem mem_order (side : Side) (i : Fin 32) : i ∈ side.order := by
  have only : ∀ j : Fin 32, (BitVec.twoPow 32 i.val).getLsbD j.val = true ↔ i = j := by
    intro j
    rw [BitVec.getLsbD_twoPow, Bool.and_eq_true, decide_eq_true_eq, decide_eq_true_eq,
      ← Fin.ext_iff]
    exact and_iff_right i.isLt
  have nonzero : BitVec.twoPow 32 i.val ≠ 0 := by
    intro zero
    have set := (only i).mpr rfl
    rw [zero] at set
    simp at set
  have member : side.nearest (BitVec.twoPow 32 i.val) ∈
      side.occupied (BitVec.twoPow 32 i.val) := by
    rw [occupied_cons nonzero]
    exact List.mem_cons_self
  rw [← (only _).mp (nearest_mem _ nonzero)] at member
  exact (List.mem_filter.mp member).1

theorem mem_occupied (side : Side) {m : BitVec 32} {i : Fin 32} :
    i ∈ side.occupied m ↔ m.getLsbD i.val = true := by
  rw [Side.occupied, List.mem_filter]
  exact and_iff_right (mem_order side i)

theorem occupied_split (side : Side) {m : BitVec 32} {i : Fin 32} (used : m.getLsbD i.val = true) :
    ∃ front, side.occupied m = front ++ i :: side.occupied (m &&& side.beyond i) := by
  have member := (mem_occupied side).mpr used
  clear used
  induction shape : side.occupied m generalizing m with
  | nil =>
    rw [shape] at member
    cases member
  | cons j later ih =>
    have nonzero : m ≠ 0 := by
      intro zero
      rw [zero, occupied_zero] at shape
      cases shape
    rw [occupied_cons nonzero, List.cons.injEq] at shape
    obtain ⟨nearest, rfl⟩ := shape
    rw [nearest] at ih ⊢
    rw [occupied_cons nonzero, nearest] at member
    rcases List.mem_cons.mp member with rfl | further
    · exact ⟨[], rfl⟩
    · obtain ⟨front, split⟩ := ih further rfl
      have set := (mem_occupied _).mp further
      rw [BitVec.getLsbD_and, Bool.and_eq_true] at set
      rw [BitVec.and_assoc, side.beyond_nested j i set.2] at split
      exact ⟨j :: front, by rw [split, List.cons_append]⟩

theorem walk_leads (side : Side) {d₀ : ℕ} {b₀ : TriedbBranch} {c₀ : Children}
    (stored₀ : s.nodes top = some (.branch b₀)) (rep₀ : Represents s d₀ b₀ c₀) {rest : Spine}
    {p : ℕ} (above : Leads s top rest p) :
    ∃ d b c front, s.nodes p = some (.branch b) ∧ Represents s d b c ∧
      walk side s d₀ top [] = front ++ (walk side s d p rest ++ afterSpine side s rest) := by
  induction above with
  | top => exact ⟨d₀, b₀, c₀, [], stored₀, rep₀, by rw [afterSpine, List.append_nil]; rfl⟩
  | @child rest p b i above stored isBranch ih =>
    obtain ⟨d, b', c, front, stored', rep, order⟩ := ih
    rw [stored] at stored'
    cases stored'
    obtain ⟨e, rfl⟩ := Nat.exists_eq_add_of_le' rep.pos
    have used := isBranch
    rw [isBranch_eq, Bool.and_eq_true] at used
    have slot := rep.2.2 i
    have shape : b.slot i = .branch (b.getChildPointer i) := by
      simp only [TriedbBranch.slot, isEmpty_eq, isLeaf_eq, used.1]
      simpa using used.2
    rw [shape] at slot
    obtain ⟨b', c', node, -, rep'⟩ := slot
    obtain ⟨before, split⟩ := occupied_split side used.1
    refine ⟨e, b', c', front ++ before.flatMap (walkSlot side s e b p rest), node, rep', ?_⟩
    rw [order, walk_succ stored, split, List.flatMap_append, List.flatMap_cons, walkSlot,
      if_pos isBranch, afterSpine_cons stored rep]
    simp only [List.append_assoc]

theorem walk_stands (side : Side) {d₀ : ℕ} {b₀ : TriedbBranch} {c₀ : Children}
    (stored₀ : s.nodes top = some (.branch b₀)) (rep₀ : Represents s d₀ b₀ c₀) {x : Spine}
    (stands : Stands s top x) :
    ∃ front, walk side s d₀ top [] = front ++ x :: afterSpine side s x := by
  cases stands with
  | @leaf rest p b i above stored used isLeaf =>
    obtain ⟨d, b', c, front, stored', rep, order⟩ := walk_leads side stored₀ rep₀ above
    rw [stored] at stored'
    cases stored'
    obtain ⟨e, rfl⟩ := Nat.exists_eq_add_of_le' rep.pos
    obtain ⟨before, split⟩ := occupied_split side used
    refine ⟨front ++ before.flatMap (walkSlot side s e b p rest), ?_⟩
    rw [order, walk_succ stored, split, List.flatMap_append, List.flatMap_cons, walkSlot,
      if_neg (by rw [isLeaf]; exact Bool.false_ne_true), afterSpine_cons stored rep]
    simp only [List.append_assoc, List.cons_append, List.nil_append]

theorem Leads.grounded {d₀ : ℕ} {b₀ : TriedbBranch} {c₀ : Children}
    (stored₀ : s.nodes top = some (.branch b₀)) (rep₀ : Represents s d₀ b₀ c₀) {rest : Spine}
    {p : ℕ} (above : Leads s top rest p) : Grounded s rest := by
  induction above with
  | top =>
    intro cur impossible
    cases impossible
  | child above stored _ ih =>
    intro cur member
    rcases List.mem_cons.mp member with rfl | member
    · obtain ⟨d, b, c, _, node, rep, _⟩ := walk_leads rightward stored₀ rep₀ above
      exact ⟨d, b, c, node, rep⟩
    · exact ih cur member

theorem Stands.grounded {d₀ : ℕ} {b₀ : TriedbBranch} {c₀ : Children}
    (stored₀ : s.nodes top = some (.branch b₀)) (rep₀ : Represents s d₀ b₀ c₀) {x : Spine}
    (stands : Stands s top x) : Grounded s x := by
  cases stands with
  | leaf above stored _ _ =>
    intro cur member
    rcases List.mem_cons.mp member with rfl | member
    · obtain ⟨d, b, c, _, node, rep, _⟩ := walk_leads rightward stored₀ rep₀ above
      exact ⟨d, b, c, node, rep⟩
    · exact Leads.grounded stored₀ rep₀ above cur member

theorem stands_of_mem_walk (side : Side) {d p : ℕ} {rest x : Spine} (above : Leads s top rest p)
    (member : x ∈ walk side s d p rest) : Stands s top x := by
  induction d generalizing p rest with
  | zero => cases member
  | succ d ih =>
    rw [walk] at member
    split at member
    · cases member
    · rename_i b found
      rw [branchAt_eq_some] at found
      obtain ⟨i, used, member⟩ := List.mem_flatMap.mp member
      split_ifs at member with isBranch
      · exact ih (.child above found isBranch) member
      · rw [List.mem_singleton] at member
        rw [member]
        exact .leaf above found ((mem_occupied _).mp used) (by simpa using isBranch)

theorem walk_leftward (d p : ℕ) (rest : Spine) :
    walk leftward s d p rest = (walk rightward s d p rest).reverse := by
  induction d generalizing p rest with
  | zero => rfl
  | succ d ih =>
    rw [walk, walk]
    cases branchAt s p with
    | none => rfl
    | some b =>
      dsimp only
      have backwards : leftward.occupied b.mask = (rightward.occupied b.mask).reverse :=
        List.filter_reverse
      rw [backwards, List.reverse_flatMap]
      congr 1
      ext i : 1
      rw [Function.comp_apply]
      split_ifs
      · exact ih _ _
      · rfl

/-- What the leaf under a spine holds -/
def contents (s : Triedb) (x : Spine) : Option (ℕ × Bytes) :=
  (current s x).map fun leaf => (leaf.key.toNat, leaf.customData)

private theorem flatMap_filter {α β : Type} (p : α → Bool) (f : α → List β) (l : List α)
    (clear : ∀ a ∈ l, p a = false → f a = []) : (l.filter p).flatMap f = l.flatMap f := by
  induction l with
  | nil => rfl
  | cons a l ih =>
    have rest := ih fun a' member => clear a' (List.mem_cons_of_mem a member)
    rw [List.filter_cons, List.flatMap_cons]
    split_ifs with kept
    · rw [List.flatMap_cons, rest]
    · rw [rest, clear a List.mem_cons_self (by simpa using kept), List.nil_append]

theorem walk_contents {d p : ℕ} {b : TriedbBranch} {c : Children} (rest : Spine)
    (stored : s.nodes p = some (.branch b)) (rep : Represents s d b c) :
    (walk rightward s d p rest).map (contents s) = (Tree.branch c).leaves.map some := by
  induction d generalizing p b c rest with
  | zero => exact rep.elim
  | succ d ih =>
    rw [walk_succ stored, List.map_flatMap, Tree.leaves, List.map_flatMap]
    have clear : ∀ i ∈ List.finRange 32, b.mask.getLsbD i.val = false →
        (c i).leaves.map some = [] := by
      intro i _ free
      rw [Represents.child_eq_empty rep free]
      rfl
    rw [← flatMap_filter (fun i : Fin 32 => b.mask.getLsbD i.val) _ _ clear]
    apply List.flatMap_congr
    intro i member
    have slot := rep.2.2 i
    rw [walkSlot]
    cases here : b.slot i with
    | empty =>
      have used := (List.mem_filter.mp member).2
      rw [(slot_eq_empty_iff b i).mp here] at used
      cases used
    | leaf q =>
      obtain ⟨occupied, bit, pointer⟩ := of_slot_leaf here
      rw [here] at slot
      obtain ⟨leaf, node, child⟩ := slot
      have off : b.isBranch i = false := by
        rw [isBranch_eq, occupied, bit]
        rfl
      have here : current s (⟨p, i⟩ :: rest) = some leaf :=
        current_cons rest stored (pointer ▸ node)
      rw [if_neg (by rw [off]; exact Bool.false_ne_true), child, Tree.leaves_leaf,
        List.map_singleton, List.map_singleton, contents, here]
      rfl
    | branch q =>
      obtain ⟨occupied, bit, pointer⟩ := of_slot_branch here
      rw [here] at slot
      obtain ⟨b', c', node, child, rep'⟩ := slot
      have on : b.isBranch i = true := by
        rw [isBranch_eq, occupied, bit]
        rfl
      rw [if_pos on, child, pointer]
      exact ih _ node rep'

end Order

section Iteration

/-- The loop from an iterator to the end: the leaves it sees -/
def visit (s : Triedb) (fuel : ℕ) : ℕ → Spine → Option (List TriedbLeaf)
  | _, [] => some []
  | 0, _ => none
  | n + 1, it => do
      let leaf ← current s it
      let it ← next s fuel it
      let later ← visit s fuel n it
      return leaf :: later

/-- The end iterator stands for no position. -/
def spineOf : Option (Spine × TriedbLeaf) → Spine
  | none => []
  | some x => x.1

/-- The iterators of a root stand on the entries of the map `f`, in this order. -/
structure Iterates (s : Triedb) (r : RootId) (f : UInt64 → Option Bytes)
    (order : List (Spine × TriedbLeaf)) : Prop where
  stands : ∀ x ∈ order, current s x.1 = some x.2
  ascending : order.Pairwise fun x y => x.2.key < y.2.key
  complete : ∀ key data, f key = some data ↔ ∃ x ∈ order, x.2.key = key ∧ x.2.customData = data
  first : Ends (fun fuel => beginFirst s fuel r) (spineOf order.head?)
  last : Ends (fun fuel => previous s r fuel []) (spineOf order.getLast?)
  fromKey : ∀ key, Ends (fun fuel => beginAt s fuel r key)
    (spineOf (order.find? fun x => decide (key ≤ x.2.key)))
  following : ∀ before x after, order = before ++ x :: after →
    Ends (fun fuel => next s fuel x.1) (spineOf after.head?)
  preceding : ∀ before x after, order = before ++ x :: after →
    Ends (fun fuel => previous s r fuel x.1) (spineOf before.getLast?)

variable {s : Triedb} {r : RootId} {f : UInt64 → Option Bytes} {order : List (Spine × TriedbLeaf)}

theorem Iterates.back (iterates : Iterates s r f order) {x : Spine × TriedbLeaf}
    (member : x ∈ order) : ∃ y, Ends (fun fuel => next s fuel x.1) y ∧
      Ends (fun fuel => previous s r fuel y) x.1 := by
  obtain ⟨before, after, split⟩ := List.append_of_mem member
  refine ⟨_, iterates.following before x after split, ?_⟩
  cases after with
  | nil =>
    have last := iterates.last
    rwa [split, List.getLast?_append_of_ne_nil _ (by simp)] at last
  | cons y after =>
    have preceding := iterates.preceding (before ++ [x]) y after (by simp [split])
    rwa [List.getLast?_append_of_ne_nil _ (by simp)] at preceding

theorem Iterates.visit_ends (iterates : Iterates s r f order)
    (before : List (Spine × TriedbLeaf)) {after : List (Spine × TriedbLeaf)}
    (split : order = before ++ after) :
    ∃ n, ∀ fuel ≥ n, ∀ rounds ≥ after.length,
      visit s fuel rounds (spineOf after.head?) = some (after.map Prod.snd) := by
  induction after generalizing before with
  | nil => exact ⟨0, fun fuel _ rounds _ => by cases rounds <;> rfl⟩
  | cons x after ih =>
    obtain ⟨n₁, later⟩ := ih (before ++ [x]) (by simp [split])
    obtain ⟨n₂, moved⟩ := iterates.following before x after split
    have here := iterates.stands x (by simp [split])
    refine ⟨max n₁ n₂, fun fuel large rounds many => ?_⟩
    obtain ⟨k, rfl⟩ := Nat.exists_eq_add_of_le' (show 1 ≤ rounds by simp at many; omega)
    have first : next s fuel x.1 = some (spineOf after.head?) := moved fuel (by omega)
    have rest := later fuel (by omega) k (by simp at many; omega)
    change visit s fuel (k + 1) x.1 = _
    cases shape : x.1 with
    | nil =>
      rw [shape] at here
      cases here
    | cons cur spine =>
      rw [shape] at here first
      simp only [visit, here, first, rest, Option.bind_eq_bind, Option.bind_some,
        Option.pure_def, List.map_cons]

theorem exists_paired {l : List Spine} {entries : List (ℕ × Bytes)}
    (hold : l.map (contents s) = entries.map some) :
    ∃ order : List (Spine × TriedbLeaf), order.map Prod.fst = l ∧
      (∀ x ∈ order, current s x.1 = some x.2) ∧
      order.map (fun x => (x.2.key.toNat, x.2.customData)) = entries := by
  induction l generalizing entries with
  | nil =>
    cases entries with
    | nil => exact ⟨[], rfl, (fun _ impossible => by cases impossible), rfl⟩
    | cons _ _ => cases hold
  | cons x l ih =>
    cases entries with
    | nil => cases hold
    | cons e entries =>
      rw [List.map_cons, List.map_cons, List.cons.injEq] at hold
      obtain ⟨order, rfl, stands, rfl⟩ := ih hold.2
      obtain ⟨leaf, here, rfl⟩ := Option.map_eq_some_iff.mp hold.1
      refine ⟨(x, leaf) :: order, rfl, ?_, rfl⟩
      intro y member
      rcases List.mem_cons.mp member with rfl | member
      · exact here
      · exact stands y member

private theorem split_unique {α : Type} {x : α} {a a' b b' : List α} (nodup : (a ++ x :: b).Nodup)
    (same : a ++ x :: b = a' ++ x :: b') : a = a' ∧ b = b' := by
  induction a generalizing a' with
  | nil =>
    cases a' with
    | nil =>
      injection same with _ same
      exact ⟨rfl, same⟩
    | cons y a' =>
      injection same with head tail
      subst head
      exact ((List.nodup_cons.mp nodup).1 (by rw [tail]; simp)).elim
  | cons y a ih =>
    cases a' with
    | nil =>
      injection same with head tail
      subst head
      exact ((List.nodup_cons.mp nodup).1 (by simp)).elim
    | cons z a' =>
      injection same with head tail
      obtain ⟨rfl, rfl⟩ := ih (List.nodup_cons.mp nodup).2 tail
      exact ⟨by rw [head], rfl⟩

private theorem headD_map_fst (l : List (Spine × TriedbLeaf)) :
    (l.map Prod.fst).headD [] = spineOf l.head? := by
  cases l <;> rfl

private theorem headD_reverse_map_fst (l : List (Spine × TriedbLeaf)) :
    (l.map Prod.fst).reverse.headD [] = spineOf l.getLast? := by
  rw [← List.map_reverse, headD_map_fst, List.head?_reverse]

variable {root : TriedbRoot} {d : ℕ} {b : TriedbBranch} {c : Children}

theorem isEmpty_eq_false (entry : s.roots.lookup r = some root) : s.isEmpty = false := by
  cases roots : s.roots with
  | nil => simp [roots] at entry
  | cons x l => simp [Triedb.isEmpty, roots]

theorem walk_eq_nil {side : Side} (stored : s.nodes root.ptr = some (.branch b))
    (rep : Represents s d b c) (zero : b.mask = 0) : walk side s d root.ptr [] = [] := by
  obtain ⟨e, rfl⟩ := Nat.exists_eq_add_of_le' rep.pos
  rw [walk_succ stored, zero, occupied_zero, List.flatMap_nil]

theorem beginFirst_ends (entry : s.roots.lookup r = some root)
    (stored : s.nodes root.ptr = some (.branch b)) (rep : Represents s d b c) :
    Ends (fun fuel => beginFirst s fuel r) ((walk rightward s d root.ptr []).headD []) := by
  have call : ∀ fuel, beginFirst s fuel r =
      if b.mask ≠ 0 then leftmost s fuel [⟨root.ptr, lowestIndex b.mask⟩] else some [] := by
    intro fuel
    simp only [beginFirst, isEmpty_eq_false entry, Bool.false_eq_true, if_false, entry,
      branchAt_eq stored, Option.bind_eq_bind, Option.bind_some]
  by_cases zero : b.mask = 0
  · rw [walk_eq_nil stored rep zero]
    exact ⟨0, fun fuel _ => (call fuel).trans (if_neg (not_not.mpr zero))⟩
  · obtain ⟨n, enough⟩ := extreme_ends rightward stored rep zero
    refine ⟨n, fun fuel large => ?_⟩
    dsimp only
    rw [call, if_pos zero, (next_eq s fuel).2.1]
    exact enough fuel large

theorem previous_nil_ends (entry : s.roots.lookup r = some root)
    (stored : s.nodes root.ptr = some (.branch b)) (rep : Represents s d b c) :
    Ends (fun fuel => previous s r fuel []) ((walk leftward s d root.ptr []).headD []) := by
  have call : ∀ fuel, previous s r fuel [] =
      if b.mask = 0 then some [] else rightmost s fuel [⟨root.ptr, highestIndex b.mask⟩] := by
    intro fuel
    simp only [previous, isEmpty_eq_false entry, Bool.false_eq_true, if_false, entry,
      branchAt_eq stored, Option.bind_eq_bind, Option.bind_some]
  by_cases zero : b.mask = 0
  · rw [walk_eq_nil stored rep zero]
    exact ⟨0, fun fuel _ => (call fuel).trans (if_pos zero)⟩
  · obtain ⟨n, enough⟩ := extreme_ends leftward stored rep zero
    refine ⟨n, fun fuel large => ?_⟩
    dsimp only
    rw [call, if_neg zero]
    exact enough fuel large

theorem advance_stands {side : Side} {x : Spine} {front back : List Spine}
    (stored : s.nodes root.ptr = some (.branch b)) (rep : Represents s d b c)
    (nodup : (walk side s d root.ptr []).Nodup)
    (split : walk side s d root.ptr [] = front ++ x :: back) :
    Ends (fun fuel => advance side s fuel x) (back.headD []) := by
  have stands : Stands s root.ptr x :=
    stands_of_mem_walk side (d := d) .top (by rw [split]; simp)
  obtain ⟨front', split'⟩ := walk_stands side stored rep stands
  rw [split'] at split nodup
  rw [← (split_unique nodup split).2]
  exact advance_ends (stands.grounded stored rep)

theorem beginAt_ends (entry : s.roots.lookup r = some root) (shallow : d ≤ MAX_DEPTH)
    (stored : s.nodes root.ptr = some (.branch b)) (rep : Represents s d b c)
    (fits : (Tree.branch c).Fits d 0) (spines : order.map Prod.fst = walk rightward s d root.ptr [])
    (current_eq : ∀ x ∈ order, current s x.1 = some x.2)
    (entries : order.map (fun x => (x.2.key.toNat, x.2.customData)) = (Tree.branch c).leaves)
    (key : UInt64) : Ends (fun fuel => beginAt s fuel r key)
      (spineOf (order.find? fun x => decide (key ≤ x.2.key))) := by
  have call : ∀ fuel, beginAt s fuel r key = startFromKey s key fuel root.ptr := by
    intro fuel
    simp only [beginAt, isEmpty_eq_false entry, Bool.false_eq_true, if_false, entry,
      Option.bind_eq_bind, Option.bind_some]
  obtain ⟨spine, settled, n, enough⟩ := startFromKey_reaches key shallow stored rep fits
  suffices place : spine = spineOf (order.find? fun x => decide (key ≤ x.2.key)) by
    exact ⟨n, fun fuel large => by rw [← place]; exact (call fuel).trans (enough fuel large)⟩
  have halts : Halts s root.ptr spine := startFromKey_halts (enough n le_rfl)
  have below : ∀ x : Spine × TriedbLeaf,
      decide (x.2.key.toNat < key.toNat) = !decide (key ≤ x.2.key) := by
    intro x
    rw [← decide_not, decide_eq_decide, UInt64.le_iff_toNat_le, Nat.not_le]
  rw [← entries, List.dropWhile_map] at settled
  rw [List.find?_eq_head?_dropWhile_not]
  simp only [Function.comp_def, below] at settled
  have rest_mem : ∀ x ∈ order.dropWhile (fun x => !decide (key ≤ x.2.key)), x ∈ order :=
    fun x member => (List.dropWhile_sublist _).subset member
  cases rest : order.dropWhile (fun x => !decide (key ≤ x.2.key)) with
  | nil =>
    rw [rest] at settled
    exact settled
  | cons x later =>
    rw [rest] at settled
    obtain ⟨-, leaf, here, same⟩ := settled
    have member : x ∈ order := rest_mem x (by rw [rest]; simp)
    rcases halts with rfl | stands
    · cases here
    · obtain ⟨front, split⟩ := walk_stands rightward stored rep stands
      have spine_mem : spine ∈ order.map Prod.fst := by
        rw [spines, split]
        simp
      obtain ⟨y, y_mem, rfl⟩ := List.mem_map.mp spine_mem
      rw [current_eq y y_mem] at here
      injection here with same_leaf
      rw [← same_leaf, Prod.mk.injEq, UInt64.toNat_inj] at same
      have sorted := Tree.leaves_sorted fits
      rw [← entries, List.pairwise_map] at sorted
      have only : order.Pairwise fun x y => x.2.key ≠ y.2.key :=
        sorted.imp fun less equal => Nat.ne_of_lt less (congrArg UInt64.toNat equal)
      by_contra other
      have distinct : x ≠ y := by
        rintro rfl
        exact other rfl
      have symmetric : Std.Symm fun x y : Spine × TriedbLeaf => x.2.key ≠ y.2.key :=
        ⟨fun _ _ => Ne.symm⟩
      exact only.forall member y_mem distinct same.1

theorem iterates_of_represents (entry : s.roots.lookup r = some root) (shallow : d ≤ MAX_DEPTH)
    (stored : s.nodes root.ptr = some (.branch b)) (rep : Represents s d b c)
    (fits : (Tree.branch c).Fits d 0) :
    ∃ order, Iterates s r (fun key => (Tree.branch c).lookup d key.toNat) order := by
  obtain ⟨order, spines, current_eq, entries⟩ := exists_paired (walk_contents [] stored rep)
  have sorted := Tree.leaves_sorted fits
  rw [← entries, List.pairwise_map] at sorted
  have ascending : order.Pairwise fun x y => x.2.key < y.2.key :=
    sorted.imp fun less => UInt64.lt_iff_toNat_lt.mpr less
  have nodup : (walk rightward s d root.ptr []).Nodup := by
    rw [← spines, List.nodup_iff_pairwise_ne, List.pairwise_map]
    refine ascending.imp_of_mem fun x_mem y_mem less same => ?_
    have x_leaf := current_eq _ x_mem
    rw [same, current_eq _ y_mem] at x_leaf
    injection x_leaf with same_leaf
    rw [same_leaf] at less
    exact UInt64.lt_irrefl _ less
  have backwards : walk leftward s d root.ptr [] = (order.map Prod.fst).reverse := by
    rw [walk_leftward, spines]
  refine ⟨order, current_eq, ascending, ?_, ?_, ?_, ?_, ?_, ?_⟩
  · intro key data
    rw [← Tree.mem_leaves_iff fits, ← entries, List.mem_map]
    simp only [Prod.mk.injEq, UInt64.toNat_inj]
  · rw [← headD_map_fst, spines]
    exact beginFirst_ends entry stored rep
  · rw [← headD_reverse_map_fst, ← backwards]
    exact previous_nil_ends entry stored rep
  · exact beginAt_ends entry shallow stored rep fits spines current_eq entries
  · intro before x after split
    have around : walk rightward s d root.ptr [] =
        before.map Prod.fst ++ x.1 :: after.map Prod.fst := by
      rw [← spines, split, List.map_append, List.map_cons]
    obtain ⟨n, enough⟩ := advance_stands stored rep nodup around
    refine ⟨n, fun fuel large => ?_⟩
    rw [← headD_map_fst]
    exact ((next_eq s fuel).1 x.1).trans (enough fuel large)
  · intro before x after split
    have around : walk leftward s d root.ptr [] =
        (after.map Prod.fst).reverse ++ x.1 :: (before.map Prod.fst).reverse := by
      rw [backwards, split, List.map_append, List.map_cons, List.reverse_append,
        List.reverse_cons, List.append_assoc, List.singleton_append]
    obtain ⟨n, enough⟩ := advance_stands stored rep
      (by rw [walk_leftward]; exact List.nodup_reverse.mpr nodup) around
    refine ⟨n, fun fuel large => ?_⟩
    have here := current_eq x (by rw [split]; simp)
    rw [← headD_reverse_map_fst]
    cases shape : x.1 with
    | nil =>
      rw [shape] at here
      cases here
    | cons cur rest =>
      rw [shape] at enough
      exact enough fuel large

/-- In every reachable database and for every root of it the iterators go over what `find` finds,
in ascending order and in both directions. -/
theorem iteration_ordered_complete (P : TriedbParams) (ops : List Op) (s : Triedb)
    (ran : runOps P {} ops = some s) (r : RootId) (root : TriedbRoot)
    (entry : s.roots.lookup r = some root) :
    ∃ f order, (∀ key, Finds s r key (f key)) ∧ Iterates s r f order ∧
      (∃ n, ∀ fuel ≥ n, (beginFirst s fuel r).bind (visit s fuel fuel) =
        some (order.map Prod.snd)) ∧
      ∀ x ∈ order, ∃ y, Ends (fun fuel => next s fuel x.1) y ∧
        Ends (fun fuel => previous s r fuel y) x.1 := by
  have kept := kept_hashes_run (P := P) kept_empty ran
  obtain ⟨d, b, c, held⟩ := kept.roots r root entry
  obtain ⟨order, iterates⟩ :=
    iterates_of_represents entry held.shallow held.stored held.ann.rep held.fits
  refine ⟨_, order, ?_, iterates, ?_, fun x member => iterates.back member⟩
  · intro key
    exact find_eq key (kept.nonzero r root entry) entry held.shallow held.stored held.ann.rep
      held.fits
  · obtain ⟨n₁, started⟩ := iterates.first
    obtain ⟨n₂, visited⟩ := iterates.visit_ends [] rfl
    refine ⟨max (max n₁ n₂) order.length, fun fuel large => ?_⟩
    have start : beginFirst s fuel r = some (spineOf order.head?) := started fuel (by omega)
    rw [start, Option.bind_some]
    exact visited fuel (by omega) fuel (by omega)

/-- Three keys of which two are removed, and with them the branch that held both. -/
def emptied : List Op :=
  [.newRoot, .insert 20 5 [1], .insert 20 64 [2], .insert 20 65 [3], .remove 20 64, .remove 20 65]

def emptiedRun : Triedb := (runOps plainParams {} emptied).getD {}

theorem emptied_iterates : ∃ f order, (∀ key, Finds emptiedRun 20 key (f key)) ∧
    Iterates emptiedRun 20 f order ∧
    (∃ n, ∀ fuel ≥ n, (beginFirst emptiedRun fuel 20).bind (visit emptiedRun fuel fuel) =
      some (order.map Prod.snd)) ∧
    ∀ x ∈ order, ∃ y, Ends (fun fuel => next emptiedRun fuel x.1) y ∧
      Ends (fun fuel => previous emptiedRun 20 fuel y) x.1 := by
  obtain ⟨s, ran⟩ := Option.isSome_iff_exists.mp
    (by decide +kernel : (runOps plainParams {} emptied).isSome = true)
  have same : emptiedRun = s := by
    rw [emptiedRun, ran]
    rfl
  obtain ⟨root, entry⟩ := Option.isSome_iff_exists.mp
    (by decide +kernel : (emptiedRun.roots.lookup 20).isSome = true)
  exact iteration_ordered_complete plainParams emptied emptiedRun (same ▸ ran) 20 root entry

example : ((beginFirst emptiedRun 20 20).bind (visit emptiedRun 20 20)).map
    (fun leaves => leaves.map (·.key)) = some [5] := by
  decide +kernel

end Iteration

end Epilog.Db.Traversal
