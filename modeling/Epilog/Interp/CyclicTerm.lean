/- Module: Epilog/Interp/CyclicTerm
   source: src/src/interp/builtins.cpp (cyclic_term_1, acyclic_term_1)
   digest: The search for a cycle in a term, and the terms for which it answers right. -/

import Epilog.Common.HeapTrees
import Epilog.Lib.PathWalk

set_option autoImplicit false

namespace Epilog.Interp.CyclicTerm

open Relation Epilog.Common.Term Epilog.Common.TermWalk Epilog.Common.HeapTrees Epilog.Lib.Fuel
  Epilog.Lib.PathWalk

section Source

variable (mem : ℕ → Cell)

/-- `functor` of a constant or a structure -/
def functorOf (c : Cell) : Option Cell := if c.tag = .CON then some c else functor mem c

/-- What a turn of the loop does: it returns, or leaves a stack and a path. -/
inductive Turn
  | answer (b : Bool)
  | next (workstack : List (Cell × ℕ)) (path : Finset Cell)

/-- A turn of the loop with the pair that it takes from the stack -/
def cyclicTurn (fuel : ℕ) (current : Cell) (index : ℕ) (workstack : List (Cell × ℕ))
    (path : Finset Cell) : Option Turn :=
  if current ∈ path ∧ index = 0 then some (.answer true)
  else
    let path := insert current path
    match current.tag with
    | .STR | .CON => do
      let tf ← functorOf mem current
      if index < tf.arity then
        let a ← arg mem fuel current index
        return .next ((a, 0) :: (current, index + 1) :: workstack) path
      else return .next workstack (path.erase current)
    | .REF | .RFW => do
      let d ← deref mem fuel current
      if d = current then return .answer false
      else return .next ((d, 0) :: workstack) path
    | _ => return .next workstack (path.erase current)

/-- The loop, with the number of turns that are left before it gives up -/
def cyclicLoop (fuel : ℕ) : (turns : ℕ) → List (Cell × ℕ) → Finset Cell → Option Bool
  | _, [], _ => some false
  | 0, _ :: _, _ => some false
  | turns + 1, (current, index) :: workstack, path =>
    (cyclicTurn mem fuel current index workstack path).bind fun turn =>
      match turn with
      | .answer b => some b
      | .next workstack path => cyclicLoop fuel turns workstack path

/-- `cyclic_term_1` -/
def cyclicTerm (fuel : ℕ) (t : Cell) : Option Bool := cyclicLoop mem fuel 20 [(t, 0)] ∅

/-- `acyclic_term_1` -/
def acyclicTerm (fuel : ℕ) (t : Cell) : Option Bool := (cyclicTerm mem fuel t).map (!·)

end Source

section Specification

variable (mem : ℕ → Cell)

/-- The subterms right below a value -/
noncomputable def subterms (d : Cell) : List Cell :=
  if d.tag = .STR then (args mem d (mem d.index)).map (value mem) else []

/-- A subterm of the term contains itself. -/
def Cyclic (t : Cell) : Prop := Repeats (subterms mem) (value mem t)

/-- `cyclic_term` and `acyclic_term` come to an end and are right about the term. -/
def Decides (t : Cell) : Prop :=
  ∃ cyclic acyclic, Finds (fun n => cyclicTerm mem n t) cyclic ∧
    Finds (fun n => acyclicTerm mem n t) acyclic ∧
    (cyclic = true ↔ Cyclic mem t) ∧ (acyclic = true ↔ ¬ Cyclic mem t)

/-- The walk from left to right comes to a subterm of its own path in at most 20 turns, before it
comes to an unbound variable. A structure costs a turn for each of its arguments and one more,
everything else one turn, and a bound reference in the argument register one more. -/
def FoundInTime (t : Cell) : Prop :=
  ∃ k, Arrives (subterms mem) (fun d => d.tag.isRef = true)
    (if value mem t = t then ∅ else {t}) (value mem t) k ∧
      k + (if value mem t = t then 0 else 1) < 20

/-- A heap in which constants have no arguments -/
structure TermHeap (R : Regions) (mem : ℕ → Cell) (size : ℕ) : Prop where
  wf : WellFormed R mem size
  plain : ∀ x ∈ R.terms, (mem x).tag = .CON → (mem x).arity = 0

/-- A term in such a heap -/
structure TermOf (R : Regions) (mem : ℕ → Cell) (t : Cell) : Prop where
  isTerm : IsTerm R mem t
  plain : t.tag = .CON → t.arity = 0

end Specification

section Fuel

variable {mem : ℕ → Cell}

theorem cyclicTurn_lasting (current : Cell) (index : ℕ) (workstack : List (Cell × ℕ))
    (path : Finset Cell) : Lasting fun n => cyclicTurn mem n current index workstack path := by
  have inner : Lasting fun n => do
      let tf ← functorOf mem current
      if index < tf.arity then
        let a ← arg mem n current index
        return Turn.next ((a, 0) :: (current, index + 1) :: workstack) (insert current path)
      else return Turn.next workstack ((insert current path).erase current) :=
    (Lasting.const _).bind fun tf => .ite
      ((arg_lasting mem current index).bind fun _ => .const _) (.const _)
  have follow : Lasting fun n => do
      let d ← deref mem n current
      if d = current then return Turn.answer false
      else return Turn.next ((d, 0) :: workstack) (insert current path) :=
    (deref_lasting mem current).bind fun _ => .const _
  unfold cyclicTurn
  refine .ite (.const _) ?_
  cases current.tag with
  | STR => exact inner
  | CON => exact inner
  | REF => exact follow
  | RFW => exact follow
  | INT => exact .const _
  | BIG => exact .const _
  | DAT => exact .const _
  | FWD => exact .const _

theorem cyclicLoop_lasting (turns : ℕ) (workstack : List (Cell × ℕ)) (path : Finset Cell) :
    Lasting fun n => cyclicLoop mem n turns workstack path := by
  induction turns generalizing workstack path with
  | zero =>
    cases workstack with
    | nil => exact .const _
    | cons top workstack => exact .const _
  | succ turns ih =>
    cases workstack with
    | nil => exact .const _
    | cons top workstack =>
      refine (cyclicTurn_lasting _ _ _ _).bind fun turn => ?_
      cases turn with
      | answer b => exact .const _
      | next workstack path => exact ih workstack path

end Fuel
section Runs

variable (mem : ℕ → Cell)

/-- Some turns of the loop that do not return, from one stack and path to another -/
inductive Turns : ℕ → List (Cell × ℕ) × Finset Cell → List (Cell × ℕ) × Finset Cell → Prop
  | refl (s : List (Cell × ℕ) × Finset Cell) : Turns 0 s s
  | step {k index : ℕ} {current : Cell} {workstack : List (Cell × ℕ)} {path : Finset Cell}
      {s s' : List (Cell × ℕ) × Finset Cell}
      (turn : Finds (fun n => cyclicTurn mem n current index workstack path) (.next s.1 s.2))
      (later : Turns k s s') : Turns (k + 1) ((current, index) :: workstack, path) s'

variable {mem} {k m index : ℕ} {current : Cell} {workstack : List (Cell × ℕ)} {path : Finset Cell}
  {s s' s'' : List (Cell × ℕ) × Finset Cell} {b : Bool}

theorem Turns.trans (first : Turns mem k s s') (second : Turns mem m s' s'') :
    Turns mem (k + m) s s'' := by
  induction first with
  | refl s => rwa [Nat.zero_add]
  | step turn later ih =>
    rw [Nat.add_right_comm]
    exact .step turn (ih second)

theorem loop_empty (turns : ℕ) : Finds (fun n => cyclicLoop mem n turns [] path) false := by
  refine ⟨0, ?_⟩
  cases turns <;> rfl

theorem loop_out : Finds (fun n => cyclicLoop mem n 0 workstack path) false := by
  refine ⟨0, ?_⟩
  cases workstack <;> rfl

theorem loop_turn {turns : ℕ} {turn : Turn}
    (taken : Finds (fun n => cyclicTurn mem n current index workstack path) turn)
    (later : match turn with
      | .answer b' => b' = b
      | .next workstack path => Finds (fun n => cyclicLoop mem n turns workstack path) b) :
    Finds (fun n => cyclicLoop mem n (turns + 1) ((current, index) :: workstack) path) b := by
  refine finds_bind (cyclicTurn_lasting current index workstack path) ?_ taken ?_
  · cases turn with
    | answer b' => exact .const _
    | next workstack path => exact cyclicLoop_lasting turns workstack path
  · cases turn with
    | answer b' => exact ⟨0, congrArg some later⟩
    | next workstack path => exact later

theorem Turns.ends (run : Turns mem k s ([], path)) (turns : ℕ) :
    Finds (fun n => cyclicLoop mem n turns s.1 s.2) false := by
  generalize last : (([], path) : List (Cell × ℕ) × Finset Cell) = s' at run
  induction run generalizing turns with
  | refl s =>
    subst last
    exact loop_empty turns
  | step turn later ih =>
    cases turns with
    | zero => exact loop_out
    | succ turns => exact loop_turn turn (ih turns last)

theorem Turns.answers (run : Turns mem k s ((current, index) :: workstack, path))
    (last : Finds (fun n => cyclicTurn mem n current index workstack path) (.answer b))
    (turns : ℕ) : Finds (fun n => cyclicLoop mem n turns s.1 s.2) (decide (k < turns) && b) := by
  generalize config : ((current, index) :: workstack, path) = s' at run
  induction run generalizing turns with
  | refl s =>
    subst config
    cases turns with
    | zero => exact loop_out
    | succ turns => exact loop_turn last (by simp)
  | @step k index' current' workstack' path' s s' turn later ih =>
    cases turns with
    | zero => exact loop_out
    | succ turns =>
      rw [show decide (k + 1 < turns + 1) = decide (k < turns) by simp]
      exact loop_turn turn (ih turns config)

end Runs

section Nodes

variable {R : Regions} {mem : ℕ → Cell} {size : ℕ} {c d : Cell}

/-- What is found on the way through a term: a value, not a reference to one -/
structure Node (R : Regions) (mem : ℕ → Cell) (d : Cell) : Prop where
  term : TermOf R mem d
  derefs : Derefs mem d d

theorem TermHeap.node (heap : TermHeap R mem size) (term : TermOf R mem c)
    (derefs : Derefs mem c d) : Node R mem d := by
  refine ⟨⟨derefs.isTerm heap.wf term.isTerm, ?_⟩, derefs.self⟩
  obtain ⟨n, found⟩ := derefs
  induction n generalizing c with
  | zero => exact nomatch found
  | succ n ih =>
    dsimp only at found
    unfold deref at found
    split_ifs at found with isRef unbound
    · rw [← Option.some.inj found]
      exact term.plain
    · have inside := term.isTerm.ref isRef
      exact ih ⟨heap.wf.cells _ inside, heap.plain _ inside⟩ found
    · rw [← Option.some.inj found]
      exact term.plain

theorem TermHeap.value_node (heap : TermHeap R mem size) (term : TermOf R mem c) :
    Derefs mem c (value mem c) ∧ Node R mem (value mem c) := by
  obtain ⟨d, derefs, -⟩ := term.isTerm.derefs heap.wf
  rw [value_eq derefs]
  exact ⟨derefs, heap.node term derefs⟩

theorem subterms_str (isStr : d.tag = .STR) :
    subterms mem d = (args mem d (mem d.index)).map (value mem) := if_pos isStr

theorem subterms_other (notStr : d.tag ≠ .STR) : subterms mem d = [] := if_neg notStr

theorem length_subterms (isStr : d.tag = .STR) :
    (subterms mem d).length = (mem d.index).arity := by
  rw [subterms_str isStr, List.length_map, args, List.length_map, List.length_range]

theorem getElem?_subterms (isStr : d.tag = .STR) {i : ℕ} (small : i < (mem d.index).arity) :
    (subterms mem d)[i]? = some (value mem (mem (d.index + i + 1))) := by
  rw [subterms_str isStr, args, List.getElem?_map, List.getElem?_map,
    List.getElem?_range small]
  rfl

theorem TermHeap.argument (heap : TermHeap R mem size) (node : Node R mem d)
    (isStr : d.tag = .STR) {i : ℕ} (small : i < (mem d.index).arity) :
    TermOf R mem (mem (d.index + i + 1)) := by
  obtain ⟨-, -, inside⟩ := heap.wf.functors _ (node.term.isTerm.str isStr)
  exact ⟨heap.wf.cells _ (inside i small), heap.plain _ (inside i small)⟩

theorem TermHeap.below (heap : TermHeap R mem size) (node : Node R mem d) :
    ∀ m ∈ subterms mem d, Node R mem m := by
  intro m under
  by_cases isStr : d.tag = .STR
  · obtain ⟨i, found⟩ := List.getElem?_of_mem under
    have small : i < (mem d.index).arity := by
      rw [← length_subterms isStr]
      exact (List.getElem?_eq_some_iff.1 found).1
    rw [getElem?_subterms isStr small] at found
    rw [← Option.some.inj found]
    exact (heap.value_node (heap.argument node isStr small)).2
  · rw [subterms_other isStr] at under
    exact absurd under List.not_mem_nil

theorem TermHeap.reaches (heap : TermHeap R mem size) (node : Node R mem d)
    (reach : ReflTransGen (Under (subterms mem)) d c) : Node R mem c := by
  induction reach with
  | refl => exact node
  | tail _ under ih => exact heap.below ih _ under

theorem TermHeap.finite (heap : TermHeap R mem size) (node : Node R mem d)
    (inner : subterms mem d ≠ []) : d ∈ (Finset.range size).image (Cell.make .STR) := by
  have isStr : d.tag = .STR := by
    by_contra notStr
    exact inner (subterms_other notStr)
  rw [Finset.mem_image]
  refine ⟨d.index, ?_, ?_⟩
  · rw [Finset.mem_range]
    exact (heap.wf.functors _ (node.term.isTerm.str isStr)).1
  · rw [← isStr]
    exact Cell.make_tag_value d

end Nodes

section Walking

variable {R : Regions} {mem : ℕ → Cell} {size : ℕ} {c d m : Cell} {i k : ℕ}
  {workstack : List (Cell × ℕ)} {path : Finset Cell}

theorem finds_arg (heap : TermHeap R mem size) (node : Node R mem d) (isStr : d.tag = .STR)
    (small : i < (mem d.index).arity) :
    Finds (fun n => arg mem n d i) (value mem (mem (d.index + i + 1))) :=
  finds_bind (deref_lasting mem d) (deref_lasting mem _) node.derefs
    (heap.value_node (heap.argument node isStr small)).1

theorem turn_down (heap : TermHeap R mem size) (workstack : List (Cell × ℕ)) (node : Node R mem d)
    (next : (subterms mem d)[i]? = some m) (again : d ∈ path → i ≠ 0) :
    Finds (fun n => cyclicTurn mem n d i workstack path)
      (.next ((m, 0) :: (d, i + 1) :: workstack) (insert d path)) := by
  have isStr : d.tag = .STR := by
    by_contra notStr
    rw [subterms_other notStr] at next
    exact nomatch next
  have small : i < (mem d.index).arity := by
    rw [← length_subterms isStr]
    exact (List.getElem?_eq_some_iff.1 next).1
  rw [getElem?_subterms isStr small] at next
  obtain ⟨n, found⟩ := finds_arg heap node isStr small
  have isCon := (heap.wf.functors _ (node.term.isTerm.str isStr)).2.1
  have notMet : ¬ (d ∈ path ∧ i = 0) := fun met => again met.1 met.2
  refine ⟨n, ?_⟩
  dsimp only at found ⊢
  simp only [cyclicTurn, if_neg notMet, isStr, functorOf, functor, isCon, if_pos, reduceCtorEq,
    if_false, Option.bind_eq_bind, Option.bind_some, small, found, ← Option.some.inj next]
  rfl

theorem turn_up (heap : TermHeap R mem size) (workstack : List (Cell × ℕ)) (node : Node R mem d)
    (goesOn : ¬ d.tag.isRef = true) (through : (subterms mem d)[i]? = none)
    (again : d ∈ path → i ≠ 0) :
    Finds (fun n => cyclicTurn mem n d i workstack path)
      (.next workstack ((insert d path).erase d)) := by
  have notMet : ¬ (d ∈ path ∧ i = 0) := fun met => again met.1 met.2
  refine ⟨0, ?_⟩
  dsimp only
  cases tag : d.tag with
  | STR =>
    have isCon := (heap.wf.functors _ (node.term.isTerm.str tag)).2.1
    have large : ¬ i < (mem d.index).arity := by
      rw [← length_subterms tag, Nat.not_lt]
      exact List.getElem?_eq_none_iff.1 through
    simp only [cyclicTurn, if_neg notMet, tag, functorOf, functor, isCon, if_pos, reduceCtorEq,
      if_false, Option.bind_eq_bind, Option.bind_some, large]
    rfl
  | CON =>
    simp only [cyclicTurn, if_neg notMet, tag, functorOf, if_pos, Option.bind_eq_bind,
      Option.bind_some, node.term.plain tag, Nat.not_lt_zero, if_false]
    rfl
  | REF => exact absurd (by rw [tag]; rfl) goesOn
  | RFW => exact absurd (by rw [tag]; rfl) goesOn
  | INT =>
    simp only [cyclicTurn, if_neg notMet, tag]
    rfl
  | BIG =>
    simp only [cyclicTurn, if_neg notMet, tag]
    rfl
  | DAT =>
    simp only [cyclicTurn, if_neg notMet, tag]
    rfl
  | FWD =>
    simp only [cyclicTurn, if_neg notMet, tag]
    rfl

theorem turn_met (met : d ∈ path) :
    Finds (fun n => cyclicTurn mem n d 0 workstack path) (.answer true) := by
  refine ⟨0, ?_⟩
  unfold cyclicTurn
  exact if_pos ⟨met, rfl⟩

theorem turn_var (node : Node R mem d) (isRef : d.tag.isRef = true) (fresh : d ∉ path) :
    Finds (fun n => cyclicTurn mem n d 0 workstack path) (.answer false) := by
  obtain ⟨n, found⟩ := node.derefs
  refine ⟨n, ?_⟩
  dsimp only at found ⊢
  cases tag : d.tag with
  | REF => simp [cyclicTurn, fresh, tag, found]
  | RFW => simp [cyclicTurn, fresh, tag, found]
  | _ =>
    rw [tag] at isRef
    exact nomatch isRef

theorem turns_through (heap : TermHeap R mem size) (workstack : List (Cell × ℕ))
    (node : Node R mem d) (count : Cell → ℕ)
    {before rest : List Cell} (split : (subterms mem d).drop i = before ++ rest)
    (again : d ∈ path → i ≠ 0)
    (walks : ∀ b ∈ before, ∀ workstack, Turns mem (count b)
      ((b, 0) :: workstack, insert d path) (workstack, insert d path)) :
    ∃ path', insert d path' = insert d path ∧ (d ∈ path' → i + before.length ≠ 0) ∧
      Turns mem (turnsOn count before) ((d, i) :: workstack, path)
        ((d, i + before.length) :: workstack, path') := by
  induction before generalizing i path with
  | nil => exact ⟨path, rfl, again, .refl _⟩
  | cons b before ih =>
    have next : (subterms mem d)[i]? = some b := by
      rw [← List.head?_drop, split]
      rfl
    have later : (subterms mem d).drop (i + 1) = before ++ rest := by
      rw [← List.tail_drop, split]
      rfl
    have same : insert d (insert d path) = insert d path := Finset.insert_idem d path
    have others : ∀ b' ∈ before, ∀ workstack, Turns mem (count b')
        ((b', 0) :: workstack, insert d (insert d path)) (workstack, insert d (insert d path)) := by
      rw [same]
      exact fun b' inside => walks b' (List.mem_cons_of_mem b inside)
    have apart : d ∈ insert d path → i + 1 ≠ 0 := fun _ => by omega
    obtain ⟨path', whole, apart, run⟩ := ih later apart others
    have down := walks b List.mem_cons_self ((d, i + 1) :: workstack)
    refine ⟨path', whole.trans same, fun _ => by simp, ?_⟩
    have all := (Turns.step (turn_down heap workstack node next again) (down.trans run))
    have number : count b + turnsOn count before + 1 = turnsOn count (b :: before) := by
      simp only [turnsOn, List.map_cons, List.sum_cons]
      omega
    rw [number] at all
    rw [List.length_cons, Nat.add_comm before.length, ← Nat.add_assoc]
    exact all

theorem turns_passes (heap : TermHeap R mem size) (node : Node R mem d)
    (passes : Passes (subterms mem) (fun d => d.tag.isRef = true) path d k)
    (workstack : List (Cell × ℕ)) :
    Turns mem k ((d, 0) :: workstack, path) (workstack, path) := by
  induction passes generalizing workstack with
  | @node path d count fresh goesOn all ih =>
    have split : (subterms mem d).drop 0 = subterms mem d ++ [] := by
      rw [List.drop_zero, List.append_nil]
    obtain ⟨path', whole, apart, run⟩ := turns_through heap workstack node count split
      (fun met => absurd met fresh)
      fun b inside workstack => ih b inside (heap.below node b inside) workstack
    have through : (subterms mem d)[0 + (subterms mem d).length]? = none := by
      rw [Nat.zero_add]
      exact List.getElem?_eq_none_iff.2 le_rfl
    have back := Turns.step (turn_up heap workstack node goesOn through apart)
      (.refl (workstack, (insert d path').erase d))
    rw [whole, Finset.erase_insert fresh] at back
    have total := run.trans back
    rwa [Nat.add_comm] at total

theorem turns_inside (heap : TermHeap R mem size) (node : Node R mem d) (count : Cell → ℕ)
    {before after : List Cell} (fresh : d ∉ path)
    (split : subterms mem d = before ++ m :: after)
    (all : ∀ b ∈ before,
      Passes (subterms mem) (fun d => d.tag.isRef = true) (insert d path) b (count b))
    (workstack : List (Cell × ℕ)) :
    Turns mem (1 + turnsOn count before) ((d, 0) :: workstack, path)
      ((m, 0) :: (d, before.length + 1) :: workstack, insert d path) := by
  have under : ∀ b ∈ before, Node R mem b := fun b inside => heap.below node b (by
    rw [split]
    exact List.mem_append_left _ inside)
  have suffix_ : (subterms mem d).drop 0 = before ++ m :: after := split
  obtain ⟨path', whole, apart, run⟩ := turns_through heap workstack node count suffix_
    (fun met => absurd met fresh)
    fun b inside workstack => turns_passes heap (under b inside) (all b inside) workstack
  have next : (subterms mem d)[0 + before.length]? = some m := by
    rw [split, Nat.zero_add]
    simp
  have down := Turns.step (turn_down heap workstack node next apart)
    (.refl ((m, 0) :: (d, 0 + before.length + 1) :: workstack, insert d path'))
  rw [whole] at down
  have total := run.trans down
  rw [Nat.zero_add before.length] at total
  rwa [Nat.add_comm] at total

end Walking

section Answer

variable {R : Regions} {mem : ℕ → Cell} {size : ℕ} {c d t : Cell} {k : ℕ}
  {path : Finset Cell}

theorem turns_arrives (heap : TermHeap R mem size) (node : Node R mem d)
    (arrives : Arrives (subterms mem) (fun d => d.tag.isRef = true) path d k)
    (workstack : List (Cell × ℕ)) : ∃ m workstack' path', m ∈ path' ∧
      Turns mem k ((d, 0) :: workstack, path) ((m, 0) :: workstack', path') := by
  induction arrives generalizing workstack with
  | here met => exact ⟨_, _, _, met, .refl _⟩
  | @inside path d m before after k count fresh goesOn split all later ih =>
    have under : m ∈ subterms mem d := by
      rw [split]
      exact List.mem_append_right _ List.mem_cons_self
    obtain ⟨o, workstack', path', met, run⟩ := ih (heap.below node m under) _
    exact ⟨o, workstack', path', met,
      (turns_inside heap node count fresh split all workstack).trans run⟩

theorem turns_closes (heap : TermHeap R mem size) (node : Node R mem d)
    (closes : Closes (subterms mem) (fun d => d.tag.isRef = true) path d k)
    (workstack : List (Cell × ℕ)) : ∃ m workstack' path', Node R mem m ∧ m.tag.isRef = true ∧
      m ∉ path' ∧ Turns mem k ((d, 0) :: workstack, path) ((m, 0) :: workstack', path') := by
  induction closes generalizing workstack with
  | here fresh closed => exact ⟨_, _, _, node, closed, fresh, .refl _⟩
  | @inside path d m before after k count fresh goesOn split all later ih =>
    have under : m ∈ subterms mem d := by
      rw [split]
      exact List.mem_append_right _ List.mem_cons_self
    obtain ⟨o, workstack', path', isNode, isRef, new, run⟩ := ih (heap.below node m under) _
    exact ⟨o, workstack', path', isNode, isRef, new,
      (turns_inside heap node count fresh split all workstack).trans run⟩

theorem start_apart {m : Cell} (node : Node R mem m) :
    m ∉ (if value mem t = t then ∅ else {t} : Finset Cell) := by
  split_ifs with isValue
  · exact Finset.notMem_empty m
  · rw [Finset.mem_singleton]
    rintro rfl
    exact isValue (value_eq node.derefs)

theorem turns_start (heap : TermHeap R mem size) (term : TermOf R mem t) :
    Turns mem (if value mem t = t then 0 else 1) ([(t, 0)], ∅)
      ([(value mem t, 0)], if value mem t = t then ∅ else {t}) := by
  obtain ⟨derefs, node⟩ := heap.value_node term
  split_ifs with isValue
  · rw [isValue]
    exact .refl _
  · have isRef : t.tag.isRef = true := by
      by_contra other
      exact isValue (value_eq (derefs_value (Bool.eq_false_iff.2 other)))
    obtain ⟨n, found⟩ := derefs
    refine .step ⟨n, ?_⟩ (.refl ([(value mem t, 0)], {t}))
    dsimp only at found ⊢
    cases tag : t.tag with
    | REF => simp [cyclicTurn, tag, found, isValue]
    | RFW => simp [cyclicTurn, tag, found, isValue]
    | _ =>
      rw [tag] at isRef
      exact nomatch isRef

theorem finds_arrived (heap : TermHeap R mem size) (term : TermOf R mem t)
    (arrives : Arrives (subterms mem) (fun d => d.tag.isRef = true)
      (if value mem t = t then ∅ else {t}) (value mem t) k) :
    Finds (fun n => cyclicTerm mem n t)
      (decide (k + (if value mem t = t then 0 else 1) < 20)) := by
  obtain ⟨m, workstack, path, met, run⟩ :=
    turns_arrives heap (heap.value_node term).2 arrives []
  have found := ((turns_start heap term).trans run).answers (turn_met met) 20
  rwa [Bool.and_true, Nat.add_comm] at found

theorem cyclic_of_arrives (heap : TermHeap R mem size) (term : TermOf R mem t)
    (arrives : Arrives (subterms mem) (fun d => d.tag.isRef = true)
      (if value mem t = t then ∅ else {t}) (value mem t) k) : Cyclic mem t := by
  rcases arrives.found with repeats | ⟨p, above, reach⟩
  · exact repeats
  · exact absurd above (start_apart (heap.reaches (heap.value_node term).2 reach))

theorem finds_cyclicTerm (heap : TermHeap R mem size) (term : TermOf R mem t) :
    ∃ b, Finds (fun n => cyclicTerm mem n t) b ∧ (b = true ↔ FoundInTime mem t) ∧
      (b = true → Cyclic mem t) := by
  obtain ⟨-, node⟩ := heap.value_node term
  have start := turns_start heap term
  have answer : ∃ b, Finds (fun n => cyclicTerm mem n t) b ∧
      (b = true → FoundInTime mem t ∧ Cyclic mem t) := by
    have ends := @passes_or_ends _ _ (subterms mem) (fun d => d.tag.isRef = true) _ _
      (fun n good => heap.below good) (fun n good => heap.finite good)
      (if value mem t = t then ∅ else {t}) _ node
    rcases ends with ⟨k, passes⟩ | ⟨k, arrives⟩ | ⟨k, closes⟩
    · have run := start.trans (turns_passes heap node passes [])
      exact ⟨false, run.ends 20, nofun⟩
    · refine ⟨_, finds_arrived heap term arrives, fun inTime => ⟨⟨k, arrives, ?_⟩, ?_⟩⟩
      · exact of_decide_eq_true inTime
      · exact cyclic_of_arrives heap term arrives
    · obtain ⟨m, workstack, path, isNode, isRef, fresh, run⟩ := turns_closes heap node closes []
      refine ⟨_, (start.trans run).answers (turn_var isNode isRef fresh) 20, fun inTime => ?_⟩
      rw [Bool.and_false] at inTime
      exact nomatch inTime
  obtain ⟨b, found, right⟩ := answer
  refine ⟨b, found, ⟨fun yes => (right yes).1, ?_⟩, fun yes => (right yes).2⟩
  rintro ⟨k, arrives, inTime⟩
  have early := finds_arrived heap term arrives
  rw [decide_eq_true inTime] at early
  exact found.unique (cyclicLoop_lasting 20 [(t, 0)] ∅) early

/-- `cyclic_term` and `acyclic_term` are right about a term just when it has no cycle, or has one
that the search comes to before its turns are used up and before an unbound variable. -/
theorem cyclic_term_decides_iff (heap : TermHeap R mem size) (term : TermOf R mem t) :
    Decides mem t ↔ ¬ Cyclic mem t ∨ FoundInTime mem t := by
  obtain ⟨b, found, inTime, sound⟩ := finds_cyclicTerm heap term
  have lasting : Lasting fun n => cyclicTerm mem n t := cyclicLoop_lasting 20 [(t, 0)] ∅
  have found' : Finds (fun n => acyclicTerm mem n t) (!b) := by
    obtain ⟨n, found⟩ := found
    exact ⟨n, congrArg (Option.map (!·)) found⟩
  constructor
  · rintro ⟨cyclic, acyclic, first, -, right, -⟩
    have same : cyclic = b := first.unique lasting found
    by_cases isCyclic : Cyclic mem t
    · exact .inr (inTime.1 (same ▸ right.2 isCyclic))
    · exact .inl isCyclic
  · intro holds
    have right : b = true ↔ Cyclic mem t := by
      refine ⟨sound, fun isCyclic => ?_⟩
      rcases holds with notCyclic | early
      · exact absurd isCyclic notCyclic
      · exact inTime.2 early
    refine ⟨b, !b, found, found', right, ?_⟩
    rw [Bool.not_eq_true', ← right, Bool.not_eq_true]

end Answer
section Samples

/-- `T = f(Y, T)` from cell 0 on, and `S = g(S)` from cell 3 on -/
def sample : ℕ → Cell
  | 0 => Cell.conOfName (Cell.ascii "f") 2
  | 1 => Cell.make .REF 1
  | 2 => Cell.make .STR 0
  | 3 => Cell.conOfName (Cell.ascii "g") 1
  | 4 => Cell.make .STR 3
  | _ => Cell.make .INT 0

def sampleRegions : Regions := ⟨{1, 2, 4}, {0, 3}, ∅⟩

theorem sample_str {x : ℕ} (here : x = 0 ∨ x = 3) :
    TermOf sampleRegions sample (Cell.make .STR x) := by
  refine ⟨⟨?_, ?_, ?_, ?_⟩, ?_⟩ <;> rw [Cell.tag_make]
  · exact ⟨nofun, nofun⟩
  · exact nofun
  · rintro -
    obtain rfl | rfl := here
    · exact .inl (by decide)
    · exact .inr (by decide)
  · exact nofun
  · exact nofun

theorem sample_var : TermOf sampleRegions sample (Cell.make .REF 1) := by
  refine ⟨⟨?_, ?_, ?_, ?_⟩, ?_⟩ <;> rw [Cell.tag_make]
  · exact ⟨nofun, nofun⟩
  · rintro -
    exact .inl (by decide)
  · exact nofun
  · exact nofun
  · exact nofun

theorem sample_term : ∀ x ∈ sampleRegions.terms, TermOf sampleRegions sample (sample x) := by
  rintro x (rfl | rfl | rfl)
  · exact sample_var
  · exact sample_str (.inl rfl)
  · exact sample_str (.inr rfl)

theorem sample_derefs : ∀ x ∈ sampleRegions.terms, Derefs sample (sample x) (sample x) := by
  rintro x (rfl | rfl | rfl)
  · exact derefs_var ⟨by decide, by decide⟩
  · exact derefs_value (by decide)
  · exact derefs_value (by decide)

theorem sample_heap : TermHeap sampleRegions sample 5 where
  wf := {
    cells := fun x inside => (sample_term x inside).isTerm
    ends := fun x inside => ⟨_, sample_derefs x inside⟩
    functors := by
      rintro x (rfl | rfl)
      · refine ⟨by decide, by decide, fun i small => ?_⟩
        have two : (sample 0).arity = 2 := by decide
        rw [two] at small
        interval_cases i
        · exact .inl rfl
        · exact .inr (.inl rfl)
      · refine ⟨by decide, by decide, fun i small => ?_⟩
        have one : (sample 3).arity = 1 := by decide
        rw [one] at small
        interval_cases i
        exact .inr (.inr rfl)
    data := fun x inside => absurd inside (Set.notMem_empty x) }
  plain := fun x inside => (sample_term x inside).plain

theorem sample_under {x y : ℕ} (functor_ : x = 0 ∨ x = 3) (i : ℕ) (place : y = x + i + 1)
    (small : i < (sample x).arity) (term : y ∈ sampleRegions.terms) :
    sample y ∈ subterms sample (Cell.make .STR x) := by
  have index : (Cell.make .STR x).index = x := Cell.value_make_of_lt .STR (by omega)
  have small' : i < (sample (Cell.make .STR x).index).arity := by rwa [index]
  have found := getElem?_subterms (Cell.tag_make .STR x) small'
  rw [index, ← place, value_eq (sample_derefs y term)] at found
  exact List.mem_of_getElem? found

/-- The search is right about `S = g(S)`. -/
theorem cyclic_term_finds_g : Decides sample (Cell.make .STR 3) := by
  have same : value sample (Cell.make .STR 3) = Cell.make .STR 3 :=
    value_eq (derefs_value (by decide))
  have under := sample_under (y := 4) (.inr rfl) 0 rfl (by decide) (.inr (.inr rfl))
  refine (cyclic_term_decides_iff sample_heap (sample_str (.inr rfl))).2 (.inr ⟨1, ?_, ?_⟩)
  · rw [same, if_pos rfl]
    have one : subterms sample (Cell.make .STR 3) = [] ++ Cell.make .STR 3 :: [] := by
      have length : (subterms sample (Cell.make .STR 3)).length = 1 := length_subterms rfl
      obtain ⟨m, only⟩ := List.length_eq_one_iff.1 length
      rw [only, List.mem_singleton] at under
      rw [only, ← under]
      rfl
    exact .inside (fun _ => 0) (Finset.notMem_empty _) (by decide) one
      (fun _ inside => nomatch inside) (.here (Finset.mem_insert_self _ _))
  · rw [same, if_pos rfl]
    decide

/-- In `T = f(Y, T)` the search gives up at the variable, although the term is cyclic. -/
theorem cyclic_term_misses_f : TermHeap sampleRegions sample 5 ∧
    TermOf sampleRegions sample (Cell.make .STR 0) ∧ Cyclic sample (Cell.make .STR 0) ∧
    ¬ Decides sample (Cell.make .STR 0) := by
  have same : value sample (Cell.make .STR 0) = Cell.make .STR 0 :=
    value_eq (derefs_value (by decide))
  have isCyclic : Cyclic sample (Cell.make .STR 0) := by
    have under := sample_under (y := 2) (.inl rfl) 1 rfl (by decide) (.inr (.inl rfl))
    refine ⟨Cell.make .STR 0, ?_, .single under⟩
    rw [same]
  refine ⟨sample_heap, sample_str (.inl rfl), isCyclic, ?_⟩
  rintro ⟨cyclic, acyclic, found, -, right, -⟩
  have answer : Finds (fun n => cyclicTerm sample n (Cell.make .STR 0)) false := ⟨5, by decide⟩
  have no := found.unique (cyclicLoop_lasting 20 _ ∅) answer
  rw [no] at right
  exact nomatch right.2 isCyclic

end Samples


end Epilog.Interp.CyclicTerm
