/- Module: Epilog/Common/TermIterator
   source: src/src/common/term_env.hpp (term_dfs_iterator, is_ground)
   digest: The depth-first iterator over a term, and the order in which it visits subterms. -/

import Epilog.Common.TermWalk

set_option autoImplicit false

namespace Epilog.Common.TermIterator

open Epilog.Common.Term Epilog.Common.TermWalk Epilog.Lib.Fuel Epilog.Lib.Run

section Model

variable (mem : ℕ → Cell)

structure DfsPos where
  parent : Cell
  index : ℕ
  arity : ℕ

/-- `term_dfs_iterator`, with the back of the stack in front -/
structure DfsIterator where
  elem : Cell
  stack : List DfsPos

/-- The loop of `first_of`. A structure whose functor is no constant throws. -/
def descend : ℕ → Cell → List DfsPos → Option DfsIterator
  | 0, _, _ => none
  | n + 1, p, stack =>
    if p.tag = .STR then do
      let f ← functor mem p
      if 0 < f.arity then do
        let q ← arg mem n p 0
        descend n q (⟨p, 0, f.arity⟩ :: stack)
      else return ⟨p, stack⟩
    else some ⟨p, stack⟩

def firstOf (fuel : ℕ) (t : Cell) (stack : List DfsPos) : Option DfsIterator := do
  let p ← deref mem fuel t
  descend mem fuel p stack

def advance (fuel : ℕ) (it : DfsIterator) : Option DfsIterator :=
  match it.stack with
  | [] => some ⟨noTerm, []⟩
  | pos :: rest =>
    let newIndex := pos.index + 1
    if newIndex = pos.arity then some ⟨pos.parent, rest⟩
    else do
      let a ← arg mem fuel pos.parent newIndex
      firstOf mem fuel a ({ pos with index := newIndex } :: rest)

/-- `operator ==` with the end of the iteration -/
def DfsIterator.isEnd (it : DfsIterator) : Bool := it.elem = noTerm ∧ it.stack.length = 0

/-- The elements from an iterator up to the end -/
def iterate : ℕ → DfsIterator → Option (List Cell)
  | 0, _ => none
  | n + 1, it =>
    if it.isEnd then some []
    else do
      let next ← advance mem n it
      let rest ← iterate n next
      return it.elem :: rest

/-- `iterate_over`, from `begin` to `end` -/
def visits (fuel : ℕ) (t : Cell) : Option (List Cell) := do
  let first ← firstOf mem fuel t []
  iterate mem fuel first

/-- The loop of `is_ground` -/
def groundFrom : ℕ → DfsIterator → Option Bool
  | 0, _ => none
  | n + 1, it =>
    if it.isEnd then some true
    else if it.elem.tag.isRef then some false
    else do
      let next ← advance mem n it
      groundFrom n next

def isGround (fuel : ℕ) (t : Cell) : Option Bool := do
  let first ← firstOf mem fuel t []
  groundFrom mem fuel first

end Model

section Order

variable (mem : ℕ → Cell)

/-- The occurrences of subterms in post-order: those in the arguments from left to right, and then
the term itself. -/
inductive PostOrder : Cell → List Cell → Prop
  | leaf {t p : Cell} (value : Finds (fun n => deref mem n t) p) (notStr : p.tag ≠ .STR) :
      PostOrder t [p]
  | node {t p f : Cell} {ls : List (List Cell)} (value : Finds (fun n => deref mem n t) p)
      (isStr : p.tag = .STR) (atFunctor : functor mem p = some f) (length : ls.length = f.arity)
      (each : ∀ i l, ls[i]? = some l → PostOrder (mem (p.index + i + 1)) l) :
      PostOrder t (ls.flatten ++ [p])

/-- The iteration visits every occurrence once and in order, and `is_ground` tells whether there is
no unbound variable among them. -/
def Complete (t : Cell) : Prop :=
  (∃ l, PostOrder mem t l ∧ Finds (fun n => visits mem n t) l) ∧
    ∃ ground, Finds (fun n => isGround mem n t) ground ∧
      (ground = true ↔ ¬ ∃ v, Within mem v t ∧ v.tag.isRef = true)

end Order

section Fueled

variable {mem : ℕ → Cell}

theorem descend_lasting (p : Cell) (stack : List DfsPos) :
    Lasting fun n => descend mem n p stack := by
  refine lasting_of_succ fun n => ?_
  induction n generalizing p stack with
  | zero => exact fun _ found => nomatch found
  | succ n ih =>
    intro it found
    unfold descend at found ⊢
    split_ifs at found ⊢ with isStr
    · obtain ⟨f, atFunctor, found⟩ := Option.bind_eq_some_iff.1 found
      refine Option.bind_eq_some_iff.2 ⟨f, atFunctor, ?_⟩
      split_ifs at found ⊢ with args
      · obtain ⟨q, first, found⟩ := Option.bind_eq_some_iff.1 found
        exact Option.bind_eq_some_iff.2
          ⟨q, arg_lasting mem p 0 n (n + 1) q (Nat.le_succ n) first, ih q _ it found⟩
      · exact found
    · exact found

theorem firstOf_lasting (t : Cell) (stack : List DfsPos) :
    Lasting fun n => firstOf mem n t stack :=
  (deref_lasting mem t).bind fun p => descend_lasting p stack

theorem advance_lasting (it : DfsIterator) : Lasting fun n => advance mem n it := by
  unfold advance
  cases it.stack with
  | nil => exact .const _
  | cons pos rest =>
    exact .ite (.const _) ((arg_lasting mem _ _).bind fun a => firstOf_lasting a _)

theorem iterate_lasting (it : DfsIterator) : Lasting fun n => iterate mem n it := by
  refine lasting_of_succ fun n => ?_
  induction n generalizing it with
  | zero => exact fun _ found => nomatch found
  | succ n ih =>
    intro l found
    unfold iterate at found ⊢
    split_ifs at found ⊢
    · exact found
    · obtain ⟨next, step, found⟩ := Option.bind_eq_some_iff.1 found
      obtain ⟨rest, later, found⟩ := Option.bind_eq_some_iff.1 found
      exact Option.bind_eq_some_iff.2 ⟨next, advance_lasting it n _ next (Nat.le_succ n) step,
        Option.bind_eq_some_iff.2 ⟨rest, ih next rest later, found⟩⟩

theorem visits_lasting (t : Cell) : Lasting fun n => visits mem n t :=
  (firstOf_lasting t []).bind iterate_lasting

theorem finds_firstOf_value {t p : Cell} {stack : List DfsPos} {it : DfsIterator}
    (value : Finds (fun n => deref mem n t) p) (found : Finds (fun n => firstOf mem n t stack) it) :
    Finds (fun n => firstOf mem n p stack) it := by
  obtain ⟨n, found⟩ := found
  obtain ⟨q, chain, found⟩ := Option.bind_eq_some_iff.1 found
  have same : q = p := Finds.unique (deref_lasting mem t) ⟨n, chain⟩ value
  subst same
  exact finds_bind (deref_lasting mem q) (descend_lasting q stack)
    (finds_deref_self (deref_end chain)) ⟨n, found⟩

end Fueled
section Walks

variable {mem : ℕ → Cell} {t p : Cell} {l : List Cell}

/-- From one position on to another, and what is visited before it -/
inductive Walks (mem : ℕ → Cell) : DfsIterator → List Cell → DfsIterator → Prop
  | refl {it : DfsIterator} : Walks mem it [] it
  | step {it next it' : DfsIterator} {l : List Cell} (going : it.isEnd = false)
      (advances : Finds (fun n => advance mem n it) next) (rest : Walks mem next l it') :
      Walks mem it (it.elem :: l) it'

theorem Walks.trans {it it' it'' : DfsIterator} {l l' : List Cell} (first : Walks mem it l it')
    (later : Walks mem it' l' it'') : Walks mem it (l ++ l') it'' := by
  induction first with
  | refl => exact later
  | step going advances _ ih => exact .step going advances (ih later)

theorem Walks.iterate {it it' : DfsIterator} {l rest : List Cell} (walks : Walks mem it l it')
    (found : Finds (fun n => iterate mem n it') rest) :
    Finds (fun n => TermIterator.iterate mem n it) (l ++ rest) := by
  induction walks with
  | refl => exact found
  | @step it next _ _ going advances _ ih =>
    obtain ⟨n, advances⟩ := advances
    obtain ⟨m, found⟩ := ih found
    refine ⟨max n m + 1, ?_⟩
    dsimp only
    rw [TermIterator.iterate, if_neg (by rw [going]; exact Bool.false_ne_true)]
    exact Option.bind_eq_some_iff.2
      ⟨next, advance_lasting it n _ next (le_max_left n m) advances, Option.bind_eq_some_iff.2
        ⟨_, iterate_lasting next m _ _ (le_max_right n m) found, rfl⟩⟩

theorem isEnd_cons (c : Cell) (pos : DfsPos) (stack : List DfsPos) :
    (⟨c, pos :: stack⟩ : DfsIterator).isEnd = false := by
  rw [DfsIterator.isEnd, decide_eq_false_iff_not]
  rintro ⟨_, empty⟩
  exact nomatch empty

theorem finds_arg {i : ℕ} {v : Cell} (isStr : p.tag = .STR)
    (value : Finds (fun n => deref mem n (mem (p.index + i + 1))) v) :
    Finds (fun n => arg mem n p i) v :=
  finds_bind (deref_lasting mem p) (deref_lasting mem _) (finds_deref_str isStr) value

theorem PostOrder.value (order : PostOrder mem t l) :
    ∃ p init, Finds (fun n => deref mem n t) p ∧ l = init ++ [p] := by
  cases order with
  | leaf value _ => exact ⟨_, [], value, rfl⟩
  | node value _ _ _ _ => exact ⟨_, _, value, rfl⟩

theorem PostOrder.walks (order : PostOrder mem t l) (stack : List DfsPos) :
    ∃ p init it, Finds (fun n => deref mem n t) p ∧ l = init ++ [p] ∧
      Finds (fun n => firstOf mem n t stack) it ∧ Walks mem it init ⟨p, stack⟩ := by
  induction order generalizing stack with
  | @leaf t p value notStr =>
    refine ⟨p, [], ⟨p, stack⟩, value, rfl, ?_, .refl⟩
    refine finds_bind (deref_lasting mem t) (descend_lasting p stack) value ⟨1, ?_⟩
    dsimp only
    rw [descend, if_neg notStr]
  | @node t p f ls value isStr atFunctor length each ih =>
    refine ⟨p, ls.flatten, ?_⟩
    -- from argument `i` on, with `k` arguments to go
    have args : ∀ k i, i + k = f.arity → 0 < k →
        ∃ it, Finds (fun n => firstOf mem n (mem (p.index + i + 1)) (⟨p, i, f.arity⟩ :: stack)) it ∧
          Walks mem it (ls.drop i).flatten ⟨p, stack⟩ := by
      intro k
      induction k with
      | zero => exact fun _ _ pos => absurd pos (lt_irrefl 0)
      | succ k ihk =>
        intro i total _
        obtain ⟨li, atI⟩ : ∃ li, ls[i]? = some li :=
          ⟨_, List.getElem?_eq_getElem (by omega)⟩
        obtain ⟨pi, init, it, valueI, shape, start, walks⟩ :=
          ih i li atI (⟨p, i, f.arity⟩ :: stack)
        refine ⟨it, start, ?_⟩
        have split : (ls.drop i).flatten = init ++ pi :: (ls.drop (i + 1)).flatten := by
          rw [List.drop_eq_getElem?_toList_append, atI, shape]
          simp
        rw [split]
        refine walks.trans ?_
        by_cases last : i + 1 = f.arity
        · have done : (ls.drop (i + 1)).flatten = [] := by
            rw [List.drop_of_length_le (by omega)]
            rfl
          rw [done]
          refine .step (isEnd_cons ..) ⟨0, ?_⟩ .refl
          exact if_pos last
        · obtain ⟨next, start', walks'⟩ := ihk (i + 1) (by omega) (by omega)
          refine .step (isEnd_cons ..) ?_ walks'
          obtain ⟨_, next', _, value', _, _⟩ := ih (i + 1) _
            (List.getElem?_eq_getElem (by omega)) []
          obtain ⟨n, found⟩ := finds_bind
            (f := fun a n => firstOf mem n a (⟨p, i + 1, f.arity⟩ :: stack))
            (arg_lasting mem p (i + 1)) (firstOf_lasting _ _) (finds_arg isStr value')
            (finds_firstOf_value value' start')
          exact ⟨n, (if_neg last).trans found⟩
    by_cases some_ : 0 < f.arity
    · obtain ⟨it, start, walks⟩ := args f.arity 0 (by omega) some_
      refine ⟨it, value, rfl, ?_, walks⟩
      obtain ⟨v, _, _, value', _, _⟩ := ih 0 _ (List.getElem?_eq_getElem (by omega)) []
      obtain ⟨k, first⟩ := finds_arg (i := 0) isStr value'
      obtain ⟨n, start⟩ := finds_firstOf_value value' start
      obtain ⟨q, self, onward⟩ := Option.bind_eq_some_iff.1 start
      have same : q = v := Finds.unique (deref_lasting mem v) ⟨n, self⟩
        (value'.elim fun _ chain => finds_deref_self (deref_end chain))
      subst same
      refine finds_bind (deref_lasting mem t) (descend_lasting p stack) value ⟨max k n + 1, ?_⟩
      dsimp only
      rw [descend, if_pos isStr, atFunctor]
      refine (if_pos some_).trans (Option.bind_eq_some_iff.2 ⟨q, ?_, ?_⟩)
      · exact arg_lasting mem p 0 k _ q (le_max_left k n) first
      · exact descend_lasting q _ n _ it (le_max_right k n) onward
    · have none_ : ls.flatten = [] := by
        rw [List.length_eq_zero_iff.1 (length.trans (by omega))]
        rfl
      refine ⟨⟨p, stack⟩, value, rfl, ?_, none_ ▸ .refl⟩
      refine finds_bind (deref_lasting mem t) (descend_lasting p stack) value ⟨1, ?_⟩
      dsimp only
      rw [descend, if_pos isStr, atFunctor]
      exact if_neg some_

end Walks

section Completeness

variable {mem : ℕ → Cell} {t : Cell} {l : List Cell}

theorem exists_postOrder (ends : Ends mem t) : ∃ l, PostOrder mem t l := by
  induction ends with
  | @node t p below here all good ih =>
    have value := finds_expandTerm_value here
    by_cases isStr : p.tag = .STR
    · have here' := finds_expandTerm_of value here
      have ends : Ends mem p := .node here' all good
      obtain ⟨f, atFunctor⟩ := ends.hasFunctor isStr
      have arguments : below = args mem p f :=
        (Prod.mk.inj (here'.unique (expandTerm_lasting mem p)
          (finds_expandTerm_str isStr atFunctor))).2
      have each : ∀ i : Fin f.arity, ∃ l, PostOrder mem (mem (p.index + i + 1)) l := fun i =>
        ih _ (arguments ▸ List.mem_map.2 ⟨i, List.mem_range.2 i.isLt, rfl⟩)
      choose ls orders using each
      have length : (List.ofFn ls).length = f.arity := List.length_ofFn
      refine ⟨_, .node value isStr atFunctor length ?_⟩
      intro i l found
      obtain ⟨small, same⟩ := List.getElem?_eq_some_iff.1 found
      rw [List.length_ofFn] at small
      rw [List.getElem_ofFn] at same
      exact same ▸ orders ⟨i, small⟩
    · exact ⟨_, .leaf value isStr⟩

theorem PostOrder.mem_iff (order : PostOrder mem t l) (v : Cell) : v ∈ l ↔ Within mem v t := by
  induction order with
  | @leaf t p value notStr =>
    have here : Finds (expandTerm mem t) (p, []) := by
      obtain ⟨n, chain⟩ := value
      refine ⟨n, Option.bind_eq_some_iff.2 ⟨p, chain, ?_⟩⟩
      exact if_neg notStr
    rw [List.mem_singleton]
    constructor
    · rintro rfl
      exact .root here
    · intro within
      cases within with
      | root found =>
        exact (Prod.mk.inj (found.unique (expandTerm_lasting mem t) here)).1
      | inside found mem' _ =>
        rw [(Prod.mk.inj (found.unique (expandTerm_lasting mem t) here)).2] at mem'
        exact nomatch mem'
  | @node t p f ls value isStr atFunctor length each ih =>
    have here : Finds (expandTerm mem t) (p, args mem p f) :=
      finds_expandTerm value (finds_expandTerm_str isStr atFunctor)
    rw [List.mem_append, List.mem_singleton, List.mem_flatten]
    constructor
    · rintro (⟨l, mem', inL⟩ | rfl)
      · obtain ⟨i, small, rfl⟩ := List.getElem_of_mem mem'
        refine .inside here (List.mem_map.2 ⟨i, List.mem_range.2 (length ▸ small), rfl⟩) ?_
        exact (ih i _ (List.getElem?_eq_getElem small)).1 inL
      · exact .root here
    · intro within
      cases within with
      | root found =>
        exact .inr (Prod.mk.inj (found.unique (expandTerm_lasting mem t) here)).1
      | inside found mem' occurs =>
        rw [(Prod.mk.inj (found.unique (expandTerm_lasting mem t) here)).2] at mem'
        obtain ⟨i, small, rfl⟩ := List.mem_map.1 mem'
        rw [List.mem_range, ← length] at small
        exact .inl ⟨_, List.getElem_mem small,
          (ih i _ (List.getElem?_eq_getElem small)).2 occurs⟩

theorem groundFrom_of_iterate {n : ℕ} {it : DfsIterator} (found : iterate mem n it = some l) :
    groundFrom mem n it = some (l.all fun c => !c.tag.isRef) := by
  induction n generalizing it l with
  | zero => exact nomatch found
  | succ n ih =>
    unfold iterate at found
    unfold groundFrom
    split_ifs at found ⊢ with ends isRef
    · rw [← Option.some.inj found]
      rfl
    · obtain ⟨next, _, found⟩ := Option.bind_eq_some_iff.1 found
      obtain ⟨rest, _, found⟩ := Option.bind_eq_some_iff.1 found
      rw [← Option.some.inj found, List.all_cons, isRef]
      rfl
    · obtain ⟨next, advances, found⟩ := Option.bind_eq_some_iff.1 found
      obtain ⟨rest, later, found⟩ := Option.bind_eq_some_iff.1 found
      rw [← Option.some.inj found, List.all_cons, Bool.eq_false_iff.2 isRef]
      exact Option.bind_eq_some_iff.2 ⟨next, advances, ih later⟩

theorem finds_isGround (found : Finds (fun n => visits mem n t) l) :
    Finds (fun n => isGround mem n t) (l.all fun c => !c.tag.isRef) := by
  obtain ⟨n, found⟩ := found
  obtain ⟨first, start, found⟩ := Option.bind_eq_some_iff.1 found
  exact ⟨n, Option.bind_eq_some_iff.2 ⟨first, start, groundFrom_of_iterate found⟩⟩

theorem PostOrder.finds_visits (order : PostOrder mem t l)
    (notEnd : ¬Finds (fun n => deref mem n t) noTerm) : Finds (fun n => visits mem n t) l := by
  obtain ⟨p, init, it, value, rfl, start, walks⟩ := order.walks []
  refine finds_bind (firstOf_lasting t []) (iterate_lasting it) start (walks.iterate ⟨2, ?_⟩)
  have going : (⟨p, []⟩ : DfsIterator).isEnd = false := by
    rw [DfsIterator.isEnd, decide_eq_false_iff_not]
    rintro ⟨isNo, _⟩
    have same : p = noTerm := isNo
    exact notEnd (same ▸ value)
  dsimp only
  rw [iterate, if_neg (by rw [going]; exact Bool.false_ne_true)]
  rfl

theorem visits_noTerm (bare : Finds (fun n => deref mem n t) noTerm) :
    Finds (fun n => visits mem n t) [] := by
  refine finds_bind (firstOf_lasting t []) (iterate_lasting ⟨noTerm, []⟩) ?_ ⟨1, rfl⟩
  refine finds_bind (deref_lasting mem t) (descend_lasting noTerm []) bare ⟨1, ?_⟩
  exact if_neg (by decide)

theorem not_complete (bare : Finds (fun n => deref mem n t) noTerm) : ¬Complete mem t := by
  rintro ⟨⟨l, order, found⟩, _⟩
  obtain ⟨p, init, _, shape⟩ := order.value
  have empty : l = [] := found.unique (visits_lasting t) (visits_noTerm bare)
  rw [empty] at shape
  exact absurd shape.symm (by simp)

/-- The iteration over a finite term is complete unless the term is just the variable in cell 0. -/
theorem iteration_complete_iff (mem : ℕ → Cell) (t : Cell) (ends : Ends mem t) :
    Complete mem t ↔ ¬Finds (fun n => deref mem n t) noTerm := by
  constructor
  · exact fun complete bare => not_complete bare complete
  · intro notEnd
    obtain ⟨l, order⟩ := exists_postOrder ends
    have found := order.finds_visits notEnd
    refine ⟨⟨l, order, found⟩, _, finds_isGround found, ?_⟩
    rw [List.all_eq_true]
    constructor
    · rintro ground ⟨v, within, isRef⟩
      have value := ground v ((order.mem_iff v).2 within)
      rw [isRef] at value
      exact nomatch value
    · intro none_ v mem'
      rw [Bool.not_eq_true']
      exact Bool.eq_false_iff.2 fun isRef => none_ ⟨v, (order.mem_iff v).1 mem', isRef⟩

def unaryMem : ℕ → Cell
  | 0 => Cell.make .STR 1
  | 1 => Cell.conOfName (Cell.ascii "f") 1
  | a => Cell.make .REF a

theorem ends_unary : Ends unaryMem (Cell.make .STR 1) := by
  have walked : forEach (ε := Empty) unaryMem (fun _ s => .ok s) 3 (Cell.make .STR 1) () =
      .ok () := by decide
  exact forEach_ends walked

theorem iteration_complete_unary : Complete unaryMem (Cell.make .STR 1) ↔
    ¬Finds (fun n => deref unaryMem n (Cell.make .STR 1)) noTerm :=
  iteration_complete_iff unaryMem (Cell.make .STR 1) ends_unary

/-- An unbound variable in cell 0 is not visited at all. -/
theorem variable_zero_missed : ∃ (mem : ℕ → Cell) (t : Cell), Ends mem t ∧ ¬Complete mem t := by
  have bare : Finds (fun n => deref (fun _ => noTerm) n noTerm) noTerm := ⟨1, rfl⟩
  exact ⟨fun _ => noTerm, noTerm, .of_noTerm bare, not_complete bare⟩

end Completeness


end Epilog.Common.TermIterator
