/- Module: Epilog/Interp/SortedSet
   source: src/src/interp/builtins.cpp (sort_2), src/src/common/term.cpp (is_list, list_length),
     src/src/common/term.hpp (new_str, new_dotted_pair)
   digest: Sorting a list of terms, and the lists that come out as strictly ordered sets. -/

import Epilog.Common.StandardOrder
import Epilog.Lib.StableSort

set_option autoImplicit false

namespace Epilog.Interp.SortedSet

open Epilog.Common.Term Epilog.Common.Term.Cell Epilog.Common.Heap Epilog.Common.TermWalk
  Epilog.Common.HeapTrees Epilog.Common.StandardOrder Epilog.Lib.Fuel Epilog.Lib.WordOrder
  Epilog.Lib.StableSort

section Source

def DOTTED_PAIR : Cell := conOfName (ascii ".") 2

variable (env : TermEnv)

def inRange (addr : ℕ) : Bool := addr < env.size

def checkFunctor (c : Cell) : Bool :=
  c.tag = .STR ∧ inRange env c.index ∧ (env.mem c.index).tag = .CON

def isListLoop : (fuel : ℕ) → Cell → Option Bool
  | 0, _ => none
  | fuel + 1, l =>
    if l = EMPTY_LIST then some true
    else if checkFunctor env l = false then some false
    else do
      let f ← functor env.mem l
      if f ≠ DOTTED_PAIR then return false
      let l ← arg env.mem fuel l 1
      isListLoop fuel l

def isList (fuel : ℕ) (c : Cell) : Option Bool := do
  let l ← deref env.mem fuel c
  isListLoop env fuel l

/-- The loop of `list_length`: what ends a list that is no proper one is counted too. -/
def listLengthLoop : (fuel : ℕ) → Cell → ℕ → Option ℕ
  | 0, _, _ => none
  | fuel + 1, lst, n =>
    if lst = EMPTY_LIST then some n
    else if lst.tag ≠ .STR then some (n + 2)
    else do
      let f ← functor env.mem lst
      if f ≠ DOTTED_PAIR then return n + 2
      let lst ← arg env.mem fuel lst 1
      listLengthLoop fuel lst (n + 1)

def listLength (fuel : ℕ) (lst : Cell) : Option ℕ := listLengthLoop env fuel lst 0

/-- The loop that reads `n` elements -/
def readElements (fuel : ℕ) : ℕ → Cell → Option (List Cell)
  | 0, _ => some []
  | n + 1, arg0 => do
    let el ← arg env.mem fuel arg0 0
    let arg0 ← arg env.mem fuel arg0 1
    return el :: (← readElements fuel n arg0)

def newDottedPair (a b : Cell) : Cell × TermEnv :=
  let index := allocAddr env.size 4
  let pair := make .STR (index + 1)
  let mem := Function.update (Function.update (Function.update (Function.update env.mem
    index pair) (index + 1) DOTTED_PAIR) (index + 2) a) (index + 3) b
  (pair, { env with mem, size := index + 4 })

/-- The list of the elements of a vector, built from the last one -/
def buildList (vec : List Cell) : Cell × TermEnv :=
  vec.foldr (fun el r => newDottedPair r.2 el r.1) (EMPTY_LIST, env)

inductive SortError
  | notInstantiated

variable (compare : Bytes → Bytes → ℤ)

/-- The comparison that `stable_sort` gets -/
def less (fuel : ℕ) (t1 t2 : Cell) : Option Bool :=
  (standardOrder env compare fuel t1 t2).map fun v => decide (v < 0)

/-- `sort_2` up to the list that it unifies with its second argument -/
def sort_2 (fuel : ℕ) (arg0 : Cell) : Option (Except SortError (Cell × TermEnv)) :=
  if arg0.tag.isRef then some (.error .notInstantiated)
  else do
    let proper ← isList env fuel arg0
    if proper = false then return .error .notInstantiated
    let n ← listLength env fuel arg0
    let vec ← readElements env fuel n arg0
    let vec ← stableSort (less env compare fuel) vec
    return .ok (buildList env (unique vec))

end Source

section Specification

/-- A proper list with its elements, and the heap has room for the variables among these. -/
inductive ProperList (env : TermEnv) : Cell → List Cell → Prop
  | nil : ProperList env EMPTY_LIST []
  | cons {l el tail : Cell} {els : List Cell} (isStr : l.tag = .STR) (inside : l.index < env.size)
      (atFunctor : env.mem l.index = DOTTED_PAIR)
      (head : Derefs env.mem (env.mem (l.index + 1)) el)
      (known : el.tag.isRef = true → el.index < env.size)
      (next : Derefs env.mem (env.mem (l.index + 2)) tail) (rest : ProperList env tail els) :
      ProperList env l (el :: els)

variable (env : TermEnv) (compare : Bytes → Bytes → ℤ)

/-- A list of terms is strictly ascending, with a term equal to each of those given and no others,
and none twice. -/
structure StrictSet (els s : List Cell) : Prop where
  ascending : s.Pairwise fun a b => ∃ v, Finds (fun n => standardOrder env compare n a b) v ∧ v < 0
  once : s.Pairwise fun a b => Finds (fun n => equal env n a b) false
  complete : ∀ d ∈ els, ∃ x ∈ s, Finds (fun n => equal env n x d) true
  sound : ∀ x ∈ s, ∃ d ∈ els, Finds (fun n => equal env n x d) true

/-- `sort_2` gives a proper list that is such a set. -/
def Sorts (l : Cell) (els : List Cell) : Prop :=
  ∃ r env' s, Finds (fun n => sort_2 env compare n l) (.ok (r, env')) ∧ ProperList env' r s ∧
    StrictSet env compare els s

/-- Two terms differ, and at the first place where they do there are different values: not two
bignums of the same value, nor two constants or functors of the same name and arity. -/
def Differ (a b : Cell) : Prop :=
  ∃ w v l l', Spells env.mem [a] w ∧ Spells env.mem [b] v ∧ firstDiff w v = some (l, l') ∧
    l.key env ≠ l'.key env

end Specification

section Reading

variable {env : TermEnv} {l : Cell} {els : List Cell}

theorem ProperList.notRef (proper : ProperList env l els) : l.tag.isRef = false := by
  cases proper with
  | nil => decide
  | cons isStr => exact str_not_ref isStr

theorem ProperList.notEmpty {el : Cell} (proper : ProperList env l (el :: els)) :
    l ≠ EMPTY_LIST := by
  rintro rfl
  cases proper with
  | cons isStr => exact absurd isStr (by decide)

theorem ProperList.unique {els' : List Cell} (first : ProperList env l els)
    (second : ProperList env l els') : els = els' := by
  induction first generalizing els' with
  | nil =>
    cases second with
    | nil => rfl
    | cons isStr => exact absurd isStr (by decide)
  | cons isStr inside atFunctor head known next rest ih =>
    cases second with
    | nil => exact absurd isStr (by decide)
    | cons _ _ _ head' _ next' rest' =>
      obtain rfl := next.unique next'
      rw [head.unique head', ih rest']

theorem ProperList.first {el : Cell} (proper : ProperList env l (el :: els)) :
    functor env.mem l = some DOTTED_PAIR ∧ checkFunctor env l = true ∧
      Finds (fun n => arg env.mem n l 0) el ∧
      ∃ tail, Finds (fun n => arg env.mem n l 1) tail ∧ ProperList env tail els := by
  cases proper with
  | cons isStr inside atFunctor head known next rest =>
    have isCon : (env.mem l.index).tag = .CON := by
      rw [atFunctor]
      decide
    refine ⟨?_, ?_, ?_, _, ?_, rest⟩
    · unfold functor
      rw [if_pos isCon, atFunctor]
    · exact decide_eq_true ⟨isStr, decide_eq_true inside, isCon⟩
    · exact finds_bind (deref_lasting _ _) (deref_lasting _ _) (finds_deref_str isStr) head
    · exact finds_bind (deref_lasting _ _) (deref_lasting _ _) (finds_deref_str isStr) next

theorem isListLoop_lasting (l : Cell) : Lasting fun n => isListLoop env n l := by
  refine lasting_of_succ fun n => ?_
  induction n generalizing l with
  | zero => exact fun _ found => nomatch found
  | succ n ih =>
    intro a found
    unfold isListLoop at found ⊢
    split_ifs at found ⊢
    · exact found
    · exact found
    · obtain ⟨f, atFunctor, found⟩ := Option.bind_eq_some_iff.1 found
      refine Option.bind_eq_some_iff.2 ⟨f, atFunctor, ?_⟩
      split_ifs at found ⊢
      · exact found
      · obtain ⟨l', next, found⟩ := Option.bind_eq_some_iff.1 found
        exact Option.bind_eq_some_iff.2
          ⟨l', arg_lasting env.mem l 1 n _ l' n.le_succ next, ih l' a found⟩

theorem listLengthLoop_lasting (l : Cell) (k : ℕ) : Lasting fun n => listLengthLoop env n l k := by
  refine lasting_of_succ fun n => ?_
  induction n generalizing l k with
  | zero => exact fun _ found => nomatch found
  | succ n ih =>
    intro a found
    unfold listLengthLoop at found ⊢
    split_ifs at found ⊢
    · exact found
    · exact found
    · obtain ⟨f, atFunctor, found⟩ := Option.bind_eq_some_iff.1 found
      refine Option.bind_eq_some_iff.2 ⟨f, atFunctor, ?_⟩
      split_ifs at found ⊢
      · exact found
      · obtain ⟨l', next, found⟩ := Option.bind_eq_some_iff.1 found
        exact Option.bind_eq_some_iff.2
          ⟨l', arg_lasting env.mem l 1 n _ l' n.le_succ next, ih l' (k + 1) a found⟩

theorem readElements_lasting (k : ℕ) (l : Cell) : Lasting fun n => readElements env n k l := by
  induction k generalizing l with
  | zero => exact .const _
  | succ k ih =>
    exact (arg_lasting env.mem l 0).bind fun el => (arg_lasting env.mem l 1).bind fun rest =>
      (ih rest).bind fun _ => .const _

theorem finds_isList (proper : ProperList env l els) : Finds (fun n => isList env n l) true := by
  refine finds_bind (deref_lasting _ _) (isListLoop_lasting l) (derefs_value proper.notRef) ?_
  induction els generalizing l with
  | nil =>
    cases proper
    exact ⟨1, rfl⟩
  | cons el els ih =>
    obtain ⟨atFunctor, checked, -, tail, next, rest⟩ := proper.first
    obtain ⟨n, next⟩ := next
    obtain ⟨m, later⟩ := ih rest
    refine ⟨max n m + 1, ?_⟩
    have next' := arg_lasting env.mem l 1 n _ _ (le_max_left n m) next
    have later' := isListLoop_lasting tail m _ _ (le_max_right n m) later
    dsimp only at next' later' ⊢
    unfold isListLoop
    rw [if_neg proper.notEmpty, if_neg (by rw [checked]; decide), atFunctor]
    exact Option.bind_eq_some_iff.2 ⟨_, rfl, Option.bind_eq_some_iff.2 ⟨_, next', later'⟩⟩

theorem finds_listLength (proper : ProperList env l els) (k : ℕ) :
    Finds (fun n => listLengthLoop env n l k) (k + els.length) := by
  induction els generalizing l k with
  | nil =>
    cases proper
    exact ⟨1, rfl⟩
  | cons el els ih =>
    obtain ⟨atFunctor, -, -, tail, next, rest⟩ := proper.first
    have isStr : l.tag = .STR := by
      cases proper with
      | cons isStr => exact isStr
    obtain ⟨n, next⟩ := next
    obtain ⟨m, later⟩ := ih rest (k + 1)
    refine ⟨max n m + 1, ?_⟩
    have next' := arg_lasting env.mem l 1 n _ _ (le_max_left n m) next
    have later' := listLengthLoop_lasting tail (k + 1) m _ _ (le_max_right n m) later
    dsimp only at next' later' ⊢
    unfold listLengthLoop
    rw [if_neg proper.notEmpty, if_neg (not_not.2 isStr), atFunctor,
      show k + (el :: els).length = k + 1 + els.length by rw [List.length_cons]; omega]
    exact Option.bind_eq_some_iff.2 ⟨_, rfl, Option.bind_eq_some_iff.2 ⟨_, next', later'⟩⟩

theorem finds_readElements (proper : ProperList env l els) :
    Finds (fun n => readElements env n els.length l) els := by
  induction els generalizing l with
  | nil => exact ⟨0, rfl⟩
  | cons el els ih =>
    obtain ⟨-, -, head, tail, next, rest⟩ := proper.first
    have others (tail : Cell) : Lasting fun n => (readElements env n els.length tail).bind
        fun els => some (el :: els) := (readElements_lasting _ tail).bind fun _ => .const _
    refine finds_bind (arg_lasting env.mem l 0)
      ((arg_lasting env.mem l 1).bind fun tail => others tail) head ?_
    refine finds_bind (arg_lasting env.mem l 1) (others tail) next ?_
    exact finds_bind (readElements_lasting _ tail) (.const _) (ih rest) ⟨0, rfl⟩

end Reading

section Building

variable {env env' : TermEnv} {a b : Cell} {vec : List Cell}

theorem newDottedPair_ok (fits : env.size + 8 ≤ 2 ^ 61) :
    ∃ x, env.size ≤ x ∧ x + 4 ≤ env.size + 8 ∧ (newDottedPair env a b).1 = make .STR (x + 1) ∧
      (newDottedPair env a b).1.index = x + 1 ∧ (newDottedPair env a b).2.size = x + 4 ∧
      (newDottedPair env a b).2.mem (x + 1) = DOTTED_PAIR ∧
      (newDottedPair env a b).2.mem (x + 2) = a ∧ (newDottedPair env a b).2.mem (x + 3) = b ∧
      ∀ y < env.size, (newDottedPair env a b).2.mem y = env.mem y := by
  have above := le_allocAddr env.size 4
  have near : allocAddr env.size 4 ≤ env.size + 4 := by
    unfold allocAddr BLOCK_SIZE
    split_ifs <;> omega
  refine ⟨allocAddr env.size 4, above, by omega, rfl, value_make_of_lt _ (by omega), rfl, ?_, ?_,
    ?_, fun y below => ?_⟩
  · unfold newDottedPair
    dsimp only
    rw [Function.update_of_ne (by omega), Function.update_of_ne (by omega), Function.update_self]
  · unfold newDottedPair
    dsimp only
    rw [Function.update_of_ne (by omega), Function.update_self]
  · unfold newDottedPair
    exact Function.update_self _ _ _
  · unfold newDottedPair
    dsimp only
    rw [Function.update_of_ne (by omega), Function.update_of_ne (by omega),
      Function.update_of_ne (by omega), Function.update_of_ne (by omega)]

/-- The values that a list may have for elements: variables among them are on the heap. -/
def Element (env : TermEnv) (a : Cell) : Prop :=
  a.tag.isRef = true → a.index < env.size ∧ env.mem a.index = a

theorem buildList_ok (fits : env.size + 8 * vec.length ≤ 2 ^ 61)
    (known : ∀ a ∈ vec, Element env a) :
    env.size ≤ (buildList env vec).2.size ∧
      (buildList env vec).2.size ≤ env.size + 8 * vec.length ∧
      (∀ y < env.size, (buildList env vec).2.mem y = env.mem y) ∧
      ∀ env', (buildList env vec).2.size ≤ env'.size →
        (∀ y < (buildList env vec).2.size, env'.mem y = (buildList env vec).2.mem y) →
        ProperList env' (buildList env vec).1 vec := by
  induction vec with
  | nil => exact ⟨le_rfl, le_rfl, fun _ _ => rfl, fun _ _ _ => .nil⟩
  | cons a vec ih =>
    rw [List.length_cons] at fits
    obtain ⟨grows, small, keeps, built⟩ := ih (by omega) fun b inside =>
      known b (List.mem_cons_of_mem a inside)
    rw [buildList, List.foldr_cons]
    rw [buildList] at grows small keeps built
    generalize vec.foldr (fun el r => newDottedPair r.2 el r.1) (EMPTY_LIST, env) = r at *
    obtain ⟨x, low, high, pair, index, size, functor, first, second, same⟩ :=
      @newDottedPair_ok r.2 a r.1 (by omega)
    refine ⟨by omega, by rw [List.length_cons]; omega, fun y below => ?_, ?_⟩
    · rw [same y (by omega), keeps y below]
    · intro env' larger agrees
      have tail : ProperList env' r.1 vec := built env' (by omega) fun y below => by
        rw [agrees y (by omega), same y below]
      have derefs : Derefs env'.mem a a := by
        refine finds_deref_self fun isRef => ?_
        obtain ⟨inside, own⟩ := known a List.mem_cons_self isRef
        rw [agrees _ (by omega), same _ (by omega), keeps _ inside, own]
      refine .cons (by rw [pair]; exact tag_make _ _) (by omega) ?_ ?_ ?_ ?_ tail
      · rw [index, agrees _ (by omega), functor]
      · rw [index, agrees _ (by omega), first]
        exact derefs
      · intro isRef
        have inside := (known a List.mem_cons_self isRef).1
        omega
      · rw [index, agrees _ (by omega), second]
        exact derefs_value tail.notRef

theorem properList_buildList (fits : env.size + 8 * vec.length ≤ 2 ^ 61)
    (known : ∀ a ∈ vec, Element env a) :
    ProperList (buildList env vec).2 (buildList env vec).1 vec :=
  (buildList_ok fits known).2.2.2 _ le_rfl fun _ _ => rfl

theorem ProperList.elements {l : Cell} {els : List Cell} (proper : ProperList env l els) :
    ∀ a ∈ els, Element env a := by
  induction proper with
  | nil => nofun
  | cons isStr inside atFunctor head known next rest ih =>
    refine List.forall_mem_cons.2 ⟨fun isRef => ⟨known isRef, ?_⟩, ih⟩
    obtain ⟨n, found⟩ := head
    exact deref_end found isRef

end Building

section Comparing

variable {env : TermEnv} {compare : Bytes → Bytes → ℤ} {a b d e : Cell} {w v : List Letter}

theorem sign_orderSign {β : Type} [LinearOrder β] (x y : β) :
    (orderSign x y).sign = orderSign x y := by
  rcases orderSign_mem x y with value | value | value <;> rw [value] <;> rfl

theorem orderLetters_sign (lexicographic : ∀ x y, (compare x y).sign =
      orderSign (x.map UInt8.toNat) (y.map UInt8.toNat))
    (apart : (letterOf env.mem d).key env ≠ (letterOf env.mem e).key env) :
    (orderLetters env compare (letterOf env.mem d) (letterOf env.mem e)).sign =
      orderSign ((letterOf env.mem d).key env) ((letterOf env.mem e).key env) := by
  have cells : d ≠ e := by
    rintro rfl
    exact apart rfl
  unfold orderLetters
  unfold Letter.key at apart ⊢
  rw [orderSign_cons, letterOf_code, letterOf_code]
  by_cases codes : d.tag.code = e.tag.code
  swap
  · rw [if_pos codes, if_neg codes, ite_lt_eq codes, sign_orderSign]
  have tags := code_inj codes
  rw [if_neg (not_not.2 codes), if_pos codes]
  by_cases str : d.tag = .STR
  · rw [letterOf_str str, letterOf_str (tags ▸ str)] at apart ⊢
    have functors : env.mem d.index ≠ env.mem e.index := by
      intro same
      rw [same] at apart
      exact apart rfl
    exact functorStandardOrder_sign lexicographic functors
  by_cases big : d.tag = .BIG
  · rw [letterOf_big big, letterOf_big (tags ▸ big)]
    dsimp only
    rw [compareNumbers_eq, sign_orderSign]
  rw [letterOf_plain str big, letterOf_plain (tags ▸ str) (tags ▸ big)] at apart ⊢
  dsimp only [Letter.code] at apart ⊢
  rw [← tags] at apart ⊢
  by_cases con : d.tag = .CON
  · rw [if_pos con, if_pos con] at apart
    rw [if_pos con, if_pos con, if_pos con]
    have ranks : nameKey env d ≠ nameKey env e := fun same => apart (congrArg _ same)
    have sign : (functorStandardOrder env compare d e).sign = _ :=
      functorStandardOrder_sign lexicographic cells
    rcases lt_or_gt_of_ne ranks with less | more
    · rw [orderSign_of_lt less] at sign ⊢
      rw [if_pos (Int.sign_eq_neg_one_iff_neg.1 sign)]
      rfl
    · rw [orderSign_of_gt more] at sign ⊢
      rw [if_neg (not_lt.2 (Int.sign_eq_one_iff_pos.1 sign).le)]
      rfl
  rw [if_neg con, if_neg con, if_neg con]
  by_cases int : d.tag = .INT
  · rw [if_pos int, if_pos int, if_pos int, orderSign_intValue, ite_lt_eq (intValue_inj tags cells),
      sign_orderSign]
  · rw [if_neg int, if_neg int, if_neg int, orderSign_singleton, ite_lt_eq, sign_orderSign]
    exact fun same => cells (cell_ext tags same)

theorem orderLetters_same (lexicographic : ∀ x y, (compare x y).sign =
      orderSign (x.map UInt8.toNat) (y.map UInt8.toNat))
    (same : (letterOf env.mem d).key env = (letterOf env.mem e).key env) :
    0 ≤ orderLetters env compare (letterOf env.mem d) (letterOf env.mem e) := by
  have functors {f g : Cell} (names : nameKey env f = nameKey env g) :
      functorStandardOrder env compare f g = 0 := by
    by_cases own : f = g
    · rw [functorStandardOrder, if_pos own]
    · have sign : (functorStandardOrder env compare f g).sign = _ :=
        functorStandardOrder_sign lexicographic own
      rw [names, orderSign_self] at sign
      exact Int.sign_eq_zero_iff_zero.1 sign
  unfold Letter.key at same
  obtain ⟨codes, same⟩ := List.cons.inj same
  have tags : d.tag = e.tag := by
    rw [letterOf_code, letterOf_code] at codes
    exact code_inj codes
  unfold orderLetters
  rw [if_neg (not_not.2 codes)]
  by_cases str : d.tag = .STR
  · rw [letterOf_str str, letterOf_str (tags ▸ str)] at same ⊢
    exact (functors same).ge
  by_cases big : d.tag = .BIG
  · rw [letterOf_big big, letterOf_big (tags ▸ big)] at same ⊢
    dsimp only at same ⊢
    rw [compareNumbers_eq, same, orderSign_self]
  rw [letterOf_plain str big, letterOf_plain (tags ▸ str) (tags ▸ big)] at same ⊢
  dsimp only at same ⊢
  rw [← tags] at same
  by_cases con : d.tag = .CON
  · rw [if_pos con, if_pos con] at same
    rw [if_pos con, functors same]
    decide
  rw [if_neg con, if_neg con] at same
  rw [if_neg con]
  by_cases int : d.tag = .INT
  · rw [if_pos int, if_pos int, ← orderSign_eq_zero, orderSign_intValue, orderSign_eq_zero] at same
    rw [if_pos int, same, if_neg (lt_irrefl _)]
    decide
  · rw [if_neg int, if_neg int] at same
    rw [if_neg int, List.singleton_inj.1 same, if_neg (lt_irrefl _)]
    decide

theorem Differ.symm (differ : Differ env a b) : Differ env b a := by
  obtain ⟨w, v, l, l', spelt, spelt', found, apart⟩ := differ
  refine ⟨v, w, l', l, spelt', spelt, ?_, apart.symm⟩
  rw [firstDiff_swap w v, found]
  rfl

theorem differ_of_neg (lexicographic : ∀ x y, (compare x y).sign =
      orderSign (x.map UInt8.toNat) (y.map UInt8.toNat))
    (finite : FiniteTerm env.mem a) (finite' : FiniteTerm env.mem b) {x : ℤ}
    (found : Finds (fun n => standardOrder env compare n a b) x) (neg : x < 0) :
    Differ env a b := by
  obtain ⟨w, spelt⟩ := finite.spells
  obtain ⟨v, spelt'⟩ := finite'.spells
  obtain rfl := found.unique (order_lasting a b) (finds_order spelt spelt')
  cases first : firstDiff w v with
  | none =>
    rw [first] at neg
    exact absurd neg (lt_irrefl 0)
  | some pair =>
    obtain ⟨l, l'⟩ := pair
    rw [first, Option.elim_some] at neg
    refine ⟨w, v, l, l', spelt, spelt', first, fun same => ?_⟩
    obtain ⟨inside, inside'⟩ := firstDiff_mem first
    obtain ⟨d, -, rfl⟩ := spelt.letter l inside
    obtain ⟨e, -, rfl⟩ := spelt'.letter l' inside'
    exact absurd neg (not_lt.2 (orderLetters_same lexicographic same))

noncomputable def keyOf (env : TermEnv) (c : Cell) : List (List ℕ) :=
  open Classical in
  if spelt : ∃ w, Spells env.mem [c] w then spelt.choose.map (Letter.key env) else []

theorem keyOf_eq (spelt : Spells env.mem [a] w) : keyOf env a = w.map (Letter.key env) := by
  have some_ : ∃ w, Spells env.mem [a] w := ⟨w, spelt⟩
  unfold keyOf
  rw [dif_pos some_, some_.choose_spec.unique spelt]

theorem Differ.order (lexicographic : ∀ x y, (compare x y).sign =
      orderSign (x.map UInt8.toNat) (y.map UInt8.toNat)) (differ : Differ env a b) :
    keyOf env a ≠ keyOf env b ∧ Finds (fun n => equal env n a b) false ∧
      ∃ x, Finds (fun n => standardOrder env compare n a b) x ∧
        (x < 0 ↔ keyOf env a < keyOf env b) := by
  obtain ⟨w, v, l, l', spelt, spelt', found, apart⟩ := differ
  rw [keyOf_eq spelt, keyOf_eq spelt']
  have keys := orderSign_map (Letter.key env) found apart
  have nonzero : orderSign (w.map (Letter.key env)) (v.map (Letter.key env)) ≠ 0 := by
    rw [keys]
    exact fun zero => apart (orderSign_eq_zero.1 zero)
  have order : Finds (fun n => standardOrder env compare n a b) _ := finds_order spelt spelt'
  have equals := finds_equal spelt spelt'
  rw [found, Option.elim_some] at order
  have forgets : w.map forgetCell ≠ v.map forgetCell := by
    intro same
    have letters := firstDiff_map found same
    apply apart
    rw [← key_forgetCell, letters, key_forgetCell]
  rw [decide_eq_false forgets] at equals
  refine ⟨fun same => nonzero (orderSign_eq_zero.2 same), equals, _, order, ?_⟩
  obtain ⟨inside, inside'⟩ := firstDiff_mem found
  obtain ⟨d, -, rfl⟩ := spelt.letter l inside
  obtain ⟨e, -, rfl⟩ := spelt'.letter l' inside'
  rw [← Int.sign_eq_neg_one_iff_neg, orderLetters_sign lexicographic apart, ← keys,
    ← orderSign_neg]
  rcases orderSign_mem (w.map (Letter.key env)) (v.map (Letter.key env)) with
    value | value | value <;> rw [value] <;> decide

end Comparing

section Sorting

variable {env : TermEnv} {compare : Bytes → Bytes → ℤ} {l : Cell} {els : List Cell}

theorem less_lasting (a b : Cell) : Lasting fun n => less env compare n a b := by
  intro n m r more found
  obtain ⟨v, order, value⟩ := Option.map_eq_some_iff.1 found
  exact Option.map_eq_some_iff.2 ⟨v, order_lasting a b n m v more order, value⟩

theorem finds_less {a b : Cell} {v : ℤ}
    (order : Finds (fun n => standardOrder env compare n a b) v) :
    Finds (fun n => less env compare n a b) (decide (v < 0)) := by
  obtain ⟨n, order⟩ := order
  exact ⟨n, Option.map_eq_some_iff.2 ⟨v, order, rfl⟩⟩

theorem sort_2_lasting (l : Cell) : Lasting fun n => sort_2 env compare n l := by
  have later : Lasting fun n => do
      let proper ← isList env n l
      if proper = false then return Except.error SortError.notInstantiated
      let k ← listLength env n l
      let vec ← readElements env n k l
      let vec ← stableSort (less env compare n) vec
      return .ok (buildList env (unique vec)) := by
    refine ((deref_lasting env.mem l).bind isListLoop_lasting).bind fun proper => .ite (.const _) ?_
    refine (listLengthLoop_lasting l 0).bind fun k => (readElements_lasting k l).bind fun vec => ?_
    exact (stableSort_lasting less_lasting vec).bind fun _ => .const _
  unfold sort_2
  exact .ite (.const _) later

theorem finds_sort_2 {sorted : List Cell} (proper : ProperList env l els)
    (found : Finds (fun n => stableSort (less env compare n) els) sorted) :
    Finds (fun n => sort_2 env compare n l) (.ok (buildList env (unique sorted))) := by
  obtain ⟨n, isList_⟩ := finds_isList proper
  obtain ⟨m, length⟩ := finds_listLength proper 0
  obtain ⟨k, read⟩ := finds_readElements proper
  obtain ⟨j, found⟩ := found
  rw [Nat.zero_add] at length
  have listed := ((deref_lasting env.mem l).bind isListLoop_lasting) n (n + m + k + j) _ (by omega)
    isList_
  have counted := listLengthLoop_lasting l 0 m (n + m + k + j) _ (by omega) length
  have vector := readElements_lasting _ l k (n + m + k + j) _ (by omega) read
  have ordered := stableSort_lasting less_lasting els j (n + m + k + j) _ (by omega) found
  refine ⟨n + m + k + j, ?_⟩
  dsimp only
  unfold sort_2
  rw [if_neg (by rw [proper.notRef]; decide)]
  refine Option.bind_eq_some_iff.2 ⟨true, listed, ?_⟩
  rw [if_neg (by decide)]
  refine Option.bind_eq_some_iff.2 ⟨els.length, counted, ?_⟩
  exact Option.bind_eq_some_iff.2 ⟨els, vector, Option.bind_eq_some_iff.2 ⟨sorted, ordered, rfl⟩⟩

theorem finds_less_key (lexicographic : ∀ x y, (compare x y).sign =
      orderSign (x.map UInt8.toNat) (y.map UInt8.toNat))
    (finite : ∀ a ∈ els, FiniteTerm env.mem a)
    (differ : ∀ a ∈ els, ∀ b ∈ els, a ≠ b → Differ env a b) :
    ∀ a ∈ els, ∀ b ∈ els, Finds (fun n => less env compare n b a)
      (decide (¬ keyOf env a ≤ keyOf env b)) := by
  intro a inside b inside'
  by_cases same : b = a
  · subst same
    obtain ⟨w, spelt⟩ := (finite b inside').spells
    have order : Finds (fun n => standardOrder env compare n b b) _ := finds_order spelt spelt
    rw [firstDiff_self] at order
    rw [decide_eq_false (not_not.2 le_rfl)]
    exact finds_less order
  · obtain ⟨-, -, v, order, less_⟩ := (differ b inside' a inside same).order lexicographic
    have value : decide (¬ keyOf env a ≤ keyOf env b) = decide (v < 0) := by
      rw [decide_eq_decide, not_le, less_]
    rw [value]
    exact finds_less order

theorem equal_self {a : Cell} (finite : FiniteTerm env.mem a) :
    Finds (fun n => equal env n a a) true := by
  obtain ⟨w, spelt⟩ := finite.spells
  have equals := finds_equal spelt spelt
  rwa [decide_eq_true rfl] at equals

theorem sorts_of_differ (lexicographic : ∀ x y, (compare x y).sign =
      orderSign (x.map UInt8.toNat) (y.map UInt8.toNat))
    (proper : ProperList env l els) (finite : ∀ a ∈ els, FiniteTerm env.mem a)
    (fits : env.size + 8 * els.length ≤ 2 ^ 61)
    (differ : ∀ a ∈ els, ∀ b ∈ els, a ≠ b → Differ env a b) : Sorts env compare l els := by
  let r : Cell → Cell → Prop := fun a b => keyOf env a ≤ keyOf env b
  have total : Std.Total r := ⟨fun a b => le_total _ _⟩
  have trans : IsTrans Cell r := ⟨fun a b c => le_trans⟩
  classical
  have found : Finds (fun n => stableSort (less env compare n) els) (els.insertionSort r) :=
    finds_stableSort less_lasting r fun a inside b inside' => by
      have answer := finds_less_key lexicographic finite differ a inside b inside'
      convert answer
  have inside {a : Cell} : a ∈ unique (els.insertionSort r) ↔ a ∈ els := by
    rw [mem_unique, List.mem_insertionSort]
  have strict : (unique (els.insertionSort r)).Pairwise fun a b => keyOf env a < keyOf env b := by
    refine unique_strict (keyOf env) (List.pairwise_insertionSort r els) ?_
    intro a member b member' apart
    rw [List.mem_insertionSort] at member member'
    exact ((differ a member b member' apart).order lexicographic).1
  have shorter : (unique (els.insertionSort r)).length ≤ els.length := by
    rw [← List.length_insertionSort r els]
    exact (List.destutter_sublist _ _).length_le
  refine ⟨_, _, _, finds_sort_2 proper found, properList_buildList (by omega) fun a member =>
    proper.elements a (inside.1 member), ?_, ?_, ?_, ?_⟩
  · refine strict.imp_of_mem fun {a b} member member' below => ?_
    have apart : a ≠ b := fun same => absurd below (by rw [same]; exact lt_irrefl _)
    obtain ⟨-, -, v, order, neg⟩ :=
      (differ a (inside.1 member) b (inside.1 member') apart).order lexicographic
    exact ⟨v, order, neg.2 below⟩
  · refine strict.imp_of_mem fun {a b} member member' below => ?_
    have apart : a ≠ b := fun same => absurd below (by rw [same]; exact lt_irrefl _)
    exact ((differ a (inside.1 member) b (inside.1 member') apart).order lexicographic).2.1
  · exact fun d member => ⟨d, inside.2 member, equal_self (finite d member)⟩
  · exact fun x member => ⟨x, inside.1 member, equal_self (finite x (inside.1 member))⟩

theorem Sorts.differ (lexicographic : ∀ x y, (compare x y).sign =
      orderSign (x.map UInt8.toNat) (y.map UInt8.toNat))
    (proper : ProperList env l els) (finite : ∀ a ∈ els, FiniteTerm env.mem a)
    (fits : env.size + 8 * els.length ≤ 2 ^ 61) (sorts : Sorts env compare l els) :
    ∀ a ∈ els, ∀ b ∈ els, a ≠ b → Differ env a b := by
  obtain ⟨r, env', s, result, isList_, set_⟩ := sorts
  have answers : ∀ a ∈ els, ∀ b ∈ els, ∃ x, Finds (fun n => less env compare n b a) x := by
    intro a inside b inside'
    obtain ⟨w, spelt⟩ := (finite a inside).spells
    obtain ⟨v, spelt'⟩ := (finite b inside').spells
    exact ⟨_, finds_less (finds_order spelt' spelt)⟩
  obtain ⟨sorted, found, perm⟩ := finds_some_sort less_lasting answers
  have inside {a : Cell} : a ∈ unique sorted ↔ a ∈ els := mem_unique.trans perm.mem_iff
  have shorter : (unique sorted).length ≤ els.length := by
    rw [← perm.length_eq]
    exact (List.destutter_sublist _ _).length_le
  have same := Except.ok.inj (result.unique (sort_2_lasting l) (finds_sort_2 proper found))
  have built : ProperList env' r (unique sorted) := by
    have list := @properList_buildList env (unique sorted) (by omega)
      fun a member => proper.elements a (inside.1 member)
    rwa [← same] at list
  obtain rfl := isList_.unique built
  have both : ∀ a ∈ unique sorted, ∀ b ∈ unique sorted, a ≠ b → Differ env a b := by
    intro a member b member' apart
    have ordered := set_.ascending.imp_of_mem fun {a b} member member' order => by
      obtain ⟨v, order, neg⟩ := order
      exact differ_of_neg lexicographic (finite a (inside.1 member)) (finite b (inside.1 member'))
        order neg
    have symmetric : Std.Symm (Differ env) := ⟨fun _ _ => Differ.symm⟩
    exact ordered.forall member member' apart
  exact fun a member b member' => both a (inside.2 member) b (inside.2 member')

/-- For a proper list of finite terms `sort_2` gives a strictly ordered set of them just where
elements in different cells differ. -/
theorem sort_2_strict_iff (env : TermEnv) (compare : Bytes → Bytes → ℤ)
    (lexicographic : ∀ x y, (compare x y).sign =
      orderSign (x.map UInt8.toNat) (y.map UInt8.toNat)) {l : Cell} {els : List Cell}
    (proper : ProperList env l els) (finite : ∀ a ∈ els, FiniteTerm env.mem a)
    (fits : env.size + 8 * els.length ≤ 2 ^ 61) :
    Sorts env compare l els ↔ ∀ a ∈ els, ∀ b ∈ els, a ≠ b → Differ env a b :=
  ⟨fun sorts => sorts.differ lexicographic proper finite fits,
    sorts_of_differ lexicographic proper finite fits⟩

end Sorting

section Example

/-- The list `[f(x), f(y)]` -/
def pairOf (x y : Cell) : TermEnv where
  mem i :=
    if i = 0 ∨ i = 2 then conOfName (ascii "f") 1
    else if i = 1 then x
    else if i = 3 then y
    else if i = 5 ∨ i = 9 then DOTTED_PAIR
    else if i = 6 then make .STR 0
    else if i = 7 then make .STR 9
    else if i = 10 then make .STR 2
    else EMPTY_LIST
  size := 12
  atomIndexToName := ∅
  atomNameToIndex := ∅
  varNames := ∅

theorem pairOf_index {k : ℕ} (small : k < 2 ^ 61) : (make .STR k).index = k :=
  value_make_of_lt _ small

theorem pairOf_list (x y : Cell) :
    ProperList (pairOf x y) (make .STR 5) [make .STR 0, make .STR 2] := by
  have str (k : ℕ) : (make .STR k).tag = .STR := tag_make _ _
  have own (k : ℕ) : Derefs (pairOf x y).mem (make .STR k) (make .STR k) :=
    derefs_value (by rw [str]; rfl)
  have notRef (k : ℕ) : ¬ (make .STR k).tag.isRef = true := by
    rw [str]
    decide
  have below : 5 < 12 ∧ 9 < 12 := by decide
  have known (k : ℕ) : (make .STR k).tag.isRef = true → (make .STR k).index < 12 :=
    fun isRef => absurd isRef (notRef k)
  refine @ProperList.cons _ _ _ (make .STR 9) _ (str 5) ?_ ?_ ?_ (known 0) ?_
    (@ProperList.cons _ _ _ EMPTY_LIST _ (str 9) ?_ ?_ ?_ (known 2) ?_ .nil)
  · rw [pairOf_index (by decide)]
    exact below.1
  · rw [pairOf_index (by decide)]
    rfl
  · rw [pairOf_index (by decide)]
    exact own 0
  · rw [pairOf_index (by decide)]
    exact own 9
  · rw [pairOf_index (by decide)]
    exact below.2
  · rw [pairOf_index (by decide)]
    rfl
  · rw [pairOf_index (by decide)]
    exact own 2
  · rw [pairOf_index (by decide)]
    exact derefs_value (@ProperList.nil (pairOf x y)).notRef

theorem pairOf_terms {x y : Cell} (int : x.tag = .INT) (int' : y.tag = .INT) {a : Cell}
    (inside : a ∈ [make .STR 0, make .STR 2]) :
    FiniteTerm (pairOf x y).mem a ∧ Spells (pairOf x y).mem [a]
      [.str (conOfName (ascii "f") 1), .plain (if a = make .STR 0 then x else y)] := by
  have leaf : ∀ {z : Cell}, z.tag = .INT → FiniteTerm (pairOf x y).mem z ∧
      Spells (pairOf x y).mem [z] [.plain z] := by
    intro z int
    have derefs : Derefs (pairOf x y).mem z z := derefs_value (by rw [int]; rfl)
    have isTerm : TermCell (pairOf x y).mem z :=
      ⟨by rw [int]; nofun, by rw [int]; nofun, fun isStr => nomatch int.symm.trans isStr⟩
    refine ⟨finite_leaf (.inr (.inl int)), ?_⟩
    have spelt : Spells (pairOf x y).mem [z] _ := .cons derefs isTerm (by
      rw [argsOf_other (by rw [int]; nofun)]
      exact .nil)
    rwa [letterOf_plain (by rw [int]; nofun) (by rw [int]; nofun)] at spelt
  have inner : ∀ {k : ℕ} {z : Cell}, k = 0 ∨ k = 2 → (pairOf x y).mem (k + 1) = z →
      z.tag = .INT → FiniteTerm (pairOf x y).mem (make .STR k) ∧
        Spells (pairOf x y).mem [make .STR k] [.str (conOfName (ascii "f") 1), .plain z] := by
    intro k z here below int
    have str : (make .STR k).tag = .STR := tag_make _ _
    have index : (make .STR k).index = k := pairOf_index (by omega)
    have functor : (pairOf x y).mem k = conOfName (ascii "f") 1 := by
      rcases here with rfl | rfl <;> rfl
    have derefs : Derefs (pairOf x y).mem (make .STR k) (make .STR k) :=
      derefs_value (by rw [str]; rfl)
    have isTerm : TermCell (pairOf x y).mem (make .STR k) :=
      ⟨by rw [str]; nofun, by rw [str]; nofun, fun _ => by rw [index, functor]; decide⟩
    have arguments : argsOf (pairOf x y).mem (make .STR k) = [z] := by
      have one : (conOfName (ascii "f") 1).arity = 1 := by decide
      rw [argsOf_str str, index, functor, args, one, index]
      exact congrArg (fun c => [c]) below
    refine ⟨.node derefs isTerm ?_, ?_⟩
    · rw [arguments]
      exact List.forall_mem_singleton.2 (leaf int).1
    · have spelt : Spells (pairOf x y).mem [make .STR k] _ := .cons derefs isTerm (by
        rw [arguments]
        exact (leaf int).2)
      rwa [letterOf_str str, index, functor] at spelt
  obtain rfl | rfl := List.mem_pair.1 inside
  · rw [if_pos rfl]
    exact inner (.inl rfl) rfl int
  · rw [if_neg (by decide)]
    exact inner (.inr rfl) rfl int'

/-- `[f(1), f(2)]` is sorted into such a set. -/
theorem pair_sorted :
    Sorts (pairOf (make .INT 1) (make .INT 2)) nameCompare (make .STR 5)
      [make .STR 0, make .STR 2] := by
  have terms := @pairOf_terms (make .INT 1) (make .INT 2) (tag_make _ _) (tag_make _ _)
  have fits : 12 + 8 * 2 ≤ 2 ^ 61 := by decide
  refine (sort_2_strict_iff _ nameCompare nameCompare_sign (pairOf_list _ _)
    (fun a inside => (terms inside).1) fits).2 fun a inside b inside' apart => ?_
  refine ⟨_, _, .plain (if a = make .STR 0 then make .INT 1 else make .INT 2),
    .plain (if b = make .STR 0 then make .INT 1 else make .INT 2), (terms inside).2,
    (terms inside').2, ?_, ?_⟩
  · obtain rfl | rfl := List.mem_pair.1 inside <;> obtain rfl | rfl := List.mem_pair.1 inside'
    · exact absurd rfl apart
    · decide
    · decide
    · exact absurd rfl apart
  · obtain rfl | rfl := List.mem_pair.1 inside <;> obtain rfl | rfl := List.mem_pair.1 inside'
    · exact absurd rfl apart
    · decide
    · decide
    · exact absurd rfl apart

/-- `[f(1), f(1)]` is not: both elements stay. -/
theorem pair_not_sorted :
    ¬ Sorts (pairOf (make .INT 1) (make .INT 1)) nameCompare (make .STR 5)
      [make .STR 0, make .STR 2] := by
  intro sorts
  have terms := @pairOf_terms (make .INT 1) (make .INT 1) (tag_make _ _) (tag_make _ _)
  have fits : 12 + 8 * 2 ≤ 2 ^ 61 := by decide
  have differ := sorts.differ nameCompare_sign (pairOf_list _ _)
    (fun a inside => (terms inside).1) fits
  obtain ⟨w, v, l, l', spelt, spelt', found, -⟩ := differ (make .STR 0) List.mem_cons_self
    (make .STR 2) (List.mem_cons_of_mem _ List.mem_cons_self) (by decide)
  have first := (terms List.mem_cons_self).2
  have second := (terms (List.mem_cons_of_mem (make .STR 0) List.mem_cons_self)).2
  rw [ite_self] at first second
  rw [spelt.unique first, spelt'.unique second, firstDiff_self] at found
  exact nomatch found

end Example

end Epilog.Interp.SortedSet
