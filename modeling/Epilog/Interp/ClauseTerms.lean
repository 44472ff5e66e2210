/- Module: Epilog/Interp/ClauseTerms
   source: src/src/interp/interpreter_base.hpp (clause_head, clause_body, clause_first_arg,
     get_first_arg, can_unify_args), src/src/common/term_env.cpp (simple_hash)
   digest: How clauses and goals are read: heads, first arguments, hash values, and the test whether
     a head and a goal unify. -/

import Epilog.Common.MostGeneral
import Epilog.Interp.Backtracking
import Mathlib.Data.Finite.Prod
import Mathlib.Data.Fintype.Order

set_option autoImplicit false

namespace Epilog.Interp.ClauseTerms

open Epilog.Common.Term Epilog.Common.Term.Cell Epilog.Common.TermWalk Epilog.Common.Unify
  Epilog.Common.HeapTrees Epilog.Common.Unification Epilog.Common.MostGeneral
  Epilog.Interp.Backtracking Epilog.Lib.Fuel Epilog.Lib.RationalTree

section Source

def IMPLIED_BY : Cell := conOfName (ascii ":-") 2

def COLON : Cell := conOfName (ascii ":") 2

/-- What terms are read with: the machine, the arguments of a call that is dissected, and the fuel
for the chains of references and for unification -/
structure Reader where
  base : InterpreterBase
  args : List Cell
  fuel : ℕ

namespace Reader

variable (r : Reader)

def mem : ℕ → Cell := r.base.machine.mem

def deref (t : Cell) : Option Cell := Common.TermWalk.deref r.mem r.fuel t

def arg (t : Cell) (i : ℕ) : Option Cell := Common.TermWalk.arg r.mem r.fuel t i

/-- `functor`, which throws when the term is neither a constant nor a structure. -/
def functor (t : Cell) : Option Cell := do
  let d ← r.deref t
  if d.tag = .CON then some d else if d.tag = .STR then Common.TermWalk.functor r.mem d else none

def isFunctor (t : Cell) : Option Bool := do
  let d ← r.deref t
  return d.tag = .CON ∨ d.tag = .STR

def clauseHead (clause : Cell) : Option Cell := do
  let f ← r.functor clause
  if f = IMPLIED_BY then r.arg clause 0 else some clause

def clauseBody (clause : Cell) : Option Cell := do
  let f ← r.functor clause
  if f = IMPLIED_BY then r.arg clause 1 else some EMPTY_LIST

/-- The first argument of a head or a goal, behind the name of a module if there is one; `term()`
if there is none. -/
def firstArgOf (head : Cell) : Option Cell := do
  if (← r.isFunctor head) = false then return noTerm
  let f ← r.functor head
  if f = COLON then
    let head ← r.arg head 1
    if (← r.isFunctor head) = false then return noTerm
    let f ← r.functor head
    if f.arity = 0 then return noTerm
    r.arg head 0
  else if f.arity = 0 then return noTerm
  else r.arg head 0

def clauseFirstArg (clause : Cell) : Option Cell := do r.firstArgOf (← r.clauseHead clause)

/-- `get_first_arg`: of a call that is dissected the goal is just its functor. -/
def getFirstArg (goal : Cell) : Option Cell :=
  if goal.tag = .CON ∧ goal.arity ≠ 0 then
    match r.args with
    | [] => some noTerm
    | a :: _ => r.deref a
  else r.firstArgOf goal

/-- The number of bits of a bignum, and its first four bytes -/
def bigHash (big : ℕ × List ℕ) : ℕ := (big.2.take 4).foldl (fun h b => h * 256 + b) big.1

def simpleHash (t : Cell) : Option ℕ :=
  match t.tag with
  | .CON | .INT | .REF | .RFW => some t.raw.toNat
  | .BIG => some (bigHash (bigBytes r.mem t))
  | .STR => do return (← r.functor t).raw.toNat
  | .DAT | .FWD => some 0

/-- The answer of `can_unify`, which undoes its bindings. -/
def canUnify (a b : Cell) : Option Bool := (r.base.canUnify r.fuel a b).map Prod.fst

/-- The loop over the arguments of a call that is dissected -/
def canUnifyEach (head : Cell) : ℕ → List Cell → Option Bool
  | _, [] => some true
  | i, a :: rest => do
    let argI ← r.arg head i
    if ← r.canUnify argI a then canUnifyEach head (i + 1) rest else return false

def canUnifyArgs (head p : Cell) : Option Bool :=
  if p.tag = .STR then do
    let f ← r.functor p
    if f = COLON then r.canUnify head (← r.arg p 1) else r.canUnify head p
  else do
    let head ← if head = COLON then r.arg head 1 else some head
    if (← r.isFunctor head) = false then return false
    let f ← r.functor head
    if f.arity = 0 then return true
    r.canUnifyEach head 0 r.args

end Reader

end Source
section Readings

/-- A reader of a well-formed heap, with fuel enough for all terms there -/
structure Reading extends Reader where
  regions : Regions
  wellFormed : WellFormed regions toReader.mem base.machine.size
  apart : Apart regions
  derefs : ∀ c, IsTerm regions toReader.mem c → ∃ d, toReader.deref c = some d
  unifies : ∀ a b, IsTerm regions toReader.mem a → IsTerm regions toReader.mem b →
    ∃ same, toReader.canUnify a b = some same

def Reading.Term (r : Reading) (t : Cell) : Prop := IsTerm r.regions r.mem t

variable {base : InterpreterBase} {R : Regions} {a b c d t : Cell}

instance : Finite Cell := by
  have injective : Function.Injective fun c : Cell => c.raw.toFin := by
    intro c d same
    exact congrArg Cell.mk (BitVec.eq_of_toFin_eq same)
  exact Finite.of_injective _ injective

theorem canUnify_lasting (base : InterpreterBase) (a b : Cell) :
    Lasting fun n => (base.canUnify n a b).map Prod.fst := by
  intro n k same more found
  obtain ⟨s, tested, rfl⟩ := Option.map_eq_some_iff.1 found
  obtain ⟨out, unified, rest⟩ := Option.bind_eq_some_iff.1 tested
  refine Option.map_eq_some_iff.2 ⟨s, Option.bind_eq_some_iff.2 ⟨out, ?_, rest⟩, rfl⟩
  exact unify_lasting _ a b n k out more unified

theorem canUnify_solvable (wf : WellFormed R base.machine.mem base.machine.size) (apart : Apart R)
    (isTerm : IsTerm R base.machine.mem a) (isTerm' : IsTerm R base.machine.mem b) :
    ∃ same, Finds (fun n => (base.canUnify n a b).map Prod.fst) same ∧
      (same = true ↔ ∃ σ, Solves base.machine.mem a b σ) := by
  obtain ⟨same, m', ⟨n, unified⟩, solvable⟩ :=
    @unify_solvable R a b { base.machine with hb := base.machine.size } wf apart isTerm isTerm'
  refine ⟨same, ⟨n, Option.map_eq_some_iff.2 ⟨_, Option.bind_eq_some_iff.2 ⟨_, unified, rfl⟩, rfl⟩⟩,
    solvable⟩

theorem exists_fuel {α β : Type} [Finite α] {x : α → ℕ → Option β}
    (lasting : ∀ a, Lasting (x a)) (p : α → Prop) (each : ∀ a, p a → ∃ b, Finds (x a) b) :
    ∃ n, ∀ k, n ≤ k → ∀ a, p a → ∃ b, x a k = some b := by
  have some_ : ∀ a, ∃ n, p a → ∃ b, x a n = some b := by
    intro a
    by_cases holds : p a
    · obtain ⟨b, n, found⟩ := each a holds
      exact ⟨n, fun _ => ⟨b, found⟩⟩
    · exact ⟨0, fun holds' => absurd holds' holds⟩
  choose fuel found using some_
  obtain ⟨n, bound⟩ := Finite.bddAbove_range fuel
  refine ⟨n, fun k more a holds => ?_⟩
  obtain ⟨b, found⟩ := found a holds
  exact ⟨b, lasting a _ k b ((bound ⟨a, rfl⟩).trans more) found⟩

theorem exists_reading (base : InterpreterBase) (args : List Cell)
    (wf : WellFormed R base.machine.mem base.machine.size) (apart : Apart R) :
    ∃ r : Reading, r.base = base ∧ r.args = args ∧ r.regions = R := by
  obtain ⟨n, derefs⟩ := exists_fuel (fun c => deref_lasting base.machine.mem c)
    (IsTerm R base.machine.mem) fun c isTerm =>
      have ⟨d, derefs, _⟩ := isTerm.derefs wf
      ⟨d, derefs⟩
  obtain ⟨k, unifies⟩ := exists_fuel
    (fun p : Cell × Cell => canUnify_lasting base p.1 p.2)
    (fun p => IsTerm R base.machine.mem p.1 ∧ IsTerm R base.machine.mem p.2) fun p isTerm =>
      have ⟨same, finds, _⟩ := canUnify_solvable wf apart isTerm.1 isTerm.2
      ⟨same, finds⟩
  exact ⟨⟨⟨base, args, max n k⟩, R, wf, apart, fun c => derefs _ (Nat.le_max_left n k) c,
    fun a b isTerm isTerm' => unifies _ (Nat.le_max_right n k) (a, b) ⟨isTerm, isTerm'⟩⟩,
    rfl, rfl, rfl⟩

variable (r : Reading)

theorem Reading.canUnify_iff (isTerm : r.Term a) (isTerm' : r.Term b) :
    ∃ same, r.canUnify a b = some same ∧ (same = true ↔ ∃ σ, Solves r.mem a b σ) := by
  obtain ⟨same, tested⟩ := r.unifies a b isTerm isTerm'
  obtain ⟨same', finds, solvable⟩ := canUnify_solvable r.wellFormed r.apart isTerm isTerm'
  have equal := Finds.unique (canUnify_lasting r.base a b) ⟨r.fuel, tested⟩ finds
  exact ⟨same, tested, equal ▸ solvable⟩

theorem Reading.deref_eq (isTerm : r.Term t) (derefs : Derefs r.mem t d) : r.deref t = some d := by
  obtain ⟨d', found⟩ := r.derefs t isTerm
  have same : d' = d := Derefs.unique ⟨r.fuel, found⟩ derefs
  rw [found, same]

theorem Reading.deref_self (isTerm : r.Term d) (notRef : d.tag.isRef = false) :
    r.deref d = some d :=
  r.deref_eq isTerm (derefs_value notRef)

theorem Reading.arg_eq (isTerm : r.Term t) (found : r.deref t = some d) (isStr : d.tag = .STR)
    {i : ℕ} (small : i < (r.mem d.index).arity) :
    ∃ a, r.arg t i = some a ∧ Derefs r.mem (r.mem (d.index + i + 1)) a ∧ r.Term a := by
  have isTerm' : r.Term d := Derefs.isTerm ⟨r.fuel, found⟩ r.wellFormed isTerm
  have inside := (r.wellFormed.functors _ (isTerm'.str isStr)).2.2 i small
  have cell := r.wellFormed.cells _ inside
  obtain ⟨a, derefs, isTerm''⟩ := cell.derefs r.wellFormed
  exact ⟨a, Option.bind_eq_some_iff.2 ⟨d, found, r.deref_eq cell derefs⟩, derefs, isTerm''⟩

end Readings

section Calls

/-- The functor of a predicate; `:` is what names of modules are written with. -/
structure Functor where
  cell : Cell
  isCon : cell.tag = .CON
  notColon : cell ≠ COLON

/-- The term `t` calls the predicate: it is the constant or a structure `d`. -/
structure Calls (r : Reading) (f : Functor) (t d : Cell) : Prop where
  isTerm : r.Term t
  found : r.deref t = some d
  shape : f.cell.arity = 0 ∧ d = f.cell ∨
    f.cell.arity ≠ 0 ∧ d.tag = .STR ∧ r.mem d.index = f.cell

/-- The first argument `a` of a call `d`, and `term()` where there is none -/
def IsFirst (r : Reading) (f : Functor) (d a : Cell) : Prop :=
  f.cell.arity = 0 ∧ a = noTerm ∨
    f.cell.arity ≠ 0 ∧ Derefs r.mem (r.mem (d.index + 0 + 1)) a ∧ r.Term a

/-- The tag and the hash value that a term with the label is found by -/
def labelKey : Label → Tag × ℕ
  | .const c => (c.tag, c.raw.toNat)
  | .functor f => (.STR, f.raw.toNat)
  | .big b => (.BIG, Reader.bigHash b)

variable {r : Reading} {f : Functor} {t t' d d' a a' : Cell}

theorem Calls.derefs (calls : Calls r f t d) : Derefs r.mem t d := ⟨r.fuel, calls.found⟩

theorem Calls.functor (calls : Calls r f t d) : r.functor t = some f.cell := by
  unfold Reader.functor
  rw [calls.found]
  change (if d.tag = .CON then some d else if d.tag = .STR then Common.TermWalk.functor r.mem d
    else none) = _
  rcases calls.shape with ⟨-, rfl⟩ | ⟨-, isStr, functor⟩
  · exact if_pos f.isCon
  · rw [if_neg (by rw [isStr]; nofun), if_pos isStr]
    unfold Common.TermWalk.functor
    rw [functor, if_pos f.isCon]

theorem Calls.isFunctor (calls : Calls r f t d) : r.isFunctor t = some true := by
  unfold Reader.isFunctor
  rw [calls.found]
  change some (decide (d.tag = .CON ∨ d.tag = .STR)) = _
  refine congrArg some (decide_eq_true ?_)
  rcases calls.shape with ⟨-, rfl⟩ | ⟨-, isStr, -⟩
  · exact .inl f.isCon
  · exact .inr isStr

theorem Calls.arg_first (calls : Calls r f t d) :
    ∃ a, (if f.cell.arity = 0 then some noTerm else r.arg t 0) = some a ∧ IsFirst r f d a := by
  rcases calls.shape with ⟨none_, -⟩ | ⟨some_, isStr, functor⟩
  · exact ⟨noTerm, if_pos none_, .inl ⟨none_, rfl⟩⟩
  · have small : 0 < (r.mem d.index).arity := by
      rw [functor]
      exact Nat.pos_of_ne_zero some_
    obtain ⟨a, found, derefs, isTerm⟩ := r.arg_eq calls.isTerm calls.found isStr small
    exact ⟨a, (if_neg some_).trans found, .inr ⟨some_, derefs, isTerm⟩⟩

theorem Calls.firstArgOf (calls : Calls r f t d) :
    ∃ a, r.firstArgOf t = some a ∧ IsFirst r f d a := by
  obtain ⟨a, found, first⟩ := calls.arg_first
  refine ⟨a, ?_, first⟩
  unfold Reader.firstArgOf
  rw [calls.isFunctor, Option.bind_eq_bind, Option.bind_some, if_neg (by decide), calls.functor]
  exact (if_neg f.notColon).trans found

theorem Reading.simpleHash_eq (isTerm : r.Term a) (notRef : a.tag.isRef = false) :
    ∃ l below, look r.mem a = .inr (l, below) ∧ a.tag = (labelKey l).1 ∧
      r.simpleHash a = some (labelKey l).2 := by
  unfold Reader.simpleHash
  have rest := isTerm.tag
  cases tag : a.tag with
  | CON => exact ⟨_, _, look_const (.inl tag), tag.symm, rfl⟩
  | INT => exact ⟨_, _, look_const (.inr tag), tag.symm, rfl⟩
  | BIG => exact ⟨_, _, look_big tag, rfl, rfl⟩
  | STR =>
    have isCon := (r.wellFormed.functors _ (isTerm.str tag)).2.1
    have functor : r.functor a = some (r.mem a.index) := by
      unfold Reader.functor
      rw [r.deref_self isTerm notRef]
      change (if a.tag = .CON then some a else if a.tag = .STR then
        Common.TermWalk.functor r.mem a else none) = _
      rw [if_neg (by rw [tag]; nofun), if_pos tag]
      exact if_pos isCon
    refine ⟨_, _, look_str tag, rfl, ?_⟩
    dsimp only
    rw [functor]
    rfl
  | DAT => exact absurd tag rest.1
  | FWD => exact absurd tag rest.2
  | REF | RFW =>
    rw [tag] at notRef
    exact nomatch notRef

theorem Calls.same_key (calls : Calls r f t d) (calls' : Calls r f t' d') (first : IsFirst r f d a)
    (first' : IsFirst r f d' a') (some_ : f.cell.arity ≠ 0) (notRef : a.tag.isRef = false)
    (notRef' : a'.tag.isRef = false) {σ : ℕ → PathTree Label} (solves : Solves r.mem t t' σ) :
    a.tag = a'.tag ∧ r.simpleHash a = r.simpleHash a' := by
  have str {t d : Cell} (calls : Calls r f t d) : d.tag = .STR ∧ r.mem d.index = f.cell := by
    rcases calls.shape with ⟨none_, -⟩ | ⟨-, shape⟩
    · exact absurd none_ some_
    · exact shape
  have cell {d a : Cell} (first : IsFirst r f d a) :
      Derefs r.mem (r.mem (d.index + 0 + 1)) a ∧ r.Term a := by
    rcases first with ⟨none_, -⟩ | ⟨-, cell⟩
    · exact absurd none_ some_
    · exact cell
  have head {d : Cell} (functor : r.mem d.index = f.cell) :
      (args r.mem d (r.mem d.index))[0]? = some (r.mem (d.index + 0 + 1)) := by
    have small : 0 < (r.mem d.index).arity := by
      rw [functor]
      exact Nat.pos_of_ne_zero some_
    unfold args
    rw [List.getElem?_map, List.getElem?_range small]
    rfl
  obtain ⟨isStr, functor⟩ := str calls
  obtain ⟨isStr', functor'⟩ := str calls'
  obtain ⟨derefs, isTerm⟩ := cell first
  obtain ⟨derefs', isTerm'⟩ := cell first'
  have equal : tree r.mem σ d = tree r.mem σ d' := by
    rw [← tree_eq calls.derefs, ← tree_eq calls'.derefs]
    exact solves
  have below := (labels_eq equal (str_not_ref isStr) (str_not_ref isStr') (look_str isStr)
    (look_str isStr')).2 0 _ _ (head functor) (head functor')
  rw [tree_eq derefs, tree_eq derefs'] at below
  obtain ⟨l, _, shape, tag, hash⟩ := r.simpleHash_eq isTerm notRef
  obtain ⟨l', _, shape', tag', hash'⟩ := r.simpleHash_eq isTerm' notRef'
  obtain rfl := (labels_eq below notRef notRef' shape shape').1
  exact ⟨tag.trans tag'.symm, hash.trans hash'.symm⟩

end Calls

section Goals

/-- The goal behind the name of a module, if there is one -/
def Reader.goalOf (r : Reader) (p : Cell) : Option Cell := do
  let f ← r.functor p
  if f = COLON then r.arg p 1 else some p

/-- A clause of the predicate, a fact or a rule -/
structure IsClause (r : Reading) (f : Functor) (clause : Cell) : Prop where
  head : ∃ h d, r.clauseHead clause = some h ∧ Calls r f h d
  body : ∃ b, r.clauseBody clause = some b ∧ r.Term b

/-- A goal of the predicate, behind the name of a module or not, or a rule with such a head -/
structure IsGoal (r : Reading) (f : Functor) (pattern : Cell) : Prop where
  head : ∃ p g d, r.clauseHead pattern = some p ∧ r.Term p ∧
    (p.tag = .CON ∧ p.arity = 0 ∨ p.tag = .STR) ∧ r.goalOf p = some g ∧ Calls r f g d
  body : ∃ b, r.clauseBody pattern = some b ∧ r.Term b

/-- The heads unify, and if it is not just about heads the bodies do. -/
def Matches (r : Reading) (onHead : Bool) (clause pattern : Cell) : Prop :=
  (∃ h p g, r.clauseHead clause = some h ∧ r.clauseHead pattern = some p ∧ r.goalOf p = some g ∧
      ∃ σ, Solves r.mem h g σ) ∧
    (onHead = true ∨ ∃ b b', r.clauseBody clause = some b ∧ r.clauseBody pattern = some b' ∧
      ∃ σ, Solves r.mem b b' σ)

variable {r : Reading} {f : Functor} {p g h d d' : Cell}

theorem con_arity_ne_colon (none_ : p.arity = 0) : p ≠ COLON := by
  rintro rfl
  exact absurd none_ (by decide)

theorem goalOf_con (isTerm : r.Term p) (isCon : p.tag = .CON) (none_ : p.arity = 0) :
    r.goalOf p = some p := by
  have functor : r.functor p = some p := by
    unfold Reader.functor
    rw [r.deref_self isTerm (by rw [isCon]; rfl)]
    exact if_pos isCon
  unfold Reader.goalOf
  rw [functor]
  exact if_neg (con_arity_ne_colon none_)

theorem getFirstArg_goal (isTerm : r.Term p) (shape : p.tag = .CON ∧ p.arity = 0 ∨ p.tag = .STR)
    (behind : r.goalOf p = some g) (calls : Calls r f g d) :
    ∃ a, r.getFirstArg p = some a ∧ IsFirst r f d a := by
  have plain : ¬ (p.tag = .CON ∧ p.arity ≠ 0) := by
    rintro ⟨isCon, some_⟩
    rcases shape with ⟨-, none_⟩ | isStr
    · exact some_ none_
    · exact nomatch isCon.symm.trans isStr
  unfold Reader.getFirstArg
  rw [if_neg plain]
  obtain ⟨functor, found, behind⟩ := Option.bind_eq_some_iff.1 behind
  by_cases named : functor = COLON
  · rw [if_pos named] at behind
    have isFunctor : r.isFunctor p = some true := by
      obtain ⟨d, first, -⟩ := Option.bind_eq_some_iff.1 found
      have self : d = p := by
        have notRef : p.tag.isRef = false := by
          rcases shape with ⟨isCon, -⟩ | isStr
          · rw [isCon]
            rfl
          · exact str_not_ref isStr
        exact Option.some.inj (first.symm.trans (r.deref_self isTerm notRef))
      unfold Reader.isFunctor
      rw [first, self]
      exact congrArg some (decide_eq_true (shape.imp_left And.left))
    obtain ⟨a, last, first⟩ := calls.arg_first
    refine ⟨a, ?_, first⟩
    unfold Reader.firstArgOf
    rw [isFunctor, Option.bind_eq_bind, Option.bind_some, if_neg (by decide), found]
    refine (if_pos named).trans ?_
    rw [behind, Option.bind_eq_bind, Option.bind_some, calls.isFunctor, Option.bind_some,
      if_neg (by decide), calls.functor]
    exact last
  · rw [if_neg named] at behind
    obtain rfl := Option.some.inj behind
    exact calls.firstArgOf

theorem canUnifyArgs_iff (head : Calls r f h d) (isTerm : r.Term p)
    (shape : p.tag = .CON ∧ p.arity = 0 ∨ p.tag = .STR) (behind : r.goalOf p = some g)
    (calls : Calls r f g d') :
    ∃ same, r.canUnifyArgs h p = some same ∧ (same = true ↔ ∃ σ, Solves r.mem h g σ) := by
  unfold Reader.canUnifyArgs
  by_cases isStr : p.tag = .STR
  · rw [if_pos isStr]
    obtain ⟨functor, found, behind⟩ := Option.bind_eq_some_iff.1 behind
    rw [found]
    by_cases named : functor = COLON
    · rw [if_pos named] at behind
      obtain ⟨same, tested, solvable⟩ := r.canUnify_iff head.isTerm calls.isTerm
      refine ⟨same, (if_pos named).trans ?_, solvable⟩
      rw [behind]
      exact tested
    · rw [if_neg named] at behind
      obtain rfl := Option.some.inj behind
      obtain ⟨same, tested, solvable⟩ := r.canUnify_iff head.isTerm calls.isTerm
      exact ⟨same, (if_neg named).trans tested, solvable⟩
  · -- both are the constant
    obtain ⟨isCon, none_⟩ := shape.resolve_right isStr
    have notRef : p.tag.isRef = false := by
      rw [isCon]
      rfl
    rw [goalOf_con isTerm isCon none_] at behind
    obtain rfl := Option.some.inj behind
    have self : d' = p := Option.some.inj (calls.found.symm.trans (r.deref_self isTerm notRef))
    have same : p = f.cell := by
      rcases calls.shape with ⟨-, same⟩ | ⟨-, isStr', -⟩
      · exact self.symm.trans same
      · exact absurd (self ▸ isStr') isStr
    have same' : d = f.cell := by
      rcases head.shape with ⟨-, same'⟩ | ⟨some_, -⟩
      · exact same'
      · exact absurd (same ▸ none_) some_
    have other : h ≠ COLON := by
      rintro rfl
      have colon := Option.some.inj (head.found.symm.trans (r.deref_self head.isTerm rfl))
      exact f.notColon (same'.symm.trans colon)
    rw [if_neg isStr, if_neg other]
    refine ⟨true, ?_, iff_of_true rfl ⟨fun _ _ => none, ?_⟩⟩
    · rw [Option.bind_eq_bind, Option.bind_some]
      dsimp only
      rw [head.isFunctor, Option.bind_eq_bind, Option.bind_some, if_neg (by decide), head.functor]
      exact if_pos (same ▸ none_)
    · unfold Solves
      rw [tree_eq head.derefs, same', same]

theorem same_key_of_matches {onHead : Bool} {clause pattern a a' : Cell}
    (found : r.clauseHead clause = some h) (head : Calls r f h d) (first : IsFirst r f d a)
    (found' : r.clauseHead pattern = some p) (behind : r.goalOf p = some g)
    (calls : Calls r f g d') (first' : IsFirst r f d' a') (some_ : f.cell.arity ≠ 0)
    (notRef : a.tag.isRef = false) (notRef' : a'.tag.isRef = false)
    (matches_ : Matches r onHead clause pattern) :
    a.tag = a'.tag ∧ r.simpleHash a = r.simpleHash a' := by
  obtain ⟨⟨h', p', g', isHead, isHead', behind', σ, solves⟩, -⟩ := matches_
  obtain rfl := Option.some.inj (found.symm.trans isHead)
  obtain rfl := Option.some.inj (found'.symm.trans isHead')
  obtain rfl := Option.some.inj (behind.symm.trans behind')
  exact head.same_key calls first first' some_ notRef notRef' solves

end Goals


end Epilog.Interp.ClauseTerms
