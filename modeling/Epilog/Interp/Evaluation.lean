/- Module: Epilog/Interp/Evaluation
   source: src/src/interp/arithmetics.cpp (load_fns, lookup, eval)
   digest: The stack machine that evaluates an expression, and the number that the expression
     stands for. -/

import Epilog.Interp.Arithmetics
import Epilog.Interp.CyclicTerm

set_option autoImplicit false

namespace Epilog.Interp.Evaluation

open Epilog.Common.Term Epilog.Common.TermWalk Epilog.Lib.Fuel Epilog.Interp.Arithmetics
open Epilog.Node.InConnection (intCell intValue)
open Epilog.Interp.CyclicTerm (functorOf)

section Source

/-- The functions of `load_fns` -/
inductive Fn
  | plus_2 | minus_2 | times_2 | mod_2 | rem_2 | div_2 | div0_2 | max_2 | min_2
  deriving DecidableEq

namespace Fn

/-- The functors under which `load_fns` loads them -/
def functor : Fn → Cell
  | plus_2 => Cell.conOfName (Cell.ascii "+") 2
  | minus_2 => Cell.conOfName (Cell.ascii "-") 2
  | times_2 => Cell.conOfName (Cell.ascii "*") 2
  | mod_2 => Cell.conOfName (Cell.ascii "mod") 2
  | rem_2 => Cell.conOfName (Cell.ascii "rem") 2
  | div_2 => Cell.conOfName (Cell.ascii "div") 2
  | div0_2 => Cell.conOfName (Cell.ascii "//") 2
  | max_2 => Cell.conOfName (Cell.ascii "max") 2
  | min_2 => Cell.conOfName (Cell.ascii "min") 2

def call : Fn → Cell → Cell → Except EvalError Cell
  | plus_2, a, b => .ok (Arithmetics.plus_2 a b)
  | minus_2, a, b => .ok (Arithmetics.minus_2 a b)
  | times_2, a, b => .ok (Arithmetics.times_2 a b)
  | mod_2, a, b => Arithmetics.mod_2 a b
  | rem_2, a, b => Arithmetics.rem_2 a b
  | div_2, a, b => Arithmetics.div_2 a b
  | div0_2, a, b => Arithmetics.div0_2 a b
  | max_2, a, b => .ok (Arithmetics.max_2 a b)
  | min_2, a, b => .ok (Arithmetics.min_2 a b)

def all : List Fn := [plus_2, minus_2, times_2, mod_2, rem_2, div_2, div0_2, max_2, min_2]

end Fn

def lookup (f : Cell) : Option Fn := Fn.all.find? fun fn => fn.functor = f

/-- The stack with the mark `visited` of each entry, `args_`, and `result` -/
structure State where
  stack : List (Cell × Bool)
  args : List Cell
  result : Cell

variable (mem : ℕ → Cell)

/-- The arguments go onto the stack from the last to the first. -/
def pushArgs (fuel : ℕ) (t : Cell) (n : ℕ) (stack : List (Cell × Bool)) :
    Option (List (Cell × Bool)) :=
  (List.range n).foldlM (fun stack i => do
    let a ← arg mem fuel t (n - i - 1)
    return (a, false) :: stack) stack

/-- A turn of the loop with the entry that it takes from the stack -/
def evalTurn (fuel : ℕ) (t : Cell) (visited : Bool) (s : State) :
    Option (Except EvalError State) :=
  if t.tag = .INT ∨ t.tag = .BIG then some (.ok { s with args := s.args ++ [t] })
  else if visited then
    match lookup t with
    | none => some (.error .undefinedFunction)
    | some fn =>
      let off := s.args.length - t.arity
      match s.args.drop off with
      | [a, b] => some ((fn.call a b).map fun result =>
          { stack := (result, true) :: s.stack, args := s.args.take off, result })
      | _ => none
  else
    match t.tag with
    | .CON | .STR => do
      let f ← functorOf mem t
      let stack ← pushArgs mem fuel t f.arity ((f, true) :: s.stack)
      return .ok { s with stack }
    | .REF | .RFW => some (.error .notInstantiated)
    | .BIG => some (.error .unsupported)
    | _ => some (.ok s)

def evalLoop : (fuel : ℕ) → State → Option (Except EvalError Cell)
  | 0, _ => none
  | _ + 1, ⟨[], _, result⟩ => some (.ok result)
  | fuel + 1, ⟨(t, visited) :: stack, args, result⟩ =>
    (evalTurn mem fuel t visited ⟨stack, args, result⟩).bind fun turn =>
      match turn with
      | .ok s => evalLoop fuel s
      | .error err => some (.error err)

/-- `eval`, with the arguments that an evaluation before it has left behind -/
def eval (fuel : ℕ) (args : List Cell) (expr : Cell) : Option (Except EvalError Cell) :=
  evalLoop mem fuel ⟨[(expr, false)], args, expr⟩

end Source

section Meaning

/-- The numbers of expressions: those of an integer cell, and bignums -/
inductive Number
  | integer (v : ℤ)
  | bignum (c : Cell)
  deriving DecidableEq

def Number.cell : Number → Cell
  | integer v => intCell v
  | bignum c => c

namespace Fn

/-- The function that an operation is to compute -/
def exact : Fn → ℤ → ℤ → ℤ
  | plus_2 => (· + ·)
  | minus_2 => (· - ·)
  | times_2 => (· * ·)
  | mod_2 => Int.fmod
  | rem_2 => Int.tmod
  | div_2 => Int.fdiv
  | div0_2 => Int.tdiv
  | max_2 => max
  | min_2 => min

/-- The function that it computes when nothing wraps; for division see the laws. -/
def computed : Fn → ℤ → ℤ → ℤ
  | mod_2 => modulus
  | rem_2 => remainder
  | div_2 => floored
  | div0_2 => quotient
  | fn => fn.exact

/-- The functions that divide by their second argument -/
def divides : Fn → Bool
  | mod_2 | rem_2 | div_2 | div0_2 => true
  | _ => false

/-- The operation on numbers, which reports a bignum, and a result that no cell holds. -/
def apply (fn : Fn) (x y : Number) : Except EvalError Number :=
  if fn.divides = true ∧ y = .integer 0 then .error .divisionByZero
  else
    match x, y with
    | .integer v, .integer w =>
      if Representable (fn.exact v w) then .ok (.integer (fn.computed v w))
      else .error .unsupported
    | _, _ => .error .unsupported

end Fn

/-- An arithmetic expression -/
inductive Expr
  | number (n : Number)
  | unknown
  | apply (f : Cell) (args : List Expr)

def applyTo (f : Cell) (operands : List Number) : Except EvalError Number :=
  match lookup f, operands with
  | some fn, [x, y] => fn.apply x y
  | _, _ => .error .undefinedFunction

mutual

/-- The number that an expression stands for, or what there is to report of it: the arguments come
from left to right before the function. -/
def Expr.value : Expr → Except EvalError Number
  | .number n => .ok n
  | .unknown => .error .notInstantiated
  | .apply f args => (values args).bind (applyTo f)

def values : List Expr → Except EvalError (List Number)
  | [] => .ok []
  | e :: es => e.value.bind fun n => (values es).map (n :: ·)

end

/-- A cell is the root of an expression. A reference is an unknown: the evaluation follows those
to an argument and no other. -/
inductive Represents (mem : ℕ → Cell) : Cell → Expr → Prop
  | integer {c : Cell} (isInt : c.tag = .INT) : Represents mem c (.number (.integer (intValue c)))
  | bignum {c : Cell} (isBig : c.tag = .BIG) : Represents mem c (.number (.bignum c))
  | unknown {c : Cell} (isRef : c.tag.isRef = true) : Represents mem c .unknown
  | atom {c : Cell} (isCon : c.tag = .CON) (plain : c.arity = 0) : Represents mem c (.apply c [])
  | compound {c f : Cell} {as : List Cell} {es : List Expr} (isStr : c.tag = .STR)
      (atFunctor : functor mem c = some f) (count : as.length = f.arity)
      (arguments : ∀ (i : ℕ) a, as[i]? = some a → Finds (fun n => arg mem n c i) a)
      (each : as.length = es.length)
      (parts : ∀ (i : ℕ) a e, as[i]? = some a → es[i]? = some e → Represents mem a e) :
      Represents mem c (.apply f es)

/-- The evaluation gives the number that the expression stands for, or reports what there is to
report, whatever is left in `args_`. -/
def Reports (mem : ℕ → Cell) (c : Cell) (e : Expr) : Prop :=
  ∀ args, Finds (fun n => eval mem n args c) (e.value.map Number.cell)

end Meaning

section Operations

variable {a b c : Cell} {x y n : Number} {fn : Fn} {err : EvalError}

/-- What stands for a number in the machine -/
def Number.Valid : Number → Prop
  | integer v => Representable v
  | bignum c => c.tag = .BIG

theorem Number.tag_cell (valid : n.Valid) : n.cell.tag = .INT ∨ n.cell.tag = .BIG := by
  cases n with
  | integer v => exact .inl (Cell.tag_make _ _)
  | bignum c => exact .inr valid

theorem cell_of_int (isInt : c.tag = .INT) : (Number.integer (intValue c)).cell = c :=
  intCell_intValue isInt

theorem call_divides (divides : fn.divides = true) (nonzero : intValue b ≠ 0) :
    ∃ c, fn.call a b = .ok c ∧ c.tag = .INT ∧
      intValue c = fn.computed (intValue a) (intValue b) := by
  cases fn with
  | mod_2 => exact mod_2_ok nonzero
  | rem_2 => exact rem_2_ok nonzero
  | div_2 => exact div_2_ok nonzero
  | div0_2 => exact div0_2_ok nonzero
  | plus_2 => cases divides
  | minus_2 => cases divides
  | times_2 => cases divides
  | max_2 => cases divides
  | min_2 => cases divides

theorem call_zero (divides : fn.divides = true) (zero : intValue b = 0) :
    fn.call a b = .error .divisionByZero := by
  cases fn with
  | mod_2 => rw [Fn.call, Arithmetics.mod_2, if_pos zero]
  | rem_2 => rw [Fn.call, Arithmetics.rem_2, if_pos zero]
  | div_2 => rw [Fn.call, Arithmetics.div_2, if_pos zero]
  | div0_2 => rw [Fn.call, Arithmetics.div0_2, if_pos zero]
  | plus_2 => cases divides
  | minus_2 => cases divides
  | times_2 => cases divides
  | max_2 => cases divides
  | min_2 => cases divides

theorem call_other (other : fn.divides = false) :
    fn.call a b = .ok (intCell (fn.exact (intValue a) (intValue b))) ∧
      fn.computed = fn.exact := by
  cases fn with
  | plus_2 => exact ⟨rfl, rfl⟩
  | minus_2 => exact ⟨rfl, rfl⟩
  | times_2 => exact ⟨rfl, rfl⟩
  | max_2 => exact ⟨rfl, rfl⟩
  | min_2 => exact ⟨rfl, rfl⟩
  | mod_2 => cases other
  | rem_2 => cases other
  | div_2 => cases other
  | div0_2 => cases other

theorem intValue_cell {v : ℤ} (valid : (Number.integer v).Valid) :
    intValue (Number.integer v).cell = v := intValue_intCell valid

theorem call_value (validX : x.Valid) (validY : y.Valid) (applied : fn.apply x y = .ok n) :
    fn.call x.cell y.cell = .ok n.cell ∧ n.Valid := by
  unfold Fn.apply at applied
  split_ifs at applied with zero
  cases x with
  | bignum c => exact nomatch applied
  | integer v =>
    cases y with
    | bignum c => exact nomatch applied
    | integer w =>
      dsimp only at applied
      split_ifs at applied with inside
      cases applied
      have isV := intValue_cell validX
      have isW := intValue_cell validY
      cases divides : fn.divides with
      | false =>
        obtain ⟨called, exactly⟩ := @call_other (Number.integer v).cell (Number.integer w).cell
          fn divides
        rw [isV, isW] at called
        rw [exactly]
        exact ⟨called, inside⟩
      | true =>
        have nonzero : intValue (Number.integer w).cell ≠ 0 := by
          rw [isW]
          rintro rfl
          exact zero ⟨divides, rfl⟩
        obtain ⟨c, called, isInt, isC⟩ := @call_divides (Number.integer v).cell _ fn divides nonzero
        rw [isV, isW] at isC
        have same := intCell_intValue isInt
        rw [isC] at same
        refine ⟨called.trans (congrArg Except.ok same.symm), ?_⟩
        have inside := intValue_representable c
        rwa [isC] at inside

theorem call_error (applied : fn.apply x y = .error err) (reported : err ≠ .unsupported) :
    fn.call x.cell y.cell = .error err := by
  unfold Fn.apply at applied
  split_ifs at applied with zero
  · cases applied
    obtain ⟨divides, rfl⟩ := zero
    exact call_zero divides (intValue_cell (by unfold Number.Valid Representable MIN MAX; omega))
  · cases x with
    | bignum c =>
      cases applied
      exact absurd rfl reported
    | integer v =>
      cases y with
      | bignum c =>
        cases applied
        exact absurd rfl reported
      | integer w =>
        dsimp only at applied
        split_ifs at applied
        cases applied
        exact absurd rfl reported

theorem call_supported (fn : Fn) (a b : Cell) : fn.call a b ≠ .error .unsupported := by
  intro called
  cases divides : fn.divides with
  | false => exact nomatch (call_other divides).1.symm.trans called
  | true =>
    by_cases zero : intValue b = 0
    · exact nomatch (call_zero divides zero).symm.trans called
    · obtain ⟨c, found, -, -⟩ := @call_divides a b fn divides zero
      exact nomatch found.symm.trans called

end Operations

section Fuel

variable {mem : ℕ → Cell}

theorem pushArgs_lasting (t : Cell) (n : ℕ) (stack : List (Cell × Bool)) :
    Lasting fun fuel => pushArgs mem fuel t n stack := by
  unfold pushArgs
  exact Lasting.foldlM (fun stack i => (arg_lasting mem t (n - i - 1)).bind fun a => .const _) _ _

theorem evalTurn_lasting (t : Cell) (visited : Bool) (s : State) :
    Lasting fun fuel => evalTurn mem fuel t visited s := by
  have inner : Lasting fun fuel => do
      let f ← functorOf mem t
      let stack ← pushArgs mem fuel t f.arity ((f, true) :: s.stack)
      return Except.ok (ε := EvalError) { s with stack } :=
    (Lasting.const _).bind fun f => (pushArgs_lasting t f.arity _).bind fun _ => .const _
  unfold evalTurn
  refine .ite (.const _) (.ite (.const _) ?_)
  cases t.tag with
  | STR => exact inner
  | CON => exact inner
  | REF => exact .const _
  | RFW => exact .const _
  | INT => exact .const _
  | BIG => exact .const _
  | DAT => exact .const _
  | FWD => exact .const _

theorem evalLoop_lasting (s : State) : Lasting fun fuel => evalLoop mem fuel s := by
  refine lasting_of_succ fun n => ?_
  induction n generalizing s with
  | zero =>
    intro out found
    exact nomatch found
  | succ n ih =>
    obtain ⟨stack, args, result⟩ := s
    intro out found
    cases stack with
    | nil => exact found
    | cons top stack =>
      obtain ⟨turn, taken, found⟩ := Option.bind_eq_some_iff.1 found
      refine Option.bind_eq_some_iff.2
        ⟨turn, evalTurn_lasting _ _ _ n (n + 1) turn (Nat.le_succ n) taken, ?_⟩
      cases turn with
      | ok s => exact ih s out found
      | error err => exact found

end Fuel

section Machine

variable {mem : ℕ → Cell} {c t : Cell} {visited : Bool} {stack : List (Cell × Bool)}
  {args : List Cell} {result : Cell} {s s' s'' : State} {err : EvalError}

/-- One state of the machine comes to what another does. -/
def Continues (mem : ℕ → Cell) (s s' : State) : Prop :=
  ∀ out, Finds (fun n => evalLoop mem n s') out → Finds (fun n => evalLoop mem n s) out

theorem Continues.refl (s : State) : Continues mem s s := fun _ found => found

theorem Continues.trans (first : Continues mem s s') (second : Continues mem s' s'') :
    Continues mem s s'' := fun out found => first out (second out found)

theorem finds_stop (args : List Cell) (result : Cell) :
    Finds (fun n => evalLoop mem n ⟨[], args, result⟩) (.ok result) := ⟨1, rfl⟩

theorem continues_turn
    (taken : Finds (fun n => evalTurn mem n t visited ⟨stack, args, result⟩) (.ok s')) :
    Continues mem ⟨(t, visited) :: stack, args, result⟩ s' := by
  rintro out ⟨m, found⟩
  obtain ⟨n, taken⟩ := taken
  refine ⟨max n m + 1, Option.bind_eq_some_iff.2 ⟨.ok s', ?_, ?_⟩⟩
  · exact evalTurn_lasting _ _ _ n _ _ (by omega) taken
  · exact evalLoop_lasting s' m _ out (by omega) found

theorem finds_error
    (taken : Finds (fun n => evalTurn mem n t visited ⟨stack, args, result⟩) (.error err)) :
    Finds (fun n => evalLoop mem n ⟨(t, visited) :: stack, args, result⟩) (.error err) := by
  obtain ⟨n, taken⟩ := taken
  refine ⟨n + 1, Option.bind_eq_some_iff.2 ⟨.error err, ?_, rfl⟩⟩
  exact evalTurn_lasting _ _ _ n _ _ (by omega) taken

theorem continues_number (number : t.tag = .INT ∨ t.tag = .BIG) :
    Continues mem ⟨(t, visited) :: stack, args, result⟩ ⟨stack, args ++ [t], result⟩ :=
  continues_turn ⟨0, if_pos number⟩

theorem finds_pushArgs {as : List Cell} {n : ℕ} (count : as.length = n)
    (arguments : ∀ (i : ℕ) a, as[i]? = some a → Finds (fun fuel => arg mem fuel t i) a) :
    Finds (fun fuel => pushArgs mem fuel t n stack) (as.map (·, false) ++ stack) := by
  -- after `k` steps the last `k` arguments are on the stack
  have some_ : ∀ k, k ≤ n → Finds (fun fuel => (List.range k).foldlM (fun stack i => do
      let a ← arg mem fuel t (n - i - 1)
      return (a, false) :: stack) stack) ((as.drop (n - k)).map (·, false) ++ stack) := by
    intro k
    induction k with
    | zero =>
      intro _
      refine ⟨0, ?_⟩
      rw [Nat.sub_zero, ← count, List.drop_length]
      rfl
    | succ k ih =>
      intro room
      have small : n - k - 1 < as.length := by omega
      have next : as.drop (n - (k + 1)) = as[n - k - 1] :: as.drop (n - k) := by
        rw [show n - (k + 1) = n - k - 1 by omega, List.drop_eq_getElem_cons small,
          show n - k - 1 + 1 = n - k by omega]
      obtain ⟨m, before⟩ := ih (by omega)
      obtain ⟨m', found⟩ := arguments (n - k - 1) _ (List.getElem?_eq_getElem small)
      have lasting (stack : List (Cell × Bool)) : Lasting fun fuel =>
          (List.range k).foldlM (fun stack i => do
            let a ← arg mem fuel t (n - i - 1)
            return (a, false) :: stack) stack :=
        Lasting.foldlM (fun stack i => (arg_lasting mem t (n - i - 1)).bind fun a => .const _) _ _
      refine ⟨max m m', ?_⟩
      dsimp only at before found ⊢
      rw [List.range_succ, List.foldlM_append]
      refine Option.bind_eq_some_iff.2 ⟨_, lasting stack m _ _ (le_max_left m m') before, ?_⟩
      have last := arg_lasting mem t _ m' _ _ (le_max_right m m') found
      dsimp only at last
      rw [next, List.foldlM_cons, last]
      rfl
  have all := some_ n le_rfl
  rwa [Nat.sub_self, List.drop_zero] at all

theorem evalTurn_call {fn : Fn} {a b : Cell} (isCon : t.tag = .CON) (arity : t.arity = 2)
    (here : lookup t = some fn) (n : ℕ) :
    evalTurn mem n t true ⟨stack, args ++ [a, b], result⟩ = some ((fn.call a b).map fun result =>
      { stack := (result, true) :: stack, args, result }) := by
  have notNumber : ¬ (t.tag = .INT ∨ t.tag = .BIG) := by
    rw [isCon]
    decide
  have off : (args ++ [a, b]).length - t.arity = args.length := by
    rw [arity, List.length_append]
    exact Nat.add_sub_cancel _ _
  rw [evalTurn, if_neg notNumber, if_pos rfl, here]
  dsimp only
  rw [off, List.drop_left, List.take_left]

theorem evalTurn_undefined (isCon : t.tag = .CON) (nowhere : lookup t = none) (n : ℕ) :
    evalTurn mem n t true s = some (.error .undefinedFunction) := by
  have notNumber : ¬ (t.tag = .INT ∨ t.tag = .BIG) := by
    rw [isCon]
    decide
  rw [evalTurn, if_neg notNumber, if_pos rfl, nowhere]

theorem finds_turn_functor {f : Cell} {as : List Cell} (tag : t.tag = .CON ∨ t.tag = .STR)
    (atFunctor : functorOf mem t = some f) (count : as.length = f.arity)
    (arguments : ∀ (i : ℕ) a, as[i]? = some a → Finds (fun fuel => arg mem fuel t i) a) :
    Continues mem ⟨(t, false) :: stack, args, result⟩
      ⟨as.map (·, false) ++ (f, true) :: stack, args, result⟩ := by
  refine continues_turn ?_
  obtain ⟨n, pushed⟩ : Finds (fun fuel => pushArgs mem fuel t f.arity ((f, true) :: stack)) _ :=
    finds_pushArgs count arguments
  refine ⟨n, ?_⟩
  dsimp only at pushed ⊢
  have notNumber : ¬ (t.tag = .INT ∨ t.tag = .BIG) := by
    rcases tag with tag | tag <;> rw [tag] <;> decide
  rw [evalTurn, if_neg notNumber, if_neg Bool.false_ne_true]
  rcases tag with tag | tag
  · rw [tag]
    dsimp only
    rw [atFunctor]
    exact Option.bind_eq_some_iff.2 ⟨f, rfl, Option.bind_eq_some_iff.2 ⟨_, pushed, rfl⟩⟩
  · rw [tag]
    dsimp only
    rw [atFunctor]
    exact Option.bind_eq_some_iff.2 ⟨f, rfl, Option.bind_eq_some_iff.2 ⟨_, pushed, rfl⟩⟩

theorem finds_unknown (isRef : t.tag.isRef = true) :
    Finds (fun n => evalLoop mem n ⟨(t, false) :: stack, args, result⟩)
      (.error .notInstantiated) := by
  refine finds_error ⟨0, ?_⟩
  dsimp only
  unfold evalTurn
  cases tag : t.tag with
  | REF => rfl
  | RFW => rfl
  | _ =>
    rw [tag] at isRef
    exact nomatch isRef

end Machine

section Correctness

variable {mem : ℕ → Cell} {c f : Cell} {e : Expr} {es : List Expr} {as : List Cell}

/-- The machine comes past the cell with the number in the arguments, or reports the error. -/
def Performs (mem : ℕ → Cell) (c : Cell) : Except EvalError Number → Prop
  | .ok n => n.Valid ∧ ∀ stack args result, ∃ result', (result = c → result' = n.cell) ∧
      Continues mem ⟨(c, false) :: stack, args, result⟩ ⟨stack, args ++ [n.cell], result'⟩
  | .error err => err ≠ .unsupported → ∀ stack args result,
      Finds (fun n => evalLoop mem n ⟨(c, false) :: stack, args, result⟩) (.error err)

/-- The same for some cells -/
def PerformsAll (mem : ℕ → Cell) (as : List Cell) : Except EvalError (List Number) → Prop
  | .ok ns => (∀ n ∈ ns, n.Valid) ∧ ns.length = as.length ∧ ∀ stack args result, ∃ result',
      Continues mem ⟨as.map (·, false) ++ stack, args, result⟩
        ⟨stack, args ++ ns.map Number.cell, result'⟩
  | .error err => err ≠ .unsupported → ∀ stack args result,
      Finds (fun n => evalLoop mem n ⟨as.map (·, false) ++ stack, args, result⟩) (.error err)

theorem performs_all (each : as.length = es.length)
    (parts : ∀ (i : ℕ) a e, as[i]? = some a → es[i]? = some e → Performs mem a e.value) :
    PerformsAll mem as (values es) := by
  induction es generalizing as with
  | nil =>
    obtain rfl := List.length_eq_zero_iff.1 each
    rw [values]
    refine ⟨nofun, rfl, fun stack args result => ⟨result, ?_⟩⟩
    rw [List.map_nil, List.map_nil, List.append_nil]
    exact .refl _
  | cons e es ih =>
    obtain ⟨a, as, rfl⟩ := List.exists_cons_of_length_eq_add_one each
    have first := parts 0 a e rfl rfl
    have rest := ih (Nat.succ.inj each) fun i a e atA atE => parts (i + 1) a e atA atE
    rw [values]
    cases value : e.value with
    | error err =>
      rw [value] at first
      exact fun reported stack args result => first reported _ args result
    | ok n =>
      rw [value] at first
      obtain ⟨valid, first⟩ := first
      cases later : values es with
      | error err =>
        rw [later] at rest
        intro reported stack args result
        obtain ⟨result', -, onward⟩ := first (as.map (·, false) ++ stack) args result
        exact onward _ (rest reported stack _ result')
      | ok ns =>
        rw [later] at rest
        obtain ⟨valid', count, rest⟩ := rest
        refine ⟨List.forall_mem_cons.2 ⟨valid, valid'⟩, congrArg (· + 1) count,
          fun stack args result => ?_⟩
        obtain ⟨result', -, onward⟩ := first (as.map (·, false) ++ stack) args result
        obtain ⟨result'', onward'⟩ := rest stack (args ++ [n.cell]) result'
        rw [List.append_assoc] at onward'
        exact ⟨result'', onward.trans onward'⟩

theorem functor_of_lookup {fn : Fn} (here : lookup f = some fn) : f.tag = .CON ∧ f.arity = 2 := by
  have same : fn.functor = f := by
    have held := List.find?_some (p := fun fn : Fn => decide (fn.functor = f)) here
    exact of_decide_eq_true held
  rw [← same]
  cases fn <;> decide

theorem performs_apply (tag : c.tag = .CON ∨ c.tag = .STR) (atFunctor : functorOf mem c = some f)
    (isCon : f.tag = .CON) (count : as.length = f.arity)
    (arguments : ∀ (i : ℕ) a, as[i]? = some a → Finds (fun fuel => arg mem fuel c i) a)
    (operands : PerformsAll mem as (values es)) :
    Performs mem c ((values es).bind (applyTo f)) := by
  have start (stack args result) : Continues mem ⟨(c, false) :: stack, args, result⟩ _ :=
    finds_turn_functor tag atFunctor count arguments
  cases value : values es with
  | error err =>
    rw [value] at operands
    exact fun reported stack args result =>
      start stack args result _ (operands reported _ args result)
  | ok ns =>
    rw [value] at operands
    obtain ⟨valid, same, operands⟩ := operands
    have ready (stack args result) : ∃ result',
        Continues mem ⟨(c, false) :: stack, args, result⟩
          ⟨(f, true) :: stack, args ++ ns.map Number.cell, result'⟩ := by
      obtain ⟨result', onward⟩ := operands ((f, true) :: stack) args result
      exact ⟨result', (start stack args result).trans onward⟩
    dsimp only [Except.bind]
    unfold applyTo
    cases here : lookup f with
    | none =>
      intro _ stack args result
      obtain ⟨result', onward⟩ := ready stack args result
      exact onward _ (finds_error ⟨0, evalTurn_undefined isCon here 0⟩)
    | some fn =>
      obtain ⟨-, arity⟩ := functor_of_lookup here
      obtain ⟨x, y, rfl⟩ := List.length_eq_two.1 (same.trans (count.trans arity))
      have validX := valid x List.mem_cons_self
      have validY := valid y (List.mem_cons_of_mem x List.mem_cons_self)
      dsimp only
      cases applied : fn.apply x y with
      | error err =>
        intro reported stack args result
        obtain ⟨result', onward⟩ := ready stack args result
        refine onward _ (finds_error ⟨0, ?_⟩)
        dsimp only
        rw [List.map_cons, List.map_cons, List.map_nil, evalTurn_call isCon arity here,
          call_error applied reported]
        rfl
      | ok n =>
        obtain ⟨called, valid⟩ := call_value validX validY applied
        refine ⟨valid, fun stack args result => ⟨n.cell, fun _ => rfl, ?_⟩⟩
        obtain ⟨result', onward⟩ := ready stack args result
        have result : Continues mem ⟨(n.cell, true) :: stack, args, n.cell⟩
            ⟨stack, args ++ [n.cell], n.cell⟩ := continues_number (n.tag_cell valid)
        refine onward.trans (.trans (continues_turn ⟨0, ?_⟩) result)
        dsimp only
        rw [List.map_cons, List.map_cons, List.map_nil, evalTurn_call isCon arity here, called]
        rfl

theorem Represents.performs (represents : Represents mem c e) : Performs mem c e.value := by
  induction represents with
  | @integer c isInt =>
    rw [Expr.value]
    refine ⟨intValue_representable c, fun stack args result => ⟨result, ?_, ?_⟩⟩
    · exact fun same => same.trans (cell_of_int isInt).symm
    · rw [cell_of_int isInt]
      exact continues_number (.inl isInt)
  | bignum isBig =>
    rw [Expr.value]
    exact ⟨isBig, fun stack args result => ⟨result, id, continues_number (.inr isBig)⟩⟩
  | unknown isRef =>
    rw [Expr.value]
    exact fun _ stack args result => finds_unknown isRef
  | @atom c isCon plain =>
    rw [Expr.value]
    have count : ([] : List Cell).length = c.arity := plain.symm
    refine performs_apply (.inl isCon) ?_ isCon count nofun (performs_all rfl nofun)
    unfold functorOf
    exact if_pos isCon
  | compound isStr atFunctor count arguments each parts ih =>
    rw [Expr.value]
    refine performs_apply (.inr isStr) ?_ ?_ count arguments (performs_all each ih)
    · unfold functorOf
      rw [if_neg (by rw [isStr]; decide), atFunctor]
    · unfold functor at atFunctor
      split_ifs at atFunctor with isCon
      rwa [← Option.some.inj atFunctor]

theorem evalTurn_supported (fuel : ℕ) (t : Cell) (visited : Bool) (s : State) :
    evalTurn mem fuel t visited s ≠ some (.error .unsupported) := by
  intro taken
  unfold evalTurn at taken
  split_ifs at taken with number isVisited
  · exact nomatch Option.some.inj taken
  · cases here : lookup t with
    | none =>
      rw [here] at taken
      exact nomatch Option.some.inj taken
    | some fn =>
      rw [here] at taken
      dsimp only at taken
      split at taken
      · rename_i a b _
        have called := Option.some.inj taken
        cases result : fn.call a b with
        | ok r =>
          rw [result] at called
          exact nomatch called
        | error err =>
          rw [result] at called
          cases called
          exact call_supported fn a b result
      · exact nomatch taken
  · have inner : (do
        let f ← functorOf mem t
        let stack ← pushArgs mem fuel t f.arity ((f, true) :: s.stack)
        return Except.ok (ε := EvalError) { s with stack }) ≠ some (.error .unsupported) := by
      intro pushed
      obtain ⟨f, -, pushed⟩ := Option.bind_eq_some_iff.1 pushed
      obtain ⟨stack, -, pushed⟩ := Option.bind_eq_some_iff.1 pushed
      exact nomatch Option.some.inj pushed
    cases tag : t.tag with
    | BIG => exact number (.inr tag)
    | CON =>
      rw [tag] at taken
      exact inner taken
    | STR =>
      rw [tag] at taken
      exact inner taken
    | _ =>
      rw [tag] at taken
      exact nomatch Option.some.inj taken

theorem evalLoop_supported (fuel : ℕ) (s : State) :
    evalLoop mem fuel s ≠ some (.error .unsupported) := by
  induction fuel generalizing s with
  | zero => exact nofun
  | succ fuel ih =>
    obtain ⟨stack, args, result⟩ := s
    cases stack with
    | nil => exact nofun
    | cons top stack =>
      intro found
      obtain ⟨turn, taken, found⟩ := Option.bind_eq_some_iff.1 found
      cases turn with
      | ok s => exact ih s found
      | error err =>
        cases Option.some.inj found
        exact evalTurn_supported fuel _ _ _ taken

theorem reports_iff (represents : Represents mem c e) :
    Reports mem c e ↔ e.value ≠ .error .unsupported := by
  have performs := represents.performs
  constructor
  · intro reports outside
    obtain ⟨n, found⟩ := reports []
    rw [outside] at found
    exact evalLoop_supported n _ found
  · intro inside args
    cases value : e.value with
    | error err =>
      rw [value] at performs inside
      exact performs (fun same => inside (congrArg Except.error same)) [] args c
    | ok n =>
      rw [value] at performs
      obtain ⟨-, runs⟩ := performs
      obtain ⟨result', gives, onward⟩ := runs [] args c
      have stop := @finds_stop mem (args ++ [n.cell]) result'
      rw [gives rfl] at stop
      rw [gives rfl] at onward
      exact onward _ stop

end Correctness

section Claim

/-- For two integers the laws of division hold just where `Divides` says, and the evaluation of an
expression reports every bignum operand, and every result that no cell holds, just where there is
none to report. -/
theorem division_and_evaluation_iff {a b : Cell} (nonzero : intValue b ≠ 0) {mem : ℕ → Cell}
    {c : Cell} {e : Expr} (represents : Represents mem c e) :
    (Obeys a b ↔ Divides (intValue a) (intValue b)) ∧
      (Reports mem c e ↔ e.value ≠ .error .unsupported) :=
  ⟨obeys_iff nonzero, reports_iff represents⟩

/-- A sum of two integers at the bottom of a heap -/
def sumAt (v w : ℤ) (x : ℕ) : Cell :=
  match x with
  | 0 => Fn.plus_2.functor
  | 1 => intCell v
  | 2 => intCell w
  | _ => noTerm

theorem represents_sum {v w : ℤ} (inside : Representable v) (inside' : Representable w) :
    Represents (sumAt v w) (Cell.make .STR 0)
      (.apply Fn.plus_2.functor [.number (.integer v), .number (.integer w)]) := by
  have tags : ∀ u : ℤ, (intCell u).tag = .INT := fun u => Cell.tag_make _ _
  have derefs (u : ℤ) : Finds (fun n => deref (sumAt v w) n (intCell u)) (intCell u) :=
    finds_deref_self fun isRef => by
      rw [tags] at isRef
      exact nomatch isRef
  have root : Finds (fun n => deref (sumAt v w) n (Cell.make .STR 0)) (Cell.make .STR 0) :=
    finds_deref_str (Cell.tag_make _ _)
  have index : (Cell.make .STR 0).index = 0 := Cell.value_make_of_lt _ (by decide)
  have number {u : ℤ} (inside : Representable u) :
      Represents (sumAt v w) (intCell u) (.number (.integer u)) := by
    have same := intValue_intCell inside
    have known : Represents (sumAt v w) (intCell u) _ := .integer (tags u)
    rwa [same] at known
  refine @Represents.compound _ _ Fn.plus_2.functor [intCell v, intCell w] _
    (Cell.tag_make _ _) ?_ ?_ ?_ rfl ?_
  · unfold functor
    rw [index]
    have isCon : Fn.plus_2.functor.tag = .CON := by decide
    exact if_pos isCon
  · have arity : 2 = Fn.plus_2.functor.arity := by decide
    exact arity
  · rintro (_ | _ | i) a found
    · cases found
      refine finds_bind (deref_lasting _ _) (deref_lasting _ _) root ?_
      rw [index]
      exact derefs v
    · cases found
      refine finds_bind (deref_lasting _ _) (deref_lasting _ _) root ?_
      rw [index]
      exact derefs w
    · exact nomatch found
  · rintro (_ | _ | i) a e atA atE
    · cases atA
      cases atE
      exact number inside
    · cases atA
      cases atE
      exact number inside'
    · exact nomatch atA

/-- The laws hold for `7` and `2`, and `1 + 2` is nothing to report. -/
theorem seven_and_two :
    Obeys (intCell 7) (intCell 2) ∧ Reports (sumAt 1 2) (Cell.make .STR 0)
      (.apply Fn.plus_2.functor [.number (.integer 1), .number (.integer 2)]) := by
  have values : intValue (intCell 7) = 7 ∧ intValue (intCell 2) = 2 :=
    ⟨intValue_intCell (by decide), intValue_intCell (by decide)⟩
  have both := division_and_evaluation_iff (a := intCell 7) (b := intCell 2)
    (by rw [values.2]; decide) (represents_sum (v := 1) (w := 2) (by decide) (by decide))
  refine ⟨both.1.2 ?_, both.2.2 (by decide)⟩
  rw [values.1, values.2]
  exact .inl ⟨by decide, .inl (by decide)⟩

/-- `-7 div -2` is `2`, one below the floor; and the sum of the greatest integer and `1` is the
least one. -/
theorem division_and_sum_wrong :
    div_2 (intCell (-7)) (intCell (-2)) = .ok (intCell 2) ∧ (-7 : ℤ).fdiv (-2) = 3 ∧
      ¬ Obeys (intCell (-7)) (intCell (-2)) ∧
      Finds (fun n => eval (sumAt MAX 1) n [] (Cell.make .STR 0)) (.ok (intCell MIN)) ∧
      ¬ Reports (sumAt MAX 1) (Cell.make .STR 0)
        (.apply Fn.plus_2.functor [.number (.integer MAX), .number (.integer 1)]) := by
  have values : intValue (intCell (-7)) = -7 ∧ intValue (intCell (-2)) = -2 :=
    ⟨intValue_intCell (by decide), intValue_intCell (by decide)⟩
  refine ⟨by decide, by decide, ?_, ⟨9, by decide⟩, ?_⟩
  · rw [obeys_iff (by rw [values.2]; decide), values.1, values.2]
    unfold Divides
    decide
  · rw [reports_iff (represents_sum (by decide) (by decide))]
    exact fun inside => inside (by decide)

end Claim

end Epilog.Interp.Evaluation
