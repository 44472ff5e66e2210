/- Module: Epilog/Interp/Coroutines
   source: src/src/interp/interpreter_base.hpp (set_frozen_closure, clear_frozen_closure,
     unwind_frozen_closures, trim_heap_safe, check_frozen), src/src/interp/interpreter_base.cpp
     (reset_to_choice_point, unwind), src/src/interp/builtins.cpp (freeze_2)
   digest: Frozen goals: how they are kept, woken and forgotten. -/

import Epilog.Interp.Backtracking

set_option autoImplicit false

namespace Epilog.Interp.Coroutines

open Epilog.Common.Term Epilog.Common.TermWalk Epilog.Common.Unify Epilog.Common.Forwarding
  Epilog.Lib.FiniteMap Epilog.Interp.Backtracking

section Interpreter

/-- `choice_point_t`, as far as the heap and the trail go -/
structure ChoicePoint where
  tr : ℕ
  h : ℕ

/-- The part of the interpreter that frozen goals depend on. The last address of the trail is in
front, and so is the last choice point. -/
structure Interpreter where
  mem : ℕ → Cell
  size : ℕ
  trail : List ℕ
  watched : List ℕ
  hb : ℕ
  /-- `frozen_closures_` -/
  closures : FMap ℕ Cell
  /-- `heap_limiter_` -/
  limiter : ℕ
  b : List ChoicePoint
  topHb : ℕ
  topTr : ℕ
  /-- The goals that `check_frozen` made an environment for -/
  started : List Cell

/-- `heap_block::watch` -/
def heapWatch (mem : ℕ → Cell) (addr : ℕ) (value : Bool) : ℕ → Cell :=
  if (mem addr).tag = .REF ∧ value = true then
    Function.update mem addr (Cell.make .RFW (mem addr).index)
  else if (mem addr).tag = .RFW ∧ value = false then
    Function.update mem addr (Cell.make .REF (mem addr).index)
  else mem

namespace Interpreter

/-- `set_frozen_closure`; `insert` leaves what is there. -/
def setFrozenClosure (s : Interpreter) (index : ℕ) (closure : Cell) : Interpreter :=
  { s with
    mem := heapWatch s.mem index true
    trail := if index < s.hb then index :: s.trail else s.trail
    closures :=
      if (s.closures.lookup index).isSome then s.closures else s.closures.insert index closure }

def clearFrozenClosure (s : Interpreter) (index : ℕ) : Interpreter :=
  { s with
    mem := heapWatch s.mem index false
    closures := s.closures.erase index }

def bind (s : Interpreter) (r v : Cell) : Interpreter :=
  { s with
    watched := if r.tag = .RFW then addWatched s.watched r.index else s.watched
    mem := Function.update s.mem r.index v
    trail := if r.index < s.hb then r.index :: s.trail else s.trail }

/-- A binding of `unify_helper`: a variable is watched in place of one that is bound to it. -/
def bindVar (s : Interpreter) (r v : Cell) : Interpreter :=
  (if r.tag = .RFW ∧ v.tag.isRef = true then { s with mem := heapWatch s.mem v.index true }
  else s).bind r v

/-- Bindings that are undone: by `unify` when it fails, or by `can_unify` with `unwind`, which
clears the watched closures on the trail. -/
def attempt (s : Interpreter) (binds : List (Cell × Cell)) (clears : Bool) : Interpreter :=
  let t := binds.foldl (fun s p => s.bindVar p.1 p.2) { s with hb := s.size }
  let part := t.trail.take (t.trail.length - s.trail.length)
  let (mem, closures) := if clears then part.foldr clearFrozen (t.mem, t.closures)
    else (t.mem, t.closures)
  { t with
    mem := unwindTrail mem part
    closures := closures
    trail := t.trail.drop (t.trail.length - s.trail.length)
    hb := s.hb }

/-- The body of the loop of `check_frozen` -/
def checkOne (s : Interpreter) (addr : ℕ) : Option Interpreter :=
  let h := s.mem addr
  let cl := (s.closures.lookup addr).getD Cell.EMPTY_LIST
  if h.tag.isRef then do
    let h2 ← deref s.mem (s.size + 1) h
    if h2.tag.isRef ∧ h2.index ≠ addr then
      return (s.setFrozenClosure h2.index cl).clearFrozenClosure addr
    else return s
  else
    some { s.clearFrozenClosure addr with
      started := if cl ≠ Cell.EMPTY_LIST then s.started ++ [cl] else s.started }

/-- `check_frozen`, outside of critical sections -/
def checkFrozen (s : Interpreter) : Option Interpreter := do
  let s ← s.watched.reverse.foldlM checkOne s
  return { s with watched := [] }

/-- `freeze_2` on a variable -/
def freeze (s : Interpreter) (index : ℕ) (goal : Cell) : Interpreter :=
  s.setFrozenClosure index goal

def allocateChoicePoint (s : Interpreter) : Interpreter :=
  { s with b := ⟨s.trail.length, s.size⟩ :: s.b, hb := s.size }

/-- `set_register_hb(b())` -/
def registerHb (s : Interpreter) : Interpreter :=
  { s with
    hb :=
      match s.b with
      | [] => s.topHb
      | ch :: _ => ch.h }

/-- `reset_to_choice_point(b())`: `unwind` and then `trim_heap_safe`. -/
def fail (s : Interpreter) : Interpreter :=
  match s.b with
  | [] => s
  | ch :: _ =>
    let part := s.trail.take (s.trail.length - ch.tr)
    let (mem, closures) := part.foldr clearFrozen (s.mem, s.closures)
    let top := max ch.h s.limiter
    { s with
      mem := unwindTrail mem part
      trail := s.trail.drop (s.trail.length - ch.tr)
      closures := (List.range' top (s.size - top)).foldl (fun m addr => m.erase addr) closures
      size := top
      hb := top }

/-- The last choice point is left, when it has no more clauses. -/
def pop (s : Interpreter) : Interpreter := { s with b := s.b.tail }.registerHb

/-- `cut_direct`, back over `n` choice points -/
def cut (s : Interpreter) (n : ℕ) : Interpreter :=
  let s := { s with b := s.b.drop n }.registerHb
  let start :=
    match s.b with
    | [] => s.topTr
    | ch :: _ => ch.tr
  let k := s.trail.length - start
  { s with trail := (tidy s.hb k (s.trail.take k).reverse).reverse ++ s.trail.drop k }

/-- New cells on the heap -/
def alloc (s : Interpreter) (cells : List Cell) : Interpreter :=
  { s with
    mem := fun a => if a < s.size then s.mem a else cells.getD (a - s.size) (s.mem a)
    size := s.size + cells.length }

end Interpreter

end Interpreter

section Runs

/-- The cell at `v` is bound, through other variables or not, to what is no variable. -/
def valued (s : Interpreter) (v : ℕ) : Bool :=
  match deref s.mem (s.size + 1) (s.mem v) with
  | some d => !d.tag.isRef
  | none => false

/-- What should happen to frozen goals: a goal is pending with the variable it was frozen on until
that variable has a value, and a choice point brings back the goals that were pending. The closures
of the interpreter at the choice points are kept to tell which goals were frozen before. -/
structure History where
  pending : List (ℕ × Cell)
  started : List Cell
  saved : List (List (ℕ × Cell) × FMap ℕ Cell)

/-- What the frozen goals of a run depend on -/
inductive Event
  | alloc (cells : List Cell)
  | bind (r v : Cell)
  | attempt (binds : List (Cell × Cell)) (clears : Bool)
  | freeze (index : ℕ) (goal : Cell)
  | check
  | choose
  | fail
  | pop
  | cut (n : ℕ)
  | limit (l : ℕ)

def Interpreter.apply (s : Interpreter) : Event → Option Interpreter
  | .alloc cells => some (s.alloc cells)
  | .bind r v => some (s.bindVar r v)
  | .attempt binds clears => some (s.attempt binds clears)
  | .freeze index goal => some (s.freeze index goal)
  | .check => s.checkFrozen
  | .choose => some s.allocateChoicePoint
  | .fail => some s.fail
  | .pop => some s.pop
  | .cut n => some (s.cut n)
  | .limit l => some { s with limiter := l }

def History.apply (h : History) (s : Interpreter) : Event → History
  | .freeze index goal => { h with pending := h.pending ++ [(index, goal)] }
  | .check =>
    { h with
      pending := h.pending.filter fun p => !valued s p.1
      started := h.started ++ (h.pending.filter fun p => valued s p.1).map Prod.snd }
  | .choose => { h with saved := (h.pending, s.closures) :: h.saved }
  | .fail => { h with pending := (h.saved.head?.map Prod.fst).getD h.pending }
  | .pop => { h with saved := h.saved.tail }
  | .cut n => { h with saved := h.saved.drop n }
  | _ => h

/-- A binding that unification can make: newer variables are bound to older ones. -/
def ValidBind (s : Interpreter) (r v : Cell) : Prop :=
  r.tag.isRef = true ∧ r.index < s.size ∧ s.mem r.index = r ∧
    (v.tag.isRef = true → v.index < r.index ∧ s.mem v.index = v)

def ValidBinds (s : Interpreter) : List (Cell × Cell) → Prop
  | [] => True
  | (r, v) :: binds => ValidBind s r v ∧ ValidBinds (s.bindVar r v) binds

/-- The events that the interpreter can come to -/
def Valid (s : Interpreter) : Event → Prop
  | .bind r v => ValidBind s r v
  | .attempt binds _ => ValidBinds { s with hb := s.size } binds
  | .freeze index goal => index < s.size ∧ IsVar s.mem index ∧ goal ≠ Cell.EMPTY_LIST
  | .fail => s.b ≠ []
  | _ => True

/-- From one variable to the other it is bound to, always an older one -/
inductive Leads (s : Interpreter) : ℕ → ℕ → Prop
  | refl {v : ℕ} (onHeap : v < s.size) : Leads s v v
  | step {v k : ℕ} (onHeap : v < s.size) (isRef : (s.mem v).tag.isRef = true)
      (older : (s.mem v).index < v) (rest : Leads s (s.mem v).index k) : Leads s v k

def HasGoal (s : Interpreter) (k : ℕ) : Prop := (s.closures.lookup k).isSome

/-- The bindings that a test undoes do not bind a variable with a goal to a watched one. -/
def SparesGoals (s : Interpreter) : List (Cell × Cell) → Prop
  | [] => True
  | (r, v) :: binds =>
    (HasGoal s r.index → v.tag ≠ .RFW) ∧ SparesGoals (s.bindVar r v) binds

/-- The variables in `watched_` are as `check_frozen` expects them: a variable with a goal that is
still unbound is flagged, one that is bound has a value or leads to an unbound variable without a
goal that no other one leads to; and those without a goal do not lead to variables without one. -/
structure Checkable (s : Interpreter) : Prop where
  flagged : ∀ k ∈ s.watched, HasGoal s k → IsVar s.mem k → (s.mem k).tag = .RFW
  leads : ∀ k ∈ s.watched, HasGoal s k → (s.mem k).tag.isRef = true → ¬ IsVar s.mem k →
    ∃ t, Leads s k t ∧ IsVar s.mem t ∧ ¬ HasGoal s t
  apart : ∀ k ∈ s.watched, ∀ k' ∈ s.watched, HasGoal s k → HasGoal s k' → ¬ IsVar s.mem k →
    ¬ IsVar s.mem k' → ∀ t, IsVar s.mem t → Leads s k t → Leads s k' t → k = k'
  rest : ∀ k ∈ s.watched, ¬ HasGoal s k → (s.mem k).tag.isRef = true → ¬ IsVar s.mem k →
    ∃ t, Leads s k t ∧ IsVar s.mem t ∧ HasGoal s t

/-- Backtracking finds the goals that were frozen before the choice point, and those frozen since,
if they are to stay on the heap, on watched variables on the trail; and only those. -/
structure Undoable (s : Interpreter) (ch : ChoicePoint) (closures : FMap ℕ Cell) : Prop where
  stay : ∀ k, (closures.lookup k).isSome → HasGoal s k
  before : ∀ k, (closures.lookup k).isSome → k ∈ s.trail.take (s.trail.length - ch.tr) →
    (s.mem k).tag ≠ .RFW
  since : ∀ k, HasGoal s k → closures.lookup k = none → k < max ch.h s.limiter →
    (s.mem k).tag = .RFW ∧ k ∈ s.trail.take (s.trail.length - ch.tr)

def Meets (s : Interpreter) (h : History) : Event → Prop
  | .attempt binds true => SparesGoals { s with hb := s.size } binds
  | .freeze index _ => ¬ HasGoal s index
  | .check => Checkable s
  | .fail => ∀ ch ∈ s.b.head?, ∀ saved ∈ h.saved.head?, Undoable s ch saved.2
  | _ => True

/-- The states of runs whose events meet a condition, from the start of a query -/
inductive Reached (meets : Interpreter → History → Event → Prop) : Interpreter → History → Prop
  | start (s : Interpreter) (noGoals : s.closures = ∅) (noneDue : s.watched = [])
      (noChoices : s.b = []) (noStarts : s.started = []) : Reached meets s ⟨[], [], []⟩
  | step {s s' : Interpreter} {h : History} (before : Reached meets s h) (event : Event)
      (valid : Valid s event) (met : meets s h event) (ran : s.apply event = some s') :
      Reached meets s' (h.apply s event)

end Runs

end Epilog.Interp.Coroutines
