/- Module: Epilog/Global/HiddenVars
   source: src/src/global/global_interpreter.cpp (hidden_vars, check_vars_cross_ref, check_vars,
     execute_goal)
   digest: The check of a global goal for hidden variables, and exactly when it isolates them. -/

import Epilog.Common.TermWalk

set_option autoImplicit false

namespace Epilog.Global.HiddenVars

open Epilog.Common.Term Epilog.Common.Term.Cell Epilog.Common.Heap Epilog.Common.TermWalk
  Epilog.Lib.FiniteMap Epilog.Lib.Fuel Epilog.Lib.Run

/-- `global_hidden_var_exception` -/
inductive Rejection
  | crossReference
  | hiddenReference
  deriving DecidableEq, Repr

/-- The hidden variables with the clauses in whose body they occur. -/
abbrev Hidden := FMap Cell (Finset Cell)

section Operators

def opComma : Cell := conOfName (ascii ",") 2
def opSemi : Cell := conOfName (ascii ";") 2
def opImply : Cell := conOfName (ascii "->") 2
def opClause : Cell := conOfName (ascii ":-") 2

def isConjunction (f : Cell) : Bool := f = opComma ∨ f = opSemi ∨ f = opImply

end Operators

section Check

variable (env : TermEnv)

/-- The recursion over a goal: into both sides of an operator, and nowhere else. -/
def expandGoal (t : Cell) (fuel : ℕ) : Option (Cell × List Cell) := do
  let p ← deref env.mem fuel t
  if p.tag = .STR then
    let f ← functor env.mem p
    return (p, if isConjunction f then args env.mem p f else [])
  else return (p, [])

/-- The head of `p(X, ...) :- Body`; the structure `t` may also be something else. -/
def pHead (t : Cell) (fuel : ℕ) : Option (Option Cell) := do
  let f ← functor env.mem t
  if f = opClause then
    let head ← arg env.mem fuel t 0
    if head.tag = .STR then
      let h ← functor env.mem head
      return if atomName env h = ascii "p" ∧ 1 ≤ h.arity then some head else none
    else return none
  else return none

/-- `vars[v]` -/
def clausesOf (vars : Hidden) (v : Cell) : Finset Cell := (vars.lookup v).getD ∅

/-- `vars[v].insert(t)` -/
def addHidden (vars : Hidden) (v t : Cell) : Hidden := vars.insert v (insert t (clausesOf vars v))

/-- The visit of `hidden_vars` at a subterm of the body of the clause `t` -/
def hideVar (exposed : Finset Cell) (t v : Cell) (vars : Hidden) :
    Except (Halt Rejection) Hidden :=
  .ok (if v.tag.isRef ∧ v ∉ exposed then addHidden vars v t else vars)

/-- `hidden_vars` for a goal that is no conjunction -/
def hideClause (t : Cell) (vars : Hidden) (fuel : ℕ) : Except (Halt Rejection) Hidden := do
  if t.tag ≠ .STR then return vars
  match ← fetch (pHead env t fuel) with
  | none => return vars
  | some head =>
    let body ← fetch (arg env.mem fuel t 1)
    let headVars ← varsOf env.mem fuel head
    -- the hash (always first) var is also hidden despite it is in the head
    let hash ← fetch (arg env.mem fuel head 0)
    forEach env.mem (hideVar (headVars.erase hash) t) fuel body vars

def hiddenVars (fuel : ℕ) (goal : Cell) (vars : Hidden) : Except (Halt Rejection) Hidden :=
  if goal.tag ≠ .STR then .ok vars
  else traverse (expandGoal env) (hideClause env) fuel goal vars

def checkVarsCrossRef (allHidden : Hidden) : Except (Halt Rejection) Unit :=
  if ∀ v ∈ allHidden.keys, (clausesOf allHidden v).card = 1 then .ok ()
  else .error (.thrown .crossReference)

/-- The visit of `check_vars` at a subterm -/
def checkVar (allHidden : Hidden) (v : Cell) (_ : Unit) : Except (Halt Rejection) Unit :=
  if v.tag.isRef ∧ clausesOf allHidden v ≠ ∅ then .error (.thrown .hiddenReference) else .ok ()

/-- `check_vars` for a goal that is no conjunction; it skips `p` itself. -/
def checkGoal (allHidden : Hidden) (t : Cell) (_ : Unit) (fuel : ℕ) :
    Except (Halt Rejection) Unit := do
  if t.tag ≠ .STR then return ()
  match ← fetch (pHead env t fuel) with
  | some _ => return ()
  | none =>
    let f ← fetch (functor env.mem t)
    if isConjunction f then return ()
    else forEach env.mem (checkVar allHidden) fuel t ()

def checkVars (allHidden : Hidden) (fuel : ℕ) (goal : Cell) : Except (Halt Rejection) Unit :=
  if goal.tag ≠ .STR then .ok ()
  else traverse (expandGoal env) (checkGoal env allHidden) fuel goal ()

/-- What `execute_goal` does before it preprocesses the hashes and executes the goal. -/
def checkHidden (fuel : ℕ) (goal : Cell) : Except (Halt Rejection) Unit := do
  let allHidden ← hiddenVars env fuel goal ∅
  checkVarsCrossRef allHidden
  checkVars env allHidden fuel goal

def Accepts (goal : Cell) : Prop := ∃ fuel, checkHidden env fuel goal = .ok ()

def Rejects (goal : Cell) : Prop := ∃ fuel e, checkHidden env fuel goal = .error (.thrown e)

end Check

section Isolation

variable (env : TermEnv)

/-- The structure `c` is a clause `p(X, ...) :- Body` with the given head. -/
def PClause (c head : Cell) : Prop := c.tag = .STR ∧ Finds (pHead env c) (some head)

/-- `g` is a goal of the conjunction, and not a conjunction itself. -/
def GoalIn (goal g : Cell) : Prop :=
  Occurs (expandGoal env) g goal ∧
    ¬(g.tag = .STR ∧ ∃ f, functor env.mem g = some f ∧ isConjunction f)

/-- A variable of the body that is not exposed by the head; the hash variable is not exposed. -/
def HiddenIn (c v : Cell) : Prop :=
  v.tag.isRef = true ∧ ∃ head body, PClause env c head ∧
    Finds (fun n => arg env.mem n c 1) body ∧ Within env.mem v body ∧
    (Within env.mem v head → Finds (fun n => arg env.mem n head 0) v)

/-- A hidden variable of one clause also occurs in another goal or in another clause; a clause
that stands in the goal twice is one clause. -/
def Leaks (goal : Cell) : Prop :=
  ∃ c g v, GoalIn env goal c ∧ GoalIn env goal g ∧ g ≠ c ∧ HiddenIn env c v ∧
    Within env.mem v g

/-- The check ends, and rejects a goal just when a hidden variable leaks. -/
def Isolates (goal : Cell) : Prop :=
  (Rejects env goal ∧ Leaks env goal) ∨ (Accepts env goal ∧ ¬Leaks env goal)

end Isolation

section Coverage

variable (env : TermEnv)

/-- A hidden variable that `hidden_vars` records: the body is more than the variable in cell 0. -/
def Hides (c v : Cell) : Prop :=
  v.tag.isRef = true ∧ ∃ head body, PClause env c head ∧
    Finds (fun n => arg env.mem n c 1) body ∧ body ≠ noTerm ∧ Within env.mem v body ∧
    (Within env.mem v head → Finds (fun n => arg env.mem n head 0) v)

/-- What `hidden_vars` walks at one goal is finite. -/
def ClauseEnds (t : Cell) : Prop :=
  t.tag = .STR → Finds (pHead env t) none ∨ ∃ head body hash, Finds (pHead env t) (some head) ∧
    Finds (fun n => arg env.mem n t 1) body ∧ Finds (fun n => arg env.mem n head 0) hash ∧
    Ends env.mem head ∧ Ends env.mem body

/-- `check_vars` walks over this goal: a structure that is no clause and no conjunction. -/
def Checked (g : Cell) : Prop :=
  g.tag = .STR ∧ Finds (pHead env g) none ∧
    ∃ f, functor env.mem g = some f ∧ isConjunction f = false

/-- What `check_vars` walks at one goal is finite. -/
def GoalEnds (g : Cell) : Prop :=
  (g.tag = .STR → ∃ x, Finds (pHead env g) x) ∧ (Checked env g → Ends env.mem g)

/-- The walk over `g` comes to a variable that some clause of the goal hides. -/
def Meets (goal g : Cell) : Prop :=
  Checked env g ∧ Stopped (expandTerm env.mem) (fun _ => True)
    (fun v => ∃ c, GoalIn env goal c ∧ Hides env c v) g

/-- A variable is hidden in two clauses. -/
def HiddenTwice (goal : Cell) : Prop :=
  ∃ c c' v, GoalIn env goal c ∧ GoalIn env goal c' ∧ c ≠ c' ∧ Hides env c v ∧ Hides env c' v

/-- What the check looks for: a variable hidden in two clauses, or a hidden variable inside of a
structure that is a goal. Behind a reference it looks for nothing. -/
def Told (goal : Cell) : Prop :=
  goal.tag = .STR ∧
    (HiddenTwice env goal ∨ Stopped (expandGoal env) (GoalEnds env) (Meets env goal) goal)

/-- The check does not walk forever. -/
def Walkable (goal : Cell) : Prop :=
  goal.tag = .STR → Through (expandGoal env) (ClauseEnds env) goal ∧
    (Told env goal ∨ Through (expandGoal env) (GoalEnds env) goal)

end Coverage

section Fuel

variable (env : TermEnv)

theorem expandGoal_lasting (t : Cell) : Lasting (expandGoal env t) := by
  intro n m x more found
  obtain ⟨p, first, found⟩ := Option.bind_eq_some_iff.1 found
  exact Option.bind_eq_some_iff.2 ⟨p, deref_lasting env.mem t n m p more first, found⟩

theorem pHead_lasting (t : Cell) : Lasting (pHead env t) := by
  intro n m x more found
  obtain ⟨f, first, found⟩ := Option.bind_eq_some_iff.1 found
  refine Option.bind_eq_some_iff.2 ⟨f, first, ?_⟩
  split_ifs at found ⊢
  · obtain ⟨head, second, found⟩ := Option.bind_eq_some_iff.1 found
    exact Option.bind_eq_some_iff.2 ⟨head, arg_lasting env.mem t 0 n m head more second, found⟩
  · exact found

variable {env}

theorem functor_of_pHead {t head : Cell} (found : Finds (pHead env t) (some head)) :
    functor env.mem t = some opClause := by
  obtain ⟨n, found⟩ := found
  obtain ⟨f, first, found⟩ := Option.bind_eq_some_iff.1 found
  split_ifs at found with same
  · exact first.trans (congrArg some same)
  · exact nomatch found

theorem finds_head {t head : Cell} (found : Finds (pHead env t) (some head)) :
    Finds (fun n => arg env.mem n t 0) head := by
  obtain ⟨n, found⟩ := found
  obtain ⟨f, _, found⟩ := Option.bind_eq_some_iff.1 found
  split_ifs at found
  · obtain ⟨head', second, found⟩ := Option.bind_eq_some_iff.1 found
    split_ifs at found
    · obtain ⟨h, _, found⟩ := Option.bind_eq_some_iff.1 found
      have same := Option.some.inj found
      split_ifs at same
      · exact ⟨n, second.trans same⟩
    · exact nomatch found
  · exact nomatch found

theorem head_isStr {t head : Cell} (found : Finds (pHead env t) (some head)) :
    head.tag = .STR := by
  obtain ⟨n, found⟩ := found
  obtain ⟨f, _, found⟩ := Option.bind_eq_some_iff.1 found
  split_ifs at found
  · obtain ⟨head', second, found⟩ := Option.bind_eq_some_iff.1 found
    split_ifs at found with isStr
    · obtain ⟨h, _, found⟩ := Option.bind_eq_some_iff.1 found
      have same := Option.some.inj found
      split_ifs at same
      · rw [← Option.some.inj same]
        exact isStr
    · exact nomatch found
  · exact nomatch found

theorem functor_of_finds_pHead {t : Cell} {x : Option Cell} (found : Finds (pHead env t) x) :
    ∃ f, functor env.mem t = some f := by
  obtain ⟨n, found⟩ := found
  obtain ⟨f, first, _⟩ := Option.bind_eq_some_iff.1 found
  exact ⟨f, first⟩

theorem PClause.unique {c head head' : Cell} (first : PClause env c head)
    (second : PClause env c head') : head = head' :=
  Option.some.inj (first.2.unique (pHead_lasting env c) second.2)

theorem PClause.goalIn {c head goal : Cell} (clause : PClause env c head)
    (occurs : Occurs (expandGoal env) c goal) : GoalIn env goal c := by
  refine ⟨occurs, ?_⟩
  rintro ⟨_, f, found, conj⟩
  rw [functor_of_pHead clause.2, Option.some.injEq] at found
  rw [← found] at conj
  exact absurd conj (by decide)

theorem Hides.hiddenIn {c v : Cell} (hides : Hides env c v) : HiddenIn env c v := by
  obtain ⟨isRef, head, body, clause, atBody, _, within, shown⟩ := hides
  exact ⟨isRef, head, body, clause, atBody, within, shown⟩

theorem Hides.within {c v : Cell} (hides : Hides env c v) : Within env.mem v c := by
  obtain ⟨_, head, body, clause, atBody, _, within, _⟩ := hides
  exact within.of_arg clause.1 (functor_of_pHead clause.2) (by decide) atBody

theorem Hides.goalIn {c v goal : Cell} (hides : Hides env c v)
    (occurs : Occurs (expandGoal env) c goal) : GoalIn env goal c := by
  obtain ⟨_, head, _, clause, _⟩ := hides
  exact clause.goalIn occurs

end Fuel

section HiddenVars

variable {env : TermEnv}

@[simp] theorem clausesOf_addHidden (vars : Hidden) (v t w : Cell) :
    clausesOf (addHidden vars v t) w =
      if w = v then insert t (clausesOf vars v) else clausesOf vars w := by
  unfold clausesOf addHidden
  rw [lookup_insert_ite]
  split_ifs <;> rfl

theorem finds_deref_arg {c a : Cell} {i : ℕ} (found : Finds (fun n => arg env.mem n c i) a) :
    Finds (fun n => deref env.mem n a) a := by
  obtain ⟨n, found⟩ := found
  obtain ⟨s, _, found⟩ := Option.bind_eq_some_iff.1 found
  exact finds_deref_self (deref_end found)

theorem noTerm_iff {c a : Cell} {i : ℕ} (found : Finds (fun n => arg env.mem n c i) a) :
    Finds (fun n => deref env.mem n a) noTerm ↔ a = noTerm :=
  ⟨fun bare => (finds_deref_arg found).unique (deref_lasting env.mem a) bare,
    fun same => same ▸ finds_deref_arg found⟩

theorem hideClause_cases {t : Cell} {vars vars' : Hidden} {n : ℕ}
    (done : hideClause env t vars n = .ok vars') :
    (vars' = vars ∧ (t.tag = .STR → Finds (pHead env t) none)) ∨
      ∃ head body hash headVars, PClause env t head ∧ Finds (fun n => arg env.mem n t 1) body ∧
        Finds (fun n => arg env.mem n head 0) hash ∧
        (varsOf env.mem n head : Except (Halt Rejection) _) = .ok headVars ∧
        forEach env.mem (hideVar (headVars.erase hash) t) n body vars = .ok vars' := by
  unfold hideClause at done
  split_ifs at done with isStr
  · exact .inl ⟨(Except.ok.inj done).symm, fun str => absurd str isStr⟩
  · rw [not_not] at isStr
    obtain ⟨x, found, done⟩ := bind_ok done
    cases x with
    | none => exact .inl ⟨(Except.ok.inj done).symm, fun _ => ⟨n, fetch_ok found⟩⟩
    | some head =>
      obtain ⟨body, atBody, done⟩ := bind_ok done
      obtain ⟨headVars, inHead, done⟩ := bind_ok done
      obtain ⟨hash, atHash, done⟩ := bind_ok done
      exact .inr ⟨head, body, hash, headVars, ⟨isStr, n, fetch_ok found⟩, ⟨n, fetch_ok atBody⟩,
        ⟨n, fetch_ok atHash⟩, inHead, done⟩

private theorem hideVar_adds {exposed : Finset Cell} {t w : Cell} {vars vars' : Hidden}
    (step : hideVar exposed t w vars = .ok vars') (v c : Cell) :
    c ∈ clausesOf vars' v ↔
      c ∈ clausesOf vars v ∨ w = v ∧ c = t ∧ v.tag.isRef = true ∧ v ∉ exposed := by
  rw [← Except.ok.inj step]
  split_ifs with hidden
  · rw [clausesOf_addHidden]
    split_ifs with same
    · subst same
      simp [hidden.1, hidden.2, or_comm]
    · simp [Ne.symm same]
  · refine (or_iff_left ?_).symm
    rintro ⟨rfl, _, isRef, notExposed⟩
    exact hidden ⟨isRef, notExposed⟩

theorem hideClause_adds {t : Cell} {vars vars' : Hidden} {n : ℕ}
    (done : hideClause env t vars n = .ok vars') (v c : Cell) :
    c ∈ clausesOf vars' v ↔ c ∈ clausesOf vars v ∨ c = t ∧ Hides env t v := by
  rcases hideClause_cases done with ⟨rfl, noClause⟩ | found
  · refine (or_iff_left ?_).symm
    rintro ⟨_, _, head, _, clause, _⟩
    exact nomatch (clause.2.unique (pHead_lasting env t) (noClause clause.1))
  · obtain ⟨head, body, hash, headVars, clause, atBody, atHash, inHead, done⟩ := found
    have each : ∀ w s s', hideVar (headVars.erase hash) t w s = .ok s' →
        (c ∈ clausesOf s' v ↔ c ∈ clausesOf s v ∨
          w = v ∧ c = t ∧ v.tag.isRef = true ∧ v ∉ headVars.erase hash) :=
      fun w s s' step => hideVar_adds step v c
    rw [forEach_adds each done, noTerm_iff atBody]
    refine or_congr_right ?_
    have isStr := head_isStr clause.2
    have structured : ¬Finds (fun n => deref env.mem n head) noTerm := by
      rw [noTerm_iff (finds_head clause.2)]
      rintro rfl
      exact absurd isStr (by decide)
    have exposed : v.tag.isRef = true →
        (v ∉ headVars.erase hash ↔
          (Within env.mem v head → Finds (fun n => arg env.mem n head 0) v)) := by
      intro isRef
      rw [Finset.mem_erase, mem_varsOf inHead, not_and', not_not]
      simp only [structured, isRef, not_false_eq_true, true_and, and_true]
      refine imp_congr_right fun _ => ⟨fun same => same ▸ atHash, fun other => ?_⟩
      exact other.unique (arg_lasting env.mem head 0) atHash
    constructor
    · rintro ⟨notBare, w, within, rfl, rfl, isRef, notExposed⟩
      exact ⟨rfl, isRef, head, body, clause, atBody, notBare, within, (exposed isRef).1 notExposed⟩
    · rintro ⟨rfl, isRef, head', body', clause', atBody', notBare, within, shown⟩
      obtain rfl := clause'.unique clause
      obtain rfl := atBody'.unique (arg_lasting env.mem c 1) atBody
      exact ⟨notBare, v, within, rfl, rfl, isRef, (exposed isRef).2 shown⟩

theorem hiddenVars_adds {goal : Cell} {vars vars' : Hidden} {n : ℕ}
    (done : hiddenVars env n goal vars = .ok vars') (v c : Cell) :
    c ∈ clausesOf vars' v ↔ c ∈ clausesOf vars v ∨
      goal.tag = .STR ∧ Occurs (expandGoal env) c goal ∧ Hides env c v := by
  unfold hiddenVars at done
  split_ifs at done with isStr
  · have same : vars = vars' := Except.ok.inj done
    simp [same, isStr]
  · rw [not_not] at isStr
    have each : ∀ t s n s', hideClause env t s n = .ok s' →
        (c ∈ clausesOf s' v ↔ c ∈ clausesOf s v ∨ c = t ∧ Hides env t v) :=
      fun t s n s' step => hideClause_adds step v c
    rw [traverse_adds (expandGoal_lasting env) each n goal vars vars' done]
    simp only [isStr, true_and]
    refine or_congr_right ⟨?_, fun found => ⟨c, found.1, rfl, found.2⟩⟩
    rintro ⟨w, occurs, rfl, hides⟩
    exact ⟨occurs, hides⟩

/-- No variable is recorded without a clause. -/
def Filled (vars : Hidden) : Prop := ∀ v ∈ vars.keys, clausesOf vars v ≠ ∅

private theorem filled_hideVar {exposed : Finset Cell} {t w : Cell} {vars vars' : Hidden}
    (filled : Filled vars) (step : hideVar exposed t w vars = .ok vars') : Filled vars' := by
  rw [← Except.ok.inj step]
  split_ifs
  · intro v mem
    rw [clausesOf_addHidden]
    split_ifs with same
    · exact Finset.insert_ne_empty _ _
    · apply filled v
      rw [addHidden, keys_insert] at mem
      exact Finset.mem_of_mem_insert_of_ne mem same
  · exact filled

theorem filled_hiddenVars {goal : Cell} {vars vars' : Hidden} {n : ℕ} (filled : Filled vars)
    (done : hiddenVars env n goal vars = .ok vars') : Filled vars' := by
  unfold hiddenVars at done
  split_ifs at done
  · exact Except.ok.inj done ▸ filled
  · apply traverse_keeps ?_ filled done
    intro t s n s' filled step
    rcases hideClause_cases step with ⟨rfl, _⟩ | ⟨_, _, _, _, _, _, _, _, walked⟩
    · exact filled
    · exact forEach_keeps (fun _ _ _ kept step => filled_hideVar kept step) filled walked

theorem checkVarsCrossRef_iff {vars : Hidden} (filled : Filled vars) :
    (∀ v ∈ vars.keys, (clausesOf vars v).card = 1) ↔
      ∀ v c c', c ∈ clausesOf vars v → c' ∈ clausesOf vars v → c = c' := by
  constructor
  · intro single v c c' mem mem'
    by_cases recorded : v ∈ vars.keys
    · exact Finset.card_le_one.1 (single v recorded).le c mem c' mem'
    · have absent : vars.lookup v = none := by
        rw [Finmap.lookup_eq_none, ← Finmap.mem_keys]
        exact recorded
      rw [clausesOf, absent] at mem
      exact absurd mem (Finset.notMem_empty c)
  · intro single v recorded
    apply le_antisymm
    · exact Finset.card_le_one.2 fun c mem c' mem' => single v c c' mem mem'
    · exact Finset.card_pos.2 (Finset.nonempty_iff_ne_empty.2 (filled v recorded))

end HiddenVars

section Ending

variable {env : TermEnv}

theorem clauseEnds_of_hideClause {t : Cell} {vars vars' : Hidden} {n : ℕ}
    (done : hideClause env t vars n = .ok vars') : ClauseEnds env t := by
  rcases hideClause_cases done with ⟨_, noClause⟩ | found
  · exact fun isStr => .inl (noClause isStr)
  · obtain ⟨head, body, hash, headVars, clause, atBody, atHash, inHead, done⟩ := found
    exact fun _ => .inr ⟨head, body, hash, clause.2, atBody, atHash, forEach_ends inHead,
      forEach_ends done⟩

theorem ClauseEnds.settles {t : Cell} (ends : ClauseEnds env t) (vars : Hidden) :
    ∃ vars', Settles (hideClause env t vars) (.ok vars') := by
  by_cases isStr : t.tag = .STR
  · rcases ends isStr with noClause | found
    · refine ⟨vars, ?_⟩
      unfold hideClause
      simp only [isStr, ne_eq, not_true_eq_false, if_false]
      exact (settles_fetch (pHead_lasting env t) noClause).bind (.const _)
    · obtain ⟨head, body, hash, isHead, atBody, atHash, headEnds, bodyEnds⟩ := found
      obtain ⟨headVars, inHead⟩ : ∃ headVars,
          Settles (fun n => (varsOf env.mem n head : Except (Halt Rejection) _)) (.ok headVars) :=
        headEnds.settles _ (fun v s => ⟨_, rfl⟩) ∅
      obtain ⟨vars', walked⟩ := bodyEnds.settles (hideVar (headVars.erase hash) t)
        (fun v s => ⟨_, rfl⟩) vars
      refine ⟨vars', ?_⟩
      unfold hideClause
      simp only [isStr, ne_eq, not_true_eq_false, if_false]
      apply (settles_fetch (pHead_lasting env t) isHead).bind
      apply (settles_fetch (arg_lasting env.mem t 1) atBody).bind
      apply inHead.bind
      exact (settles_fetch (arg_lasting env.mem head 0) atHash).bind walked
  · refine ⟨vars, ?_⟩
    unfold hideClause
    simp only [isStr, ne_eq, not_false_eq_true, if_true]
    exact .const _

theorem hiddenVars_settles {goal : Cell} (ends : goal.tag = .STR →
    Through (expandGoal env) (ClauseEnds env) goal) (vars : Hidden) :
    ∃ vars', Settles (fun n => hiddenVars env n goal vars) (.ok vars') := by
  unfold hiddenVars
  by_cases isStr : goal.tag = .STR
  · simp only [isStr, ne_eq, not_true_eq_false, if_false]
    exact (ends isStr).settles _ (expandGoal_lasting env) (fun t ends vars => ends.settles vars) vars
  · simp only [isStr, ne_eq, not_false_eq_true, if_true]
    exact ⟨vars, .const _⟩

theorem through_of_hiddenVars {goal : Cell} {vars vars' : Hidden} {n : ℕ}
    (done : hiddenVars env n goal vars = .ok vars') (isStr : goal.tag = .STR) :
    Through (expandGoal env) (ClauseEnds env) goal := by
  unfold hiddenVars at done
  simp only [isStr, ne_eq, not_true_eq_false, if_false] at done
  exact (traverse_inv _ _ _ (fun _ => True) (fun _ _ _ _ step => clauseEnds_of_hideClause step)
    (fun _ _ _ _ _ => trivial) n goal vars).1 vars' done

private theorem hideClause_quiet {t : Cell} {vars : Hidden} {n : ℕ} {e : Rejection} :
    hideClause env t vars n ≠ .error (.thrown e) := by
  intro failed
  unfold hideClause at failed
  split_ifs at failed
  · exact nomatch failed
  · rcases bind_error failed with missing | ⟨x, _, failed⟩
    · exact fetch_not_thrown _ e missing
    · cases x with
      | none => exact nomatch failed
      | some head =>
        rcases bind_error failed with missing | ⟨body, _, failed⟩
        · exact fetch_not_thrown _ e missing
        · rcases bind_error failed with walked | ⟨headVars, _, failed⟩
          · exact forEach_quiet (fun v s => ⟨_, rfl⟩) n head ∅ e walked
          · rcases bind_error failed with missing | ⟨hash, _, failed⟩
            · exact fetch_not_thrown _ e missing
            · exact forEach_quiet (fun v s => ⟨_, rfl⟩) n body vars e failed

theorem hiddenVars_quiet {goal : Cell} {vars : Hidden} {n : ℕ} {e : Rejection} :
    hiddenVars env n goal vars ≠ .error (.thrown e) := by
  intro failed
  unfold hiddenVars at failed
  split_ifs at failed
  exact traverse_quiet (fun t s n e => hideClause_quiet) n goal vars e failed

end Ending

section CheckVars

variable {env : TermEnv}

/-- `check_vars` asks for this variable. -/
def Asked (allHidden : Hidden) (v : Cell) : Prop :=
  v.tag.isRef = true ∧ clausesOf allHidden v ≠ ∅

/-- No hidden variable is come to, and the walk ends. -/
def Clean (env : TermEnv) (allHidden : Hidden) (g : Cell) : Prop :=
  Through (expandTerm env.mem) (fun v => ¬Asked allHidden v) g

/-- The walk comes to a hidden variable. -/
def Caught (env : TermEnv) (allHidden : Hidden) (g : Cell) : Prop :=
  Checked env g ∧ Stopped (expandTerm env.mem) (fun _ => True) (Asked allHidden) g

theorem stopped_clean {allHidden : Hidden} {g : Cell}
    (stopped : Stopped (expandTerm env.mem) (fun _ => True) (Asked allHidden) g) :
    Stopped (expandTerm env.mem) (fun v => ¬Asked allHidden v) (Asked allHidden) g :=
  stopped.first fun v _ => (em (Asked allHidden v)).symm

private theorem not_noTerm {g : Cell} (isStr : g.tag = .STR) : g ≠ noTerm := by
  rintro rfl
  exact absurd isStr (by decide)

private theorem checkVar_ok {allHidden : Hidden} {v : Cell}
    (done : checkVar allHidden v () = .ok ()) : ¬Asked allHidden v := by
  unfold checkVar at done
  split_ifs at done with asked
  exact asked

private theorem checkVar_error {allHidden : Hidden} {v : Cell} {e : Rejection}
    (failed : checkVar allHidden v () = .error (.thrown e)) : Asked allHidden v := by
  unfold checkVar at failed
  split_ifs at failed with asked
  exact asked

theorem checkGoal_inv {allHidden : Hidden} {g : Cell} {n : ℕ} :
    (checkGoal env allHidden g () n = .ok () →
      GoalEnds env g ∧ (Checked env g → Clean env allHidden g)) ∧
    ∀ e, checkGoal env allHidden g () n = .error (.thrown e) →
      Caught env allHidden g := by
  by_cases isStr : g.tag = .STR
  · simp only [checkGoal, isStr, ne_eq, not_true_eq_false, if_false]
    -- the goal is walked over, so nothing but the walk matters
    have walked : ∀ r, (do
        let f ← fetch (functor env.mem g)
        if isConjunction f then return ()
        else forEach env.mem (checkVar allHidden) n g ()) = r → Finds (pHead env g) none →
          (r = .ok () → Checked env g → Clean env allHidden g) ∧
          ∀ e, r = .error (.thrown e) → Caught env allHidden g := by
      rintro r ran noClause
      have inverse := traverse_inv (expandTerm env.mem) (fun v s _ => checkVar allHidden v s)
        (fun v => ¬Asked allHidden v) (Asked allHidden) (fun v _ _ _ done => checkVar_ok done)
        (fun v _ _ _ failed => checkVar_error failed) n g ()
      refine ⟨fun ok checked => ?_, fun e error => ?_⟩
      · rw [ok] at ran
        obtain ⟨f, atFunctor, ran⟩ := bind_ok ran
        obtain ⟨_, _, f', atFunctor', noConj⟩ := checked
        have same : f = f' := Option.some.inj ((fetch_ok atFunctor).symm.trans atFunctor')
        rw [if_neg (by simp [same, noConj])] at ran
        obtain ⟨first, found, ran⟩ := bind_ok ran
        have self : first = g := Finds.unique (deref_lasting env.mem g)
          ⟨n, fetch_ok found⟩ (finds_deref_str isStr)
        rw [if_neg (self ▸ not_noTerm isStr)] at ran
        exact inverse.1 () ran
      · rw [error] at ran
        rcases bind_error ran with missing | ⟨f, atFunctor, ran⟩
        · exact absurd missing (fetch_not_thrown _ e)
        · split_ifs at ran with conj
          · exact nomatch ran
          · rcases bind_error ran with missing | ⟨first, _, ran⟩
            · exact absurd missing (fetch_not_thrown _ e)
            · split_ifs at ran
              · exact nomatch ran
              · exact ⟨⟨isStr, noClause, f, fetch_ok atFunctor, by simpa using conj⟩,
                  (inverse.2 e ran).imp (fun _ _ => trivial) fun _ asked => asked⟩
    refine ⟨fun done => ?_, fun e failed => ?_⟩
    · obtain ⟨x, found, done⟩ := bind_ok done
      have settled : Finds (pHead env g) x := ⟨n, fetch_ok found⟩
      have clean : Checked env g → Clean env allHidden g := by
        intro checked
        have none := settled.unique (pHead_lasting env g) checked.2.1
        subst none
        exact (walked _ done settled).1 rfl checked
      exact ⟨⟨fun _ => ⟨x, settled⟩, fun checked => (clean checked).imp fun _ _ => trivial⟩, clean⟩
    · rcases bind_error failed with missing | ⟨x, found, failed⟩
      · exact absurd missing (fetch_not_thrown _ e)
      · cases x with
        | none => exact (walked _ failed ⟨n, fetch_ok found⟩).2 e rfl
        | some head => exact nomatch failed
  · simp only [checkGoal, isStr, ne_eq, not_false_eq_true, if_true]
    refine ⟨fun _ => ⟨⟨fun str => absurd str isStr, fun checked => absurd checked.1 isStr⟩,
      fun checked => absurd checked.1 isStr⟩, fun e failed => nomatch failed⟩

theorem checkGoal_passes {allHidden : Hidden} {g : Cell} (ends : GoalEnds env g)
    (clean : Checked env g → Clean env allHidden g) :
    Settles (checkGoal env allHidden g ()) (.ok ()) := by
  unfold checkGoal
  by_cases isStr : g.tag = .STR
  · simp only [isStr, ne_eq, not_true_eq_false, if_false]
    obtain ⟨x, found⟩ := ends.1 isStr
    apply (settles_fetch (pHead_lasting env g) found).bind
    cases x with
    | some head => exact .const _
    | none =>
      obtain ⟨f, atFunctor⟩ := functor_of_finds_pHead found
      simp only [atFunctor]
      apply Settles.bind (.const (.ok f))
      cases conj : isConjunction f with
      | true => exact .const _
      | false =>
        simp only [Bool.false_eq_true, if_false]
        obtain ⟨s, walked⟩ := (clean ⟨isStr, found, f, atFunctor, conj⟩).settles
          (fun v s _ => checkVar allHidden v s) (expandTerm_lasting env.mem)
          (fun v notAsked s => ⟨(), 0, fun _ _ => if_neg notAsked⟩) ()
        apply (settles_fetch (deref_lasting env.mem g) (finds_deref_str isStr)).bind
        simp only [if_neg (not_noTerm isStr)]
        exact walked
  · simp only [isStr, ne_eq, not_false_eq_true, if_true]
    exact .const _

theorem checkGoal_throws {allHidden : Hidden} {g : Cell}
    (caught : Caught env allHidden g) :
    Settles (checkGoal env allHidden g ()) (.error (.thrown .hiddenReference)) := by
  obtain ⟨⟨isStr, noClause, f, atFunctor, noConj⟩, stopped⟩ := caught
  unfold checkGoal
  simp only [isStr, ne_eq, not_true_eq_false, if_false]
  apply (settles_fetch (pHead_lasting env g) noClause).bind
  simp only [atFunctor]
  apply Settles.bind (.const (.ok f))
  simp only [noConj, Bool.false_eq_true, if_false]
  apply (settles_fetch (deref_lasting env.mem g) (finds_deref_str isStr)).bind
  simp only [if_neg (not_noTerm isStr)]
  exact (stopped_clean stopped).settles (fun v s _ => checkVar allHidden v s)
    (expandTerm_lasting env.mem) (fun v notAsked s => ⟨(), 0, fun _ _ => if_neg notAsked⟩)
    (fun v asked s => ⟨0, fun _ _ => if_pos asked⟩) ()

end CheckVars

section Verdicts

variable {env : TermEnv} {goal : Cell} {allHidden : Hidden} {n : ℕ}

theorem mem_clausesOf (done : hiddenVars env n goal ∅ = .ok allHidden) (isStr : goal.tag = .STR)
    (v c : Cell) : c ∈ clausesOf allHidden v ↔ GoalIn env goal c ∧ Hides env c v := by
  have empty : clausesOf ∅ v = ∅ := rfl
  rw [hiddenVars_adds done v c, empty]
  simp only [Finset.notMem_empty, isStr, true_and, false_or]
  exact ⟨fun ⟨occurs, hides⟩ => ⟨hides.goalIn occurs, hides⟩,
    fun ⟨inGoal, hides⟩ => ⟨inGoal.1, hides⟩⟩

theorem asked_iff (done : hiddenVars env n goal ∅ = .ok allHidden) (isStr : goal.tag = .STR)
    (v : Cell) : Asked allHidden v ↔ ∃ c, GoalIn env goal c ∧ Hides env c v := by
  unfold Asked
  rw [← Finset.nonempty_iff_ne_empty]
  constructor
  · rintro ⟨_, c, mem⟩
    exact ⟨c, (mem_clausesOf done isStr v c).1 mem⟩
  · rintro ⟨c, found⟩
    exact ⟨found.2.1, c, (mem_clausesOf done isStr v c).2 found⟩

theorem caught_iff (done : hiddenVars env n goal ∅ = .ok allHidden) (isStr : goal.tag = .STR)
    (g : Cell) : Caught env allHidden g ↔ Meets env goal g := by
  have same : Asked allHidden = fun v => ∃ c, GoalIn env goal c ∧ Hides env c v := by
    ext v
    exact asked_iff done isStr v
  rw [Caught, Meets, same]

theorem crossRef_iff (done : hiddenVars env n goal ∅ = .ok allHidden) (isStr : goal.tag = .STR) :
    (∀ v ∈ allHidden.keys, (clausesOf allHidden v).card = 1) ↔ ¬HiddenTwice env goal := by
  have filled : Filled ∅ := fun v mem => absurd mem (Finset.notMem_empty v)
  rw [checkVarsCrossRef_iff (filled_hiddenVars filled done)]
  simp only [mem_clausesOf done isStr]
  constructor
  · rintro single ⟨c, c', v, inGoal, inGoal', apart, hides, hides'⟩
    exact apart (single v c c' ⟨inGoal, hides⟩ ⟨inGoal', hides'⟩)
  · intro once v c c' found found'
    by_contra apart
    exact once ⟨c, c', v, found.1, found'.1, apart, found.2, found'.2⟩

theorem checkVars_inv (done : hiddenVars env n goal ∅ = .ok allHidden) (isStr : goal.tag = .STR) :
    (checkVars env allHidden n goal = .ok () → Through (expandGoal env) (GoalEnds env) goal ∧
      ¬Stopped (expandGoal env) (GoalEnds env) (Meets env goal) goal) ∧
    ∀ e, checkVars env allHidden n goal = .error (.thrown e) →
      Stopped (expandGoal env) (GoalEnds env) (Meets env goal) goal := by
  simp only [checkVars, isStr, ne_eq, not_true_eq_false, if_false]
  have inverse := traverse_inv (expandGoal env) (checkGoal env allHidden)
    (fun g => GoalEnds env g ∧ (Checked env g → Clean env allHidden g))
    (Caught env allHidden) (fun g _ m _ step => (checkGoal_inv (n := m)).1 step)
    (fun g _ m e step => (checkGoal_inv (n := m)).2 e step) n goal ()
  refine ⟨fun ok => ?_, fun e failed => ?_⟩
  · have passed := inverse.1 () ok
    refine ⟨passed.imp fun g found => found.1, fun stopped => ?_⟩
    obtain ⟨g, occurs, meets⟩ := Occurs.of_stopped stopped
    have clean := (passed.of_occurs (expandGoal_lasting env) occurs).2 meets.1
    rw [← caught_iff done isStr] at meets
    obtain ⟨v, within, asked⟩ := Occurs.of_stopped meets.2
    exact clean.of_occurs (expandTerm_lasting env.mem) within asked
  · exact (inverse.2 e failed).imp (fun g found => found.1) fun g => (caught_iff done isStr g).1

theorem checkVars_passes (done : hiddenVars env n goal ∅ = .ok allHidden)
    (isStr : goal.tag = .STR) (ends : Through (expandGoal env) (GoalEnds env) goal)
    (untold : ¬Stopped (expandGoal env) (GoalEnds env) (Meets env goal) goal) :
    Settles (fun m => checkVars env allHidden m goal) (.ok ()) := by
  simp only [checkVars, isStr, ne_eq, not_true_eq_false, if_false]
  -- no goal that is come to has a hidden variable
  have clean : ∀ g, Occurs (expandGoal env) g goal → Checked env g →
      Clean env allHidden g := by
    intro g occurs checked
    have finite := (ends.of_occurs (expandGoal_lasting env) occurs).2 checked
    rcases through_or_stopped (fun v _ => (em (Asked allHidden v)).symm) finite with
      passed | stopped
    · exact passed
    · have meets := (caught_iff done isStr g).1
        ⟨checked, stopped.imp (fun _ _ => trivial) fun _ asked => asked⟩
      exact absurd (Stopped.of_occurs (expandGoal_lasting env) ends occurs meets) untold
  obtain ⟨s, ran⟩ := (ends.and_occurs clean).settles
    (checkGoal env allHidden) (expandGoal_lasting env)
    (fun g good s => ⟨(), checkGoal_passes good.1 good.2⟩) ()
  exact ran

theorem checkVars_throws (done : hiddenVars env n goal ∅ = .ok allHidden)
    (isStr : goal.tag = .STR)
    (told : Stopped (expandGoal env) (GoalEnds env) (Meets env goal) goal) :
    Settles (fun m => checkVars env allHidden m goal) (.error (.thrown .hiddenReference)) := by
  simp only [checkVars, isStr, ne_eq, not_true_eq_false, if_false]
  have caught : Stopped (expandGoal env) (GoalEnds env) (Caught env allHidden) goal :=
    told.imp (fun _ ends => ends) fun g => (caught_iff done isStr g).2
  have splits : ∀ g, GoalEnds env g →
      (GoalEnds env g ∧ (Checked env g → Clean env allHidden g)) ∨
        Caught env allHidden g := by
    intro g ends
    by_cases bad : Caught env allHidden g
    · exact .inr bad
    · refine .inl ⟨ends, fun checked => ?_⟩
      rcases through_or_stopped (fun v _ => (em (Asked allHidden v)).symm) (ends.2 checked) with
        passed | stopped
      · exact passed
      · exact absurd ⟨checked, stopped.imp (fun _ _ => trivial) fun _ asked => asked⟩ bad
  exact (caught.first splits).settles (checkGoal env allHidden) (expandGoal_lasting env)
    (fun g good s => ⟨(), checkGoal_passes good.1 good.2⟩) (fun g bad s => checkGoal_throws bad) ()

end Verdicts

section Isolated

variable {env : TermEnv} {goal : Cell}

theorem checkHidden_settles {allHidden : Hidden} {r : Except (Halt Rejection) Unit}
    (done : Settles (fun n => hiddenVars env n goal ∅) (.ok allHidden))
    (single : ∀ v ∈ allHidden.keys, (clausesOf allHidden v).card = 1)
    (decides : Settles (fun n => checkVars env allHidden n goal) r) :
    Settles (fun n => checkHidden env n goal) r := by
  have passed : checkVarsCrossRef allHidden = .ok () := if_pos single
  apply done.bind
  simp only [passed]
  exact decides

theorem rejects_iff : Rejects env goal ↔
    goal.tag = .STR ∧ Through (expandGoal env) (ClauseEnds env) goal ∧ Told env goal := by
  constructor
  · rintro ⟨n, e, failed⟩
    rcases bind_error failed with early | ⟨allHidden, done, failed⟩
    · exact absurd early hiddenVars_quiet
    · have isStr : goal.tag = .STR := by
        by_contra notStr
        have none : allHidden = ∅ := by
          simp only [hiddenVars, notStr, ne_eq, not_false_eq_true, if_true] at done
          exact (Except.ok.inj done).symm
        rcases bind_error failed with crossed | ⟨_, _, failed⟩
        · rw [checkVarsCrossRef, if_pos (by rw [none]; exact nofun)] at crossed
          exact nomatch crossed
        · simp only [checkVars, notStr, ne_eq, not_false_eq_true, if_true] at failed
          exact nomatch failed
      refine ⟨isStr, through_of_hiddenVars done isStr, isStr, ?_⟩
      rcases bind_error failed with crossed | ⟨_, _, failed⟩
      · unfold checkVarsCrossRef at crossed
        split_ifs at crossed with single
        rw [crossRef_iff done isStr, not_not] at single
        exact .inl single
      · exact .inr ((checkVars_inv done isStr).2 e failed)
  · rintro ⟨isStr, ends, _, told⟩
    obtain ⟨allHidden, n, ran⟩ := hiddenVars_settles (fun _ => ends) ∅
    have done : hiddenVars env n goal ∅ = .ok allHidden := ran n le_rfl
    by_cases single : ∀ v ∈ allHidden.keys, (clausesOf allHidden v).card = 1
    · have once := (crossRef_iff done isStr).1 single
      obtain ⟨m, throws⟩ := checkHidden_settles ⟨n, ran⟩ single
        (checkVars_throws done isStr (told.resolve_left once))
      exact ⟨m, .hiddenReference, throws m le_rfl⟩
    · refine ⟨n, .crossReference, ?_⟩
      have crossed : checkVarsCrossRef allHidden = .error (.thrown .crossReference) :=
        if_neg single
      unfold checkHidden
      rw [done]
      change checkVarsCrossRef allHidden >>= _ = _
      rw [crossed]
      rfl

theorem accepts_iff : Accepts env goal ↔ (goal.tag = .STR →
    Through (expandGoal env) (ClauseEnds env) goal ∧ ¬Told env goal ∧
      Through (expandGoal env) (GoalEnds env) goal) := by
  constructor
  · rintro ⟨n, accepted⟩ isStr
    obtain ⟨allHidden, done, accepted⟩ := bind_ok accepted
    obtain ⟨_, passed, accepted⟩ := bind_ok accepted
    unfold checkVarsCrossRef at passed
    split_ifs at passed with single
    have once := (crossRef_iff done isStr).1 single
    obtain ⟨ends, untold⟩ := (checkVars_inv done isStr).1 accepted
    exact ⟨through_of_hiddenVars done isStr, fun told => told.2.elim once untold, ends⟩
  · intro found
    by_cases isStr : goal.tag = .STR
    · obtain ⟨ends, untold, goalEnds⟩ := found isStr
      obtain ⟨allHidden, n, ran⟩ := hiddenVars_settles (fun _ => ends) ∅
      have done : hiddenVars env n goal ∅ = .ok allHidden := ran n le_rfl
      have single := (crossRef_iff done isStr).2 fun twice => untold ⟨isStr, .inl twice⟩
      obtain ⟨m, passes⟩ := checkHidden_settles ⟨n, ran⟩ single
        (checkVars_passes done isStr goalEnds fun stopped => untold ⟨isStr, .inr stopped⟩)
      exact ⟨m, passes m le_rfl⟩
    · refine ⟨0, ?_⟩
      simp only [checkHidden, hiddenVars, checkVars, isStr, ne_eq, not_false_eq_true, if_true]
      rfl

theorem Told.leaks (told : Told env goal) : Leaks env goal := by
  obtain ⟨_, ⟨c, c', v, inGoal, inGoal', apart, hides, hides'⟩ | stopped⟩ := told
  · exact ⟨c, c', v, inGoal, inGoal', apart.symm, hides.hiddenIn, hides'.within⟩
  · obtain ⟨g, occurs, ⟨isStr, noClause, f, atFunctor, noConj⟩, stopped⟩ :=
      Occurs.of_stopped stopped
    obtain ⟨v, within, c, inGoal, hides⟩ := Occurs.of_stopped stopped
    refine ⟨c, g, v, inGoal, ⟨occurs, ?_⟩, ?_, hides.hiddenIn, within⟩
    · rintro ⟨_, f', atFunctor', conj⟩
      rw [atFunctor, Option.some.injEq] at atFunctor'
      rw [← atFunctor', noConj] at conj
      exact nomatch conj
    · rintro rfl
      obtain ⟨_, head, _, clause, _⟩ := hides
      exact nomatch clause.2.unique (pHead_lasting env g) noClause

end Isolated

section Finite

variable {env : TermEnv}

end Finite

section SharedHead

/-- `(p(H1, A) :- foo(X)), (p(H2, X) :- bar(X))` -/
def sharedHeadCells : List Cell :=
  [conOfName (ascii "start") 0,
    opComma, make .STR 4, make .STR 12,
    opClause, make .STR 7, make .STR 10,
    conOfName (ascii "p") 2, make .REF 8, make .REF 9,
    conOfName (ascii "foo") 1, make .REF 11,
    opClause, make .STR 15, make .STR 18,
    conOfName (ascii "p") 2, make .REF 16, make .REF 11,
    conOfName (ascii "bar") 1, make .REF 11]

def sharedHead : TermEnv :=
  { mem := fun addr => sharedHeadCells.getD addr noTerm
    size := 20
    atomIndexToName := ∅
    atomNameToIndex := ∅
    varNames := ∅ }

private theorem sharedHead_accepts : Accepts sharedHead (make .STR 1) :=
  ⟨5, by decide⟩

private theorem sharedHead_leaks : Leaks sharedHead (make .STR 1) := by
  have top : Finds (expandGoal sharedHead (make .STR 1))
      (make .STR 1, [make .STR 4, make .STR 12]) := ⟨1, by decide⟩
  have first : Finds (expandGoal sharedHead (make .STR 4)) (make .STR 4, []) :=
    ⟨1, by decide⟩
  have second : Finds (expandGoal sharedHead (make .STR 12)) (make .STR 12, []) :=
    ⟨1, by decide⟩
  have clause : ∀ c head, c.tag = .STR → pHead sharedHead c 1 = some (some head) →
      PClause sharedHead c head := fun c head isStr found => ⟨isStr, 1, found⟩
  have firstClause : PClause sharedHead (make .STR 4) (make .STR 7) :=
    clause _ _ (tag_make _ _) (by decide)
  have secondClause : PClause sharedHead (make .STR 12) (make .STR 15) :=
    clause _ _ (tag_make _ _) (by decide)
  have atBody : Finds (fun n => arg sharedHead.mem n (make .STR 4) 1) (make .STR 10) :=
    ⟨1, by decide⟩
  have bare : Within sharedHead.mem (make .REF 11) (make .REF 11) :=
    .root ⟨1, show _ = some (_, []) by decide⟩
  have inBody : Within sharedHead.mem (make .REF 11) (make .STR 10) :=
    .inside ⟨1, show _ = some (make .STR 10, [make .REF 11]) by decide⟩
      List.mem_cons_self bare
  have inSecond : Within sharedHead.mem (make .REF 11) (make .STR 12) := by
    apply Occurs.inside ⟨1, show _ = some (make .STR 12, [make .STR 15, make .STR 18]) by
      decide⟩ List.mem_cons_self
    exact .inside ⟨1, show _ = some (make .STR 15, [make .REF 16, make .REF 11]) by
      decide⟩ (List.mem_cons_of_mem _ List.mem_cons_self) bare
  refine ⟨make .STR 4, make .STR 12, make .REF 11,
    firstClause.goalIn (.inside top List.mem_cons_self (.root first)),
    secondClause.goalIn (.inside top (List.mem_cons_of_mem _ List.mem_cons_self) (.root second)),
    by decide, ⟨by decide, make .STR 7, make .STR 10, firstClause, atBody,
      inBody, ?_⟩, inSecond⟩
  -- the head of the first clause has other variables
  intro inHead
  have leaf : ∀ v, expandTerm sharedHead.mem v 1 = some (v, []) → v ≠ make .REF 11 →
      Through (expandTerm sharedHead.mem) (· ≠ make .REF 11) v :=
    fun v found other => .node ⟨1, found⟩ nofun other
  have others : Through (expandTerm sharedHead.mem) (· ≠ make .REF 11) (make .STR 7) := by
    apply Through.node ⟨1, show _ = some (make .STR 7, [make .REF 8, make .REF 9]) by
      decide⟩ ?_ (by decide)
    rw [List.forall_mem_cons, List.forall_mem_singleton]
    exact ⟨leaf _ (by decide) (by decide),
      leaf _ (by decide) (by decide)⟩
  exact absurd rfl (others.of_occurs (expandTerm_lasting _) inHead)

end SharedHead

end Epilog.Global.HiddenVars
