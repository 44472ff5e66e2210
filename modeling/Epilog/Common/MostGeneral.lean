/- Module: Epilog/Common/MostGeneral
   source: src/src/common/term_env.cpp (unify, unify_helper)
   digest: Unification comes to an end, with a most general solution or where there is none. -/

import Epilog.Common.Unification
import Mathlib.Order.Interval.Finset.Nat

set_option autoImplicit false

namespace Epilog.Common.MostGeneral

open Epilog.Common.Term Epilog.Common.TermWalk Epilog.Common.Unify Epilog.Common.Forwarding
  Epilog.Common.HeapTrees Epilog.Common.Unification Epilog.Lib.Fuel Epilog.Lib.RationalTree
  Relation

section Loop

/-- The cells that a functor may still be in: merging structures takes them away one by one. -/
def unmerged (size : ℕ) (mem : ℕ → Cell) : ℕ :=
  ((Finset.range size).filter fun x => (mem x).tag ≠ .FWD).card

variable {R : Regions} {start base mem mem' : ℕ → Cell} {a b c d : Cell} {size : ℕ}
  {u : Unifier} {done : Cell → Cell → Prop} {σ : ℕ → PathTree Label}

theorem unmerged_same (same : SameForwards mem mem') : unmerged size mem' = unmerged size mem := by
  unfold unmerged
  congr 1
  exact Finset.filter_congr fun x _ => not_congr (same x)

theorem unmerged_merge {i : ℕ} (small : i < size) (notFwd : (mem i).tag ≠ .FWD) (j : ℕ) :
    unmerged size (Function.update mem i (Cell.make .FWD j)) < unmerged size mem := by
  apply Finset.card_lt_card
  rw [Finset.ssubset_iff_of_subset]
  · refine ⟨i, Finset.mem_filter.2 ⟨Finset.mem_range.2 small, notFwd⟩, fun there => ?_⟩
    rw [Finset.mem_filter, Function.update_self, Cell.tag_make] at there
    exact there.2 rfl
  · intro x there
    obtain ⟨inside, notFwd'⟩ := Finset.mem_filter.1 there
    refine Finset.mem_filter.2 ⟨inside, ?_⟩
    have other : x ≠ i := by
      rintro rfl
      rw [Function.update_self, Cell.tag_make] at notFwd'
      exact notFwd' rfl
    rwa [Function.update_of_ne other] at notFwd'

theorem Unifying.loop {base : ℕ → Cell} {u : Unifier} {done : Cell → Cell → Prop}
    (un : Unifying R start a b base u done) (wf : WellFormed R start size)
    (plain : ∀ u', Reached u u' → Unforwarded u') :
    ∃ same u', Finds (fun n => unifyLoop n u) (same, u') ∧
      (same = false → ∀ σ, ¬ Solves start a b σ) ∧
      (same = true → ∃ w done', Unifying R start a b u'.mem w done' ∧ w.stack = []) := by
  cases popped : u.stack with
  | nil =>
    refine ⟨true, { u with mem := restore u.mem u.tempTrail, tempTrail := [] }, ⟨1, ?_⟩, Bool.noConfusion,
      fun _ => ⟨u, done, ?_, popped⟩⟩
    · dsimp only
      unfold unifyLoop
      rw [popped]
    · dsimp only
      rw [un.forwarded.restored]
      exact un
  | cons p stack =>
    obtain ⟨s, t⟩ := p
    obtain ⟨n, ⟨more, u₁⟩, ran⟩ := un.turn_some wf popped (plain u .refl)
    obtain ⟨fails, goes⟩ := un.turn wf popped (plain u .refl) ran
    cases more with
    | false =>
      refine ⟨false, { u₁ with mem := restore u₁.mem u₁.tempTrail, tempTrail := [] }, ⟨n + 1, ?_⟩,
        fun _ => fails rfl, Bool.noConfusion⟩
      dsimp only
      unfold unifyLoop
      rw [popped]
      dsimp only
      rw [ran]
      rfl
    | true =>
      have later (w : Unifier) (reached : Reached u₁ w) : Unforwarded w :=
        plain w (.head popped ran reached)
      obtain ⟨kept, less⟩ := goes rfl
      obtain ⟨base₁, done₁, un₁⟩ := kept (later u₁ .refl)
      have smaller : Prod.Lex (· < ·) (· < ·) (unmerged size u₁.mem, u₁.stack.length)
          (unmerged size u.mem, u.stack.length) := by
        rcases less with ⟨rest, same⟩ | ⟨i, small, notFwd, j, merged⟩
        · rw [unmerged_same same, rest, popped]
          exact .right _ (Nat.lt_succ_self _)
        · rw [merged]
          exact .left _ _ (unmerged_merge small notFwd j)
      obtain ⟨same, u', ⟨m, found⟩, failed, solved⟩ := Unifying.loop un₁ wf later
      refine ⟨same, u', ⟨max n m + 1, ?_⟩, failed, solved⟩
      have first := turn_lasting _ _ _ n (max n m) _ (le_max_left n m) ran
      have second := unifyLoop_lasting u₁ m (max n m) _ (le_max_right n m) found
      dsimp only at first second ⊢
      unfold unifyLoop
      rw [popped]
      dsimp only
      rw [first]
      exact second
termination_by (unmerged size u.mem, u.stack.length)
decreasing_by exact smaller

end Loop

section Solution

variable {R : Regions} {start base : ℕ → Cell} {a b c d : Cell} {size : ℕ} {u : Unifier}
  {done : Cell → Cell → Prop} {σ : ℕ → PathTree Label}

theorem Unifying.solved (un : Unifying R start a b base u done) (empty : u.stack = [])
    (σ : ℕ → PathTree Label) : Solves base a b σ := by
  have asked := un.asked
  refine den_congr (fun s t pair => ?_) asked
  rw [empty] at pair ⊢
  rcases pair with pair | pair | pair
  · obtain ⟨_, _, alike⟩ := un.closed s t pair
    rwa [empty] at alike
  · exact nomatch pair
  · unfold view
    rw [pair.same]
    exact alike_refl EqvGen.refl _

theorem Unifying.factors (un : Unifying R start a b base u done) (wf : WellFormed R start size)
    (solves : Solves start a b σ) (isTerm : IsTerm R start c) :
    tree base σ c = tree start σ c := by
  have wf' := un.change.wellFormed wf
  have follows := (un.follows σ solves).1
  have before (e : Cell) (isTerm : IsTerm R base e) : IsTerm R start e :=
    isTerm.congr fun x data => (un.change.data wf x data).symm
  refine den_of_solved { c | IsTerm R start c } (fun e isTerm => ?_) isTerm
  have isTerm' := un.change.isTerm wf isTerm
  obtain ⟨d, derefs, isValue⟩ := isTerm'.derefs wf'
  refine ⟨d, (tree_follows wf un.change follows isTerm' derefs).symm, ?_⟩
  rw [view_eq derefs]
  by_cases isRef : d.tag.isRef = true
  · -- a variable that is left was one before
    obtain ⟨n, found⟩ := derefs
    have isVar := isVar_of_binds un.change.binds (isVar_of_deref found isRef).1
    rw [view_eq (derefs_ref isRef (derefs_var isVar)), look_ref isVar.1, look_ref isRef, isVar.2]
    exact .var _
  · have notRef := Bool.eq_false_iff.2 isRef
    obtain ⟨l, below, below', first, second, related⟩ :=
      un.change.look_after wf (before d isValue) notRef
    rw [view_eq (derefs_value notRef), first, second]
    refine .node l (related.imp fun x y same => ⟨?_, before y same.right⟩)
    obtain ⟨v, atX, _⟩ := same.left.derefs wf'
    obtain ⟨w, atY, _⟩ := same.right.derefs wf'
    have equal : v = w := by
      rw [← value_eq atX, ← value_eq atY, same.same]
    have treeX := tree_follows wf un.change follows same.left atX
    have treeY := tree_follows wf un.change follows same.right atY
    rw [equal] at treeX
    exact treeX.trans treeY.symm

end Solution

section Apart

/-- No functor is a term by itself. -/
def Apart (R : Regions) : Prop := ∀ x ∈ R.terms, x ∉ R.functors

variable {R : Regions} {start base mem : ℕ → Cell} {temp : List ℕ} {a b c d : Cell} {size : ℕ}
  {u u' : Unifier} {done : Cell → Cell → Prop}

theorem derefs_apart (apart : Apart R) (wf : WellFormed R base size)
    (forwarded : Forwarded base mem temp) (functors : ∀ i ∈ temp, i ∈ R.functors)
    (isTerm : IsTerm R base c) (derefs : Derefs mem c d) : IsTerm R base d := by
  obtain ⟨n, found⟩ := derefs
  induction n generalizing c with
  | zero => exact nomatch found
  | succ n ih =>
    dsimp only at found
    unfold deref at found
    split_ifs at found with isRef unbound
    · rwa [← Option.some.inj found]
    · -- the reference leads to a term, which is not forwarded
      have term := isTerm.ref isRef
      have same := mem_of_notMem forwarded fun listed => apart _ term (functors _ listed)
      rw [same] at found
      exact ih (wf.cells _ term) found
    · rwa [← Option.some.inj found]

theorem unforwarded_of_apart (apart : Apart R) (wf : WellFormed R base size)
    (forwarded : Forwarded base u.mem u.tempTrail) (functors : ∀ i ∈ u.tempTrail, i ∈ R.functors)
    (terms : ∀ p ∈ u.stack, IsTerm R base p.1 ∧ IsTerm R base p.2) : Unforwarded u where
  stack := fun p listed => ⟨(terms p listed).1.tag.2, (terms p listed).2.tag.2⟩
  top := by
    intro s t stack popped d derefs
    have listed : (s, t) ∈ u.stack := by
      rw [popped]
      exact List.mem_cons_self
    obtain ⟨isTerm, isTerm'⟩ := terms _ listed
    rcases derefs with derefs | derefs
    · exact (derefs_apart apart wf forwarded functors isTerm derefs).tag.2
    · exact (derefs_apart apart wf forwarded functors isTerm' derefs).tag.2

theorem Unifying.turn_apart (un : Unifying R start a b base u done) (wf : WellFormed R start size)
    (apart : Apart R) {s t : Cell} {stack : List (Cell × Cell)} (popped : u.stack = (s, t) :: stack)
    {n : ℕ} (ran : turn n { u with stack := stack } s t = some (true, u')) :
    ∃ base' done', Unifying R start a b base' u' done' := by
  have wf' := un.change.wellFormed wf
  have older (p : Cell × Cell) (listed : p ∈ stack) : p ∈ u.stack := by
    rw [popped]
    exact List.mem_cons_of_mem _ listed
  have here : (s, t) ∈ u.stack := by
    rw [popped]
    exact List.mem_cons_self
  have plain := unforwarded_of_apart apart wf' un.forwarded un.functors un.stack
  have kept := ((un.turn wf popped plain ran).2 rfl).1
  have less : Unforwarded { u with stack := stack } :=
    unforwarded_of_apart apart wf' un.forwarded un.functors fun p listed =>
      un.stack p (older p listed)
  obtain ⟨c, d, atS, atT, turned⟩ := turn_turns ran
  have found : Derefs u.mem s c := ⟨n, atS⟩
  have found' : Derefs u.mem t d := ⟨n, atT⟩
  have isTerm := derefs_apart apart wf' un.forwarded un.functors (un.stack _ here).1 found
  have isTerm' := derefs_apart apart wf' un.forwarded un.functors (un.stack _ here).2 found'
  generalize going : true = more at turned
  cases turned with
  | bind r v u₁ pair watched =>
    have derefs := derefs_below un.forwarded found isTerm.tag.2
    have derefs' := derefs_below un.forwarded found' isTerm'.tag.2
    obtain ⟨base', done', bound, _⟩ := un.bind wf popped derefs derefs' pair watched
    exact ⟨base', done', bound⟩
  | merge m i j pairs isStr isStr' leads leads' isCon apart' same pushed =>
    apply kept
    obtain ⟨functorI, atI, sameI⟩ := un.root (isTerm.str isStr) ⟨m, leads⟩
    obtain ⟨_, atJ, sameJ⟩ := un.root (isTerm'.str isStr') ⟨m, leads'⟩
    have forwarded := Forwarded.cons un.forwarded isCon apart' same (forward_lt leads' d.value_lt)
    have functors (x : ℕ) (listed : x ∈ i :: u.tempTrail) : x ∈ R.functors := by
      rcases List.mem_cons.1 listed with rfl | listed
      · exact functorI
      · exact un.functors x listed
    have arity : (u.mem i).arity = (base c.index).arity := by rw [atI, sameI.functor]
    have arity' : (u.mem i).arity = (base d.index).arity := by rw [same, atJ, sameJ.functor]
    refine unforwarded_of_apart apart wf' forwarded functors fun p listed => ?_
    rcases List.mem_append.1 listed with listed | listed
    · obtain ⟨k, small, found, found'⟩ := (forall₂_mem (pushed_args pushed isStr isStr')).2 p listed
      have small := List.mem_range.1 small
      have cell {x : ℕ} {e : Cell} (term : x ∈ R.terms)
          (value : Derefs (Function.update u.mem i (Cell.make .FWD j))
            (Function.update u.mem i (Cell.make .FWD j) x) e) : IsTerm R base e := by
        have same := mem_of_notMem forwarded fun listed => apart x term (functors x listed)
        rw [same] at value
        exact derefs_apart apart wf' forwarded functors (wf'.cells x term) value
      exact ⟨cell ((wf'.functors _ (isTerm.str isStr)).2.2 k (by rwa [← arity])) found,
        cell ((wf'.functors _ (isTerm'.str isStr')).2.2 k (by rwa [← arity'])) found'⟩
    · exact un.stack p (older p listed)
  | equal | linked | other => exact kept less
  | big isBig isBig' => exact kept less
  | clash | functors => exact nomatch going

end Apart

section Unify

variable {R : Regions} {m : Machine} {a b c : Cell}

theorem unifying_helper (wf : WellFormed R m.mem m.size) (isTerm : IsTerm R m.mem a)
    (isTerm' : IsTerm R m.mem b) :
    Unifying R m.mem a b m.mem (m.helper a b) fun _ _ => False where
  forwarded := .none
  functors := fun _ none => absurd none List.not_mem_nil
  change := ⟨.refl m.mem, fun _ _ => rfl, wf.cells, wf.ends⟩
  stack := List.forall_mem_singleton.2 ⟨isTerm, isTerm'⟩
  asked := .listed List.mem_cons_self
  closed := fun _ _ => False.elim
  links := fun k functor => by
    refine ⟨k, functor, ⟨1, ?_⟩, .refl k⟩
    dsimp only
    unfold forward
    rw [if_neg]
    change (m.mem k).tag ≠ .FWD
    rw [(wf.functors k functor).2.1]
    decide
  follows := fun σ solves => ⟨fun _ _ => rfl, List.forall_mem_singleton.2 solves⟩

theorem unforwarded_helper (wf : WellFormed R m.mem m.size) (isTerm : IsTerm R m.mem a)
    (isTerm' : IsTerm R m.mem b) (apart : Apart R) {u : Unifier}
    (reached : Reached (m.helper a b) u) : Unforwarded u := by
  have unifying : ∃ base done, Unifying R m.mem a b base u done := by
    induction reached with
    | refl => exact ⟨_, _, unifying_helper wf isTerm isTerm'⟩
    | turn _ popped ran ih =>
      obtain ⟨base, done, un⟩ := ih
      exact Unifying.turn_apart un wf apart popped ran
  obtain ⟨base, done, un⟩ := unifying
  exact unforwarded_of_apart apart (un.change.wellFormed wf) un.forwarded un.functors un.stack

theorem unify_lasting (m : Machine) (a b : Cell) : Lasting fun n => m.unify n a b := by
  intro n k out more ran
  obtain ⟨r, looped, ran⟩ := Option.bind_eq_some_iff.1 ran
  exact Option.bind_eq_some_iff.2 ⟨r, unifyLoop_lasting _ n k r more looped, ran⟩

/-- What unification is for: it comes to an end; with success, the terms are the same, whatever the
variables are that are left, and every solution makes all terms what they are after the bindings;
with failure, there is no solution; and functors are as they were. -/
structure Unified (R : Regions) (m : Machine) (a b : Cell) (same : Bool) (m' : Machine) : Prop where
  ends : Finds (fun n => m.unify n a b) (same, m')
  solved : same = true → ∀ σ, Solves m'.mem a b σ
  general : same = true → ∀ σ, Solves m.mem a b σ →
    ∀ c, IsTerm R m.mem c → tree m'.mem σ c = tree m.mem σ c
  failed : same = false → ∀ σ, ¬ Solves m.mem a b σ
  restored : ∀ x, (m.mem x).tag = .CON → m'.mem x = m.mem x

theorem unify_ends (wf : WellFormed R m.mem m.size) (isTerm : IsTerm R m.mem a)
    (isTerm' : IsTerm R m.mem b) (plain : ∀ u, Reached (m.helper a b) u → Unforwarded u) :
    ∃ same m', Unified R m a b same m' := by
  obtain ⟨same, u, ⟨n, looped⟩, failed, solved⟩ :=
    Unifying.loop (unifying_helper wf isTerm isTerm') wf plain
  have restored {same : Bool} {m' : Machine} (ran : m.unify n a b = some (same, m')) (x : ℕ)
      (isCon : (m.mem x).tag = .CON) : m'.mem x = m.mem x := by
    apply (unify_binds ran).kept
    rw [isCon]
    rfl
  cases same with
  | true =>
    have ran : m.unify n a b = some (true, (m.withHelper u).tidyTrail m.trail.length) :=
      Option.bind_eq_some_iff.2 ⟨_, looped, rfl⟩
    obtain ⟨w, done, un, empty⟩ := solved rfl
    exact ⟨true, _, ⟨n, ran⟩, fun _ => Unifying.solved un empty,
      fun _ σ solves c isTerm => Unifying.factors un wf solves isTerm, nofun, restored ran⟩
  | false =>
    have ran : m.unify n a b =
        some (false, ((m.withHelper u).unwind m.trail.length).trimStack m.stack.length) :=
      Option.bind_eq_some_iff.2 ⟨_, looped, rfl⟩
    exact ⟨false, _, ⟨n, ran⟩, nofun, nofun, fun _ => failed rfl, restored ran⟩

/-- Unification does what it is for when it takes no forwarding cell for a term, as in every heap
where functors are no terms by themselves. -/
theorem unify_unified (wf : WellFormed R m.mem m.size) (isTerm : IsTerm R m.mem a)
    (isTerm' : IsTerm R m.mem b) :
    ((∀ u, Reached (m.helper a b) u → Unforwarded u) → ∃ same m', Unified R m a b same m') ∧
      (Apart R → ∀ u, Reached (m.helper a b) u → Unforwarded u) :=
  ⟨unify_ends wf isTerm isTerm', fun apart _ => unforwarded_helper wf isTerm isTerm' apart⟩

section Solvable

variable {R : Regions} {start base : ℕ → Cell} {a b c : Cell} {size : ℕ} {m : Machine}

theorem tree_of_step (step : Step R start base) (wf : WellFormed R start size)
    (τ : ℕ → PathTree Label) (isTerm : IsTerm R start c) :
    tree start (fun x => tree base τ (start x)) c = tree base τ c := by
  have later {c : Cell} (isTerm : IsTerm R start c) : tree base τ c = tree base τ (value start c) :=
    den_of_view (congrArg (look base) (step.value_after wf isTerm))
  refine den_of_instance { c | IsTerm R start c } (fun c isTerm => ?_) isTerm
  obtain ⟨d, derefs, isTerm'⟩ := isTerm.derefs wf
  have known := view_eq derefs
  by_cases isRef : d.tag.isRef = true
  · have ⟨n, found⟩ := derefs
    refine .inl ⟨d.index, known.trans (look_ref isRef), ?_⟩
    rw [deref_end found isRef, ← value_eq derefs]
    exact (later isTerm).symm
  · obtain ⟨l, below, below', before, after, all⟩ :=
      step.look_after wf isTerm' (Bool.eq_false_iff.2 isRef)
    have same : view base c = look base d := by
      have notRef := Bool.eq_false_iff.2 isRef
      have after := derefs.after step.binds (derefs_value notRef)
      exact view_eq after
    refine .inr ⟨l, below, below', known.trans before, same.trans after, ?_⟩
    refine all.imp fun e e' same => ?_
    exact ⟨same.left.congr fun x data => (step.data wf x data).symm,
      den_of_view (congrArg (look base) same.same)⟩

theorem unify_solvable (wf : WellFormed R m.mem m.size) (apart : Apart R)
    (isTerm : IsTerm R m.mem a) (isTerm' : IsTerm R m.mem b) :
    ∃ same m', Finds (fun n => m.unify n a b) (same, m') ∧
      (same = true ↔ ∃ σ, Solves m.mem a b σ) := by
  obtain ⟨same, u, ⟨n, looped⟩, failed, solved⟩ := Unifying.loop (unifying_helper wf isTerm isTerm')
    wf fun u reached => unforwarded_helper wf isTerm isTerm' apart reached
  have ⟨m', ran⟩ : ∃ m', m.unify n a b = some (same, m') := by
    cases same with
    | true => exact ⟨_, Option.bind_eq_some_iff.2 ⟨_, looped, rfl⟩⟩
    | false => exact ⟨_, Option.bind_eq_some_iff.2 ⟨_, looped, rfl⟩⟩
  refine ⟨same, m', ⟨n, ran⟩, ?_, fun ⟨σ, solves⟩ => ?_⟩
  · intro succeeded
    obtain ⟨w, done, un, empty⟩ := solved succeeded
    refine ⟨fun x => tree u.mem (fun _ _ => none) (m.mem x), ?_⟩
    unfold Solves
    rw [tree_of_step un.change wf _ isTerm, tree_of_step un.change wf _ isTerm']
    exact Unifying.solved un empty _
  · cases same with
    | true => rfl
    | false => exact absurd solves (failed rfl σ)

end Solvable

/-- `f(x)` and `f(Y)` -/
def unaryCells (x : Cell) : ℕ → Cell
  | 0 => Cell.conOfIndex 300 1
  | 1 => x
  | 2 => Cell.conOfIndex 300 1
  | 3 => Cell.make .REF 3
  | _ => Cell.make .INT 0

def unaryMachine (x : Cell) : Machine where
  mem := unaryCells x
  size := 4
  stack := []
  trail := []
  watched := []
  hb := 4

/-- The terms are in the cells of `terms` and the arguments. -/
def unaryRegions (terms : Set ℕ) : Regions where
  terms := { x | x = 1 ∨ x = 3 } ∪ terms
  functors := { x | x = 0 ∨ x = 2 }
  data := ∅

theorem wellFormed_unary {x d : Cell} {terms : Set ℕ}
    (isTerm : IsTerm (unaryRegions terms) (unaryCells x) x) (derefs : Derefs (unaryCells x) x d)
    (others : ∀ y ∈ terms, y = 0) :
    WellFormed (unaryRegions terms) (unaryMachine x).mem (unaryMachine x).size where
  cells := by
    rintro y ((rfl | rfl) | other)
    · exact isTerm
    · change IsTerm _ _ (Cell.make .REF 3)
      exact ⟨by decide, fun _ => .inl (.inr rfl), nofun, nofun⟩
    · rw [others y other]
      change IsTerm _ _ (Cell.conOfIndex 300 1)
      exact ⟨by decide, nofun, nofun, nofun⟩
  ends := by
    rintro y ((rfl | rfl) | other)
    · exact ⟨d, derefs⟩
    · have isVar : (Cell.make .REF 3).tag.isRef = true ∧ (Cell.make .REF 3).index = 3 := by decide
      exact ⟨_, derefs_var isVar⟩
    · rw [others y other]
      have notRef : (Cell.conOfIndex 300 1).tag.isRef = false := by decide
      exact ⟨_, derefs_value notRef⟩
  functors := by
    have arity : (Cell.conOfIndex 300 1).arity = 1 := by decide
    have isCon : (Cell.conOfIndex 300 1).tag = .CON := by decide
    have first {i : ℕ} (small : i < (Cell.conOfIndex 300 1).arity) : i = 0 := by omega
    rintro y (rfl | rfl)
    · refine ⟨Nat.succ_pos 3, isCon, fun i small => ?_⟩
      rw [first small]
      exact .inl (.inl rfl)
    · refine ⟨Nat.lt_of_sub_eq_succ rfl, isCon, fun i small => ?_⟩
      rw [first small]
      exact .inl (.inr rfl)
  data := nofun

theorem isTerm_unary {terms : Set ℕ} {x : Cell} :
    IsTerm (unaryRegions terms) (unaryCells x) (.make .STR 0) ∧
      IsTerm (unaryRegions terms) (unaryCells x) (.make .STR 2) :=
  ⟨⟨by decide, nofun, fun _ => .inl rfl, nofun⟩, ⟨by decide, nofun, fun _ => .inr rfl, nofun⟩⟩

theorem apart_unary : Apart (unaryRegions ∅) := by
  rintro y ((rfl | rfl) | other) (zero | two)
  · exact nomatch zero
  · exact nomatch two
  · exact nomatch zero
  · exact nomatch two
  · exact other
  · exact other

theorem tree_argument {mem : ℕ → Cell} {σ : ℕ → PathTree Label} {i : ℕ} {d : Cell}
    (functor : mem i = .conOfIndex 300 1) (small : i < 2 ^ 61) (derefs : Derefs mem (mem (i + 1)) d)
    (shape : look mem d = .inr (.const d, [])) :
    tree mem σ (.make .STR i) [0] = some (.const d) := by
  have index : (Cell.make .STR i).index = i := Cell.value_make_of_lt .STR small
  have isStr : (Cell.make .STR i).tag = .STR := Cell.tag_make ..
  have notRef := str_not_ref isStr
  have top : view mem (.make .STR i) = _ :=
    (view_eq (derefs_value notRef)).trans (look_str isStr)
  have arguments : args mem (.make .STR i) (mem i) = [mem (i + 1)] := by
    have arity : (Cell.conOfIndex 300 1).arity = 1 := by decide
    unfold args
    rw [functor, arity, index]
    rfl
  rw [index, arguments] at top
  rw [tree, den_cons top]
  exact den_nil ((view_eq derefs).trans shape)

theorem wellFormed_seven : WellFormed (unaryRegions ∅) (unaryMachine (.make .INT 7)).mem
    (unaryMachine (.make .INT 7)).size :=
  wellFormed_unary ⟨by decide, nofun, nofun, nofun⟩ (derefs_value rfl) nofun

/-- `f(7)` and `f(Y)` -/
theorem unify_unified_unary : ∃ same m', Unified (unaryRegions ∅) (unaryMachine (.make .INT 7))
    (.make .STR 0) (.make .STR 2) same m' := by
  have all := unify_unified wellFormed_seven isTerm_unary.1 isTerm_unary.2
  exact all.1 (all.2 apart_unary)

/-- The argument of the first structure is a reference to its functor. -/
theorem unify_forwarded : ∃ R m a b, WellFormed R m.mem m.size ∧ IsTerm R m.mem a ∧
    IsTerm R m.mem b ∧ ¬ ∃ same m', Unified R m a b same m' := by
  have wf : WellFormed (unaryRegions { y | y = 0 }) (unaryMachine (.make .REF 0)).mem
      (unaryMachine (.make .REF 0)).size := by
    have value : Derefs (unaryCells (.make .REF 0)) (.make .REF 0) (.conOfIndex 300 1) :=
      derefs_ref rfl (derefs_value rfl)
    exact wellFormed_unary ⟨by decide, fun _ => .inr rfl, nofun, nofun⟩ value fun _ => id
  refine ⟨_, _, _, _, wf, isTerm_unary.1, isTerm_unary.2, ?_⟩
  rintro ⟨same, m', unified⟩
  obtain ⟨m₁, ran, cells⟩ : ∃ m₁,
      (unaryMachine (.make .REF 0)).unify 5 (.make .STR 0) (.make .STR 2) = some (true, m₁) ∧
      m₁.mem 0 = .conOfIndex 300 1 ∧ m₁.mem 1 = .make .REF 0 ∧ m₁.mem 2 = .conOfIndex 300 1 ∧
      m₁.mem 3 = .make .FWD 2 := by
    refine ⟨_, rfl, ?_⟩
    decide
  cases Finds.unique (unify_lasting _ _ _) unified.ends ⟨5, ran⟩
  obtain ⟨atZero, atOne, atTwo, atThree⟩ := cells
  -- the trees are different below the functors
  have equal := congrFun (unified.solved rfl fun _ _ => none) [0]
  have isCon : look m'.mem (.conOfIndex 300 1) = .inr (.const (.conOfIndex 300 1), []) :=
    look_const (.inl (by decide))
  have isFwd : look m'.mem (.make .FWD 2) = .inr (.const (.make .FWD 2), []) := by
    have tag : (Cell.make .FWD 2).tag = .FWD := by decide
    unfold look
    rw [tag, if_neg nofun, if_neg nofun, if_neg nofun]
  have value : Derefs m'.mem (m'.mem 1) (.conOfIndex 300 1) := by
    rw [atOne]
    apply derefs_ref (by decide)
    have index : (Cell.make .REF 0).index = 0 := by decide
    rw [index, atZero]
    exact derefs_value (by decide)
  have value' : Derefs m'.mem (m'.mem 3) (.make .FWD 2) := by
    rw [atThree]
    exact derefs_value (by decide)
  rw [tree_argument atZero (by decide) value isCon, tree_argument atTwo (by decide) value' isFwd]
    at equal
  exact absurd (Label.const.inj (Option.some.inj equal)) (by decide)

end Unify

end Epilog.Common.MostGeneral
